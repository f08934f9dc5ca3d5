import Ember.Proofs.Running
import Ember.Prelude

/-!
# Values with several components while a program runs

GLSL has vectors. JavaScript has records of records, with scalars at the ends.
-/

set_option autoImplicit false

namespace Ember

variable {α : Type}

/-- A value while a program runs. A scalar is a vector of one component. -/
inductive Physical (α : Type) where
  | vector (parts : List α)
  | record (slots : List (Physical α))

namespace Physical

def parts? : Physical α → Option (List α)
  | .vector xs => some xs
  | .record _ => none

def letter? (xs : List α) (c : Char) : Option α :=
  (['x', 'y', 'z', 'w'].idxOf? c).bind (xs[·]?)

/-- Components of a vector by their letters. A scalar has no letters. -/
def swizzle? (letters : List Char) : Physical α → Option (Physical α)
  | .vector xs => if 2 ≤ xs.length then (letters.mapM (letter? xs)).map .vector else none
  | .record _ => none

def slot? (i : Nat) : Physical α → Option (Physical α)
  | .vector _ => none
  | .record ps => ps[i]?

/-- What a vector constructor makes of its arguments. One scalar fills all components. -/
def merge? (width : Nat) (ps : List (Physical α)) : Option (Physical α) := do
  match ← ps.mapM parts? with
  | [[x]] => some (.vector (List.replicate width x))
  | xss => if xss.flatten.length = width then some (.vector xss.flatten) else none

end Physical

/-! ## Constructors and letters -/

namespace Physical

theorem mapM_parts?_vectors (xss : List (List α)) :
    (xss.map vector).mapM parts? = some xss := by
  induction xss with
  | nil => rfl
  | cons xs xss ih => simp [parts?, ih]

/-- Several vectors are put together in their order. -/
theorem merge?_vectors {xss : List (List α)} (several : 2 ≤ xss.length) :
    merge? xss.flatten.length (xss.map vector) = some (.vector xss.flatten) := by
  unfold merge?
  rw [mapM_parts?_vectors]
  match xss, several with
  | xs :: ys :: rest, _ => simp

/-- The letter of a component names it. -/
theorem letter?_getD {xs : List α} {i : Nat} (small : i < 4) :
    letter? xs (['x', 'y', 'z', 'w'].getD i 'x') = xs[i]? := by
  interval_cases i <;> rfl

theorem mapM_range' {xs : List α} {offset width : Nat} (inside : offset + width ≤ xs.length) :
    (List.range' offset width).mapM (xs[·]?) = some ((xs.drop offset).take width) := by
  induction width generalizing offset with
  | zero => simp
  | succ width ih =>
    have first : offset < xs.length := by omega
    rw [List.range'_succ, List.mapM_cons, ih (by omega), List.getElem?_eq_getElem first,
      List.drop_eq_getElem_cons first]
    rfl

theorem mapM_letter? {xs : List α} {places : List Nat} (small : ∀ i ∈ places, i < 4) :
    (places.map fun i => ['x', 'y', 'z', 'w'].getD i 'x').mapM (letter? xs) =
      places.mapM (xs[·]?) := by
  induction places with
  | nil => rfl
  | cons i is ih =>
    rw [List.map_cons, List.mapM_cons, List.mapM_cons, letter?_getD (small i (by simp)),
      ih fun j member => small j (by simp [member])]

theorem map_range' {xs : List α} {offset width : Nat} (inside : offset + width ≤ xs.length)
    (x : α) : (List.range' offset width).map (xs.getD · x) = (xs.drop offset).take width := by
  induction width generalizing offset with
  | zero => simp
  | succ width ih =>
    have first : offset < xs.length := by omega
    rw [List.range'_succ, List.map_cons, ih (by omega), List.getD_eq_getElem _ _ first,
      List.drop_eq_getElem_cons first]
    rfl

/-- Letters from a place on name the components from there on. -/
theorem swizzle?_letters {xs : List α} (several : 2 ≤ xs.length) (small : xs.length ≤ 4)
    {offset width : Nat} (inside : offset + width ≤ xs.length) :
    swizzle? (Layout.letters offset width).toList (.vector xs) =
      some (.vector ((xs.drop offset).take width)) := by
  have four : ∀ i ∈ List.range' offset width, i < 4 := by
    simp only [List.mem_range'_1]
    omega
  have letters : (Layout.letters offset width).toList =
      (List.range' offset width).map fun i => ['x', 'y', 'z', 'w'].getD i 'x' := by
    rw [Layout.letters, String.toList_ofList, map_range' (by simp only [List.length]; omega)]
  rw [swizzle?, if_pos several, letters, mapM_letter? four, mapM_range' inside, Option.map_some]

/-- The parts of a vector, with whatever holds where they are found. Those before `front.length`
belong to fields that came first. -/
theorem forall₂_swizzles {R : Accessor → Physical α → Prop} (front : List α) (xss : List (List α))
    (several : 2 ≤ (front ++ xss.flatten).length) (small : (front ++ xss.flatten).length ≤ 4)
    (found : ∀ letters q, swizzle? letters.toList (.vector (front ++ xss.flatten)) = some q →
      R (.swizzle letters) q) :
    List.Forall₂ R (Layout.swizzles front.length (xss.map List.length)) (xss.map .vector) := by
  induction xss generalizing front with
  | nil => exact .nil
  | cons xs xss ih =>
    have split : front ++ (xs :: xss).flatten = front ++ xs ++ xss.flatten := by simp
    rw [split] at several small found
    refine .cons (found _ _ ?_) ?_
    · rw [swizzle?_letters several small (by simp)]
      simp
    · have rest := ih (front ++ xs) several small found
      rwa [List.length_append] at rest

end Physical
end Ember

import Ember.Proofs.Componentwise
import Ember.Proofs.Running.Operations

/-!
# The form of constants

A pattern describes the form of a value: a constant is of that form or not, and the names of the
pattern stand for parts of it. Literals are compared by `==`, which takes a whole number beside a
float for a float.
-/

set_option autoImplicit false

namespace Ember

open Emit

/-! ## The form of a constant -/

/-- Equality of scalars. A whole number beside a float is taken for a float. -/
def Scalar.equals : Scalar → Scalar → Bool
  | .int m, .float y => (Scalar.float m.toFloat32).same (.float y)
  | .float x, .int n => (Scalar.float x).same (.float n.toFloat32)
  | x, y => x.same y

theorem Scalar.equals_of_kind {x y : Scalar} (kinds : x.kind = y.kind) : x.equals y = x.same y := by
  cases x <;> cases y <;> first | rfl | cases kinds

def Lit.scalar : Lit → Scalar
  | .int n => .int n
  | .float x => .float x.toFloat32
  | .bool b => .bool b

theorem Lowering.literal_eq (l : Lit) :
    literal l = .const (.scalar l.scalar) (.scalar l.scalar.kind) := by
  cases l <;> rfl

namespace Value

def equalsLit (v : Value) (l : Lit) : Bool :=
  (v.const?.bind Constant.scalar?).any (·.equals l.scalar)

def fieldPart (v : Value) (name : String) : Option Value := do
  let (i, ty) ← v.ty.field? name
  let items ← v.const?.bind Constant.items?
  return .const (← items[i]?) ty

def itemPart (v : Value) (i : Nat) : Option Value := do
  let (of, _) ← v.ty.array?
  let items ← v.const?.bind Constant.items?
  return .const (← items[i]?) of

end Value

def Ty.isStruct : Ty → Bool
  | .struct _ => true
  | _ => false

def Ty.hasItems (t : Ty) (count : Nat) (rest : Bool) : Bool :=
  t.array?.any fun (_, len) => if rest then decide (count ≤ len) else decide (count = len)

mutual

/-- Whether a constant is of the form that a pattern describes. The struct that a pattern names is
taken to be that of the constant. -/
def Pat.admits : Pat → Value → Bool
  | ⟨.ignore, _⟩, _ | ⟨.bind _ _, _⟩, _ => true
  | ⟨.lit l, _⟩, v => v.equalsLit l
  | ⟨.struct _ fields _, _⟩, v => v.ty.isStruct && FieldPat.allAdmit fields v
  | ⟨.array items rest, _⟩, v => v.ty.hasItems items.length rest && Pat.allAdmit 0 items v

def FieldPat.allAdmit : List FieldPat → Value → Bool
  | [], _ => true
  | ⟨name, p⟩ :: fs, v =>
    (v.fieldPart name.name).any (fun part => p.admits part) && FieldPat.allAdmit fs v

def Pat.allAdmit (i : Nat) : List Pat → Value → Bool
  | [], _ => true
  | p :: ps, v => (v.itemPart i).any (fun part => p.admits part) && Pat.allAdmit (i + 1) ps v

end

/-- A name that a pattern binds, whether it may be assigned to, and what it stands for. -/
structure Pat.Named where
  name : String
  mutable : Bool
  part : Value

mutual

def Pat.parts : Pat → Value → List Pat.Named
  | ⟨.ignore, _⟩, _ | ⟨.lit _, _⟩, _ => []
  | ⟨.bind name mutable, _⟩, v => [⟨name, mutable, v⟩]
  | ⟨.struct _ fields _, _⟩, v => FieldPat.allParts fields v
  | ⟨.array items _, _⟩, v => Pat.allParts 0 items v

def FieldPat.allParts : List FieldPat → Value → List Pat.Named
  | [], _ => []
  | ⟨name, p⟩ :: fs, v =>
    (v.fieldPart name.name).toList.flatMap (fun part => p.parts part) ++ FieldPat.allParts fs v

def Pat.allParts (i : Nat) : List Pat → Value → List Pat.Named
  | [], _ => []
  | p :: ps, v =>
    (v.itemPart i).toList.flatMap (fun part => p.parts part) ++ Pat.allParts (i + 1) ps v

end

def Lowering.bindPart (cx : Lowering) (b : Pat.Named) : Emit Unit :=
  cx.bindLocal b.name b.mutable b.part

/-! ## Equality of the prelude -/

/-- The kind on whose vectors a function is `==`. -/
def Function.equates? (f : Function) : Option ScalarKind :=
  match f.behaviour, f.params with
  | .reduce .eq, [⟨_, .vector a⟩, ⟨_, .vector b⟩] => if a = b then some a else none
  | _, _ => none

theorem Function.equates?_eq_some {f : Function} {k : ScalarKind} (equates : f.equates? = some k) :
    f.behaviour = .reduce .eq ∧ ∃ a b, f.params = [⟨a, .vector k⟩, ⟨b, .vector k⟩] := by
  unfold Function.equates? at equates
  split at equates
  · rename_i a x b y reduces params
    split at equates
    · rename_i same
      cases equates
      exact ⟨reduces, a, b, same ▸ params⟩
    · cases equates
  · cases equates

/-- How well two scalars meet the `==` of a kind. -/
theorem Function.score_of_equates? {f : Function} {k : ScalarKind} (equates : f.equates? = some k)
    (a b : Ty) : f.score [a, b] =
      (do return (← (ParamTy.vector k).score a) + (← (ParamTy.vector k).score b)) := by
  obtain ⟨_, x, y, params⟩ := equates?_eq_some equates
  rw [score, params]
  simp [scores]

/-- A program in which a value is compared with a literal as the prelude has it. -/
structure Program.EqualsAsPrelude (p : Program) : Prop where
  start : ∃ q, Program.start = .ok q ∧ p.env.root = q.env.root
  meant : ∀ t l f, resolve "==" (p.env.candidates "_eq") [t, (Lowering.literal l).ty] = .ok f →
    ("_eq", f) ∈ p.env.root.functions

namespace Program.EqualsAsPrelude

variable {p : Program}

/-- It is so where the program has no `==` of its own. -/
theorem of_unnamed {q : Program} (start : Program.start = .ok q) (root : p.env.root = q.env.root)
    (unnamed : ∀ f ∈ p.env.own.functions, f.1 ≠ "_eq") : p.EqualsAsPrelude := by
  refine ⟨⟨q, start, root⟩, fun t l f found => ?_⟩
  obtain ⟨before, c, after, all, rfl, _⟩ := Answer.resolve_eq_ok_iff.mp found
  have member : c ∈ p.env.candidates "_eq" := by simp [all]
  rcases List.mem_append.mp member with mine | theirs
  · obtain ⟨g, listed, _⟩ := List.mem_map.mp mine
    obtain ⟨declared, named⟩ := List.mem_filter.mp listed
    exact absurd (eq_of_beq named) (unnamed g declared)
  · obtain ⟨⟨name, g⟩, listed, rfl⟩ := List.mem_map.mp theirs
    obtain ⟨declared, named⟩ := List.mem_filter.mp listed
    obtain rfl : name = "_eq" := eq_of_beq named
    exact declared

/-- Every `==` of the prelude is that of a kind, and there is one of each kind. -/
theorem equates (equality : p.EqualsAsPrelude) :
    (∀ f, ("_eq", f) ∈ p.env.root.functions → ∃ k, f.equates? = some k) ∧
    ∀ k, ∃ f, ("_eq", f) ∈ p.env.root.functions ∧ f.equates? = some k := by
  obtain ⟨q, start, root⟩ := equality.start
  have listed : Program.start.toOption.all (fun q =>
      (q.env.root.functions.all fun f => f.1 != "_eq" || f.2.equates?.isSome) &&
      ScalarKind.all.all fun k => q.env.root.functions.any fun f =>
        f.1 == "_eq" && f.2.equates? == some k) = true := by
    decide +kernel
  rw [start] at listed
  obtain ⟨each, every⟩ := Bool.and_eq_true_iff.mp listed
  rw [root]
  constructor
  · intro f member
    have found := List.all_eq_true.mp each _ member
    simpa [Option.isSome_iff_exists] using found
  · intro k
    have found := List.all_eq_true.mp every k (by cases k <;> simp [ScalarKind.all])
    obtain ⟨⟨name, f⟩, member, named⟩ := List.any_eq_true.mp found
    obtain ⟨rfl, kind⟩ : name = "_eq" ∧ f.equates? = some k := by simpa using named
    exact ⟨f, member, kind⟩

/-- Two whole numbers are not compared as floats. -/
theorem not_float {f : Function} (equality : p.EqualsAsPrelude)
    (found : resolve "==" (p.env.candidates "_eq") [.i32, .i32] = .ok f) :
    f.equates? ≠ some .float := by
  intro float
  obtain ⟨n, score, most⟩ := resolve_best found
  obtain ⟨g, member, int⟩ := equality.equates.2 .int
  have rival : ⟨1, g⟩ ∈ p.env.candidates "_eq" :=
    List.mem_append_right _ (List.mem_map.mpr ⟨_, List.mem_filter.mpr ⟨member, by simp⟩, rfl⟩)
  have lost : f.score [.i32, .i32] = some 0 := by
    rw [Function.score_of_equates? float]
    decide
  have won : g.score [.i32, .i32] = some 2 := by
    rw [Function.score_of_equates? int]
    decide
  have := most _ rival 2 won
  obtain rfl : n = 0 := by simpa [lost] using score.symm
  omega

end Program.EqualsAsPrelude

/-- What a float is accepted from. -/
theorem Ty.of_accepts_float {t : Ty} (accepted : (Ty.scalar .float).accepts t = true) :
    t = .f32 ∨ t = .i32 := by
  cases t with
  | scalar k =>
    cases k with
    | float => exact .inl rfl
    | int => exact .inr rfl
    | bool => cases accepted
  | struct s => cases accepted
  | array of len => cases accepted
  | alt first others => cases accepted

theorem Ty.eq_scalar_of_same {t : Ty} {k : ScalarKind} (same : (t == .scalar k) = true) :
    t = .scalar k := by
  cases t with
  | scalar k' => simpa [Ty.mark] using (Ty.beq_iff _ _).mp same
  | struct s => cases same
  | array of len => cases same
  | alt first others => cases same

namespace Lowering

variable {cx : Lowering} {v w : Value} {c : Constant}

/-- A constant as `==` takes it: as it is, or a whole number as a float. -/
theorem argument_of_const {k : ScalarKind} (known : v.payload = .const c)
    (given : cx.argument v (.vector k) = .ok w) :
    w = v ∨ k = .float ∧ v.ty = .i32 ∧ ∃ n, c = .scalar (.int n) ∧ w = .float n.toFloat32 := by
  unfold argument at given
  dsimp only at given
  split at given
  · cases given
    exact .inl rfl
  · unfold Value.convert at given
    split at given
    · cases given
      exact .inl rfl
    · rename_i differ
      split at given
      · cases given
      · rename_i accepted
        split at given
        · rename_i n goal payload
          cases goal
          cases given
          rw [known] at payload
          cases payload
          have accepted : (Ty.scalar .float).accepts v.ty = true := by simpa using accepted
          rcases Ty.of_accepts_float accepted with float | int
          · exact absurd ((Ty.beq_iff _ _).mpr (by rw [float]; rfl)) differ
          · exact .inr ⟨rfl, int, n, rfl, rfl⟩
        · rename_i payload
          rw [known] at payload
          cases payload
        · rename_i first others goal
          cases goal
        · cases given

end Lowering

/-- Two constants of one type of scalars are compared at once. -/
theorem Emit.reduce_scalars {a b : Value} {x y : Scalar} {k : ScalarKind}
    (knownA : a.payload = .const (.scalar x)) (knownB : b.payload = .const (.scalar y))
    (tyA : a.ty = .scalar k) (tyB : b.ty = .scalar k) (target : Target) :
    Emit.reduce target .eq [a, b] = pure (.bool (x.same y)) := by
  have same : checkSameTy [a, b] = .ok () := by
    rw [checkSameTy, tyA, tyB, if_pos ((Ty.beq_iff _ _).mpr rfl)]
  have parts : components target [a, b] = pure [[a], [b]] := by
    simp [components, scalars, tyA, tyB, scalarsAt, cache_const knownA, cache_const knownB]
  have constA : a.const? = some (.scalar x) := by simp [Value.const?, knownA]
  have constB : b.const? = some (.scalar y) := by simp [Value.const?, knownB]
  have terms : reduceTerms target .eq k [[a], [b]] none [0] = .ok (some (.bool (x.same y))) := by
    simp [reduceTerms, pick, reduceTerm, Emit.compare, constA, constB, Constant.same, pure, bind,
      Except.pure, Except.bind]
  unfold Emit.reduce
  rw [same]
  simp only [List.head?_cons, Option.bind_some, tyA, Ty.shape?_scalar, List.all_cons, Value.isConst,
    constA, constB, Option.isSome_some, List.all_nil, Bool.and_self, Bool.not_true, Bool.and_false,
    reduceScalars, parts]
  simp [terms, reduceEnd]
  rfl

namespace Observes

variable {K : Known} {cx : Lowering} {s : Emission} {v : Value} {c : Constant}

/-- Operands of different types are not compared. -/
theorem reduce_of_same {a b : Value} {target : Target} {P : Value → Prop}
    (then_ : (a.ty == b.ty) = true → Observes (Emit.reduce target .eq [a, b]) s P) :
    Observes (Emit.reduce target .eq [a, b]) s P := by
  by_cases same : (a.ty == b.ty) = true
  · exact then_ same
  · refine bind (lift _) fun _ checked => ?_
    rw [checkSameTy, if_neg same] at checked
    cases checked

/-- A constant that can be compared with a literal is a scalar, and the comparison is known. -/
theorem equality (prelude : s.program.EqualsAsPrelude) (valid : v.Over K)
    (known : v.payload = .const c) (l : Lit) (span : Span) :
    Observes (cx.operator "_eq" "==" [v, Lowering.literal l] span) s
      fun test => test = .bool (v.equalsLit l) := by
  refine bind (look _) fun env is => ?_
  subst is
  refine bind (lift _) fun f found => ?_
  obtain ⟨k, equates⟩ := prelude.equates.1 f (prelude.meant _ _ f found)
  obtain ⟨reduces, x, y, params⟩ := Function.equates?_eq_some equates
  refine bind (lift _) fun _ _ => ?_
  refine bind (lift _) fun args given => ?_
  obtain ⟨a, b, rfl, givenA, givenB⟩ : ∃ a b, args = [a, b] ∧
      cx.argument v (.vector k) = .ok a ∧
      cx.argument (Lowering.literal l) (.vector k) = .ok b := by
    rw [params] at given
    obtain ⟨a, givenA, given⟩ := ok_of_bind given
    obtain ⟨rest, givenRest, given⟩ := ok_of_bind given
    obtain ⟨b, givenB, givenRest⟩ := ok_of_bind givenRest
    cases givenRest
    cases given
    exact ⟨a, b, rfl, givenA, givenB⟩
  rw [reduces]
  change Observes (Emit.reduce cx.target .eq [a, b]) s _
  refine reduce_of_same fun same => ?_
  have literal := Lowering.literal_eq l
  have knownL : (Lowering.literal l).payload = .const (.scalar l.scalar) := by rw [literal]; rfl
  have tyL : (Lowering.literal l).ty = .scalar l.scalar.kind := by rw [literal]; rfl
  have wanted {x : Scalar} (scalar : c = .scalar x) : v.equalsLit l = x.equals l.scalar := by
    simp [Value.equalsLit, Value.const?, known, scalar, Constant.scalar?]
  generalize l.scalar = y at knownL tyL wanted
  rcases Lowering.argument_of_const known givenA with rfl | ⟨rfl, int, n, rfl, rfl⟩ <;>
  rcases Lowering.argument_of_const knownL givenB with rfl | ⟨float, int', m, whole, rfl⟩
  · -- both as they are
    have ty : a.ty = .scalar y.kind := Ty.eq_scalar_of_same (tyL ▸ same)
    obtain ⟨x, rfl, kind⟩ : ∃ x : Scalar, c = .scalar x ∧ x.kind = y.kind := by
      simpa [ty, Ty.Holds] using valid.const c known
    rw [Emit.reduce_scalars known knownL ty tyL, wanted rfl, Scalar.equals_of_kind kind]
    exact pure rfl
  · -- a float and a whole number
    have ty : a.ty = .scalar .float := Ty.eq_scalar_of_same same
    obtain ⟨x, rfl, kind⟩ : ∃ x : Scalar, c = .scalar x ∧ x.kind = .float := by
      simpa [ty, Ty.Holds] using valid.const c known
    cases x with
    | float z =>
      cases whole
      rw [Emit.reduce_scalars known rfl ty rfl, wanted rfl]
      exact pure rfl
    | int _ => cases kind
    | bool _ => cases kind
  · -- a whole number and a float
    have kind : y.kind = .float := by
      have ty := (Ty.beq_iff _ _).mp same
      simpa [tyL, Value.float, Value.const, Ty.f32, Ty.mark] using ty.symm
    cases y with
    | float z =>
      rw [Emit.reduce_scalars rfl knownL rfl tyL, wanted rfl]
      exact pure rfl
    | int _ => cases kind
    | bool _ => cases kind
  · -- whole numbers are not both taken for floats
    have types : [v, Lowering.literal l].map Value.ty = [.i32, .i32] := by simp [int, int']
    rw [types] at found
    exact absurd equates (prelude.not_float found)

end Observes

end Ember

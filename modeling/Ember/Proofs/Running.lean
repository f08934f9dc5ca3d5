import Mathlib
import Ember.Line
import Ember.ScalarOp

/-!
# What JavaScript computes

Numbers are exact: a quotient keeps its fraction, and only `&`, `|` and `Math.imul` make whole
numbers of 32 bits. Code has a value only if its text is read as it is built, so what an operator
works on is a name, a literal, a call or something in parentheses. A name is declared once, and none
hides another.
-/

set_option autoImplicit false

namespace Ember

inductive Datum where
  | number (q : ℚ)
  | truth (b : Bool)
  deriving DecidableEq

namespace Datum

def truncate (q : ℚ) : Int := q.num.tdiv q.den

def word (q : ℚ) : Int32 := Int32.ofInt (truncate q)

def ofWord (v : Int32) : Datum := .number v.toInt

/-- The value that a scalar is written as; floats are not exact. -/
def ofScalar? : Scalar → Option Datum
  | .int v => some (ofWord v)
  | .bool b => some (.truth b)
  | .float _ => none

def ofNumbers (op : CodeOp) (a b : ℚ) : Option Datum :=
  match op with
  | .add => some (.number (a + b))
  | .sub => some (.number (a - b))
  | .mul => some (.number (a * b))
  | .div => if b = 0 then none else some (.number (a / b))
  | .rem => if b = 0 then none else some (.number (a - b * truncate (a / b)))
  | .bitAnd => some (ofWord (word a &&& word b))
  | .bitOr => some (ofWord (word a ||| word b))
  | .lt => some (.truth (a < b))
  | .gt => some (.truth (b < a))
  | .le => some (.truth (a ≤ b))
  | .ge => some (.truth (b ≤ a))
  | .eq | .strictEq => some (.truth (a = b))
  | .ne => some (.truth (a ≠ b))
  | .and | .or => none

def ofTruths (op : CodeOp) (a b : Bool) : Option Datum :=
  match op with
  | .eq | .strictEq => some (.truth (a == b))
  | .ne => some (.truth (a != b))
  | .and => some (.truth (a && b))
  | .or => some (.truth (a || b))
  | _ => none

def binary (op : CodeOp) : Datum → Datum → Option Datum
  | .number a, .number b => ofNumbers op a b
  | .truth a, .truth b => ofTruths op a b
  | _, _ => none

def neg? : Datum → Option Datum
  | .number a => some (.number (-a))
  | .truth _ => none

def not? : Datum → Option Datum
  | .truth b => some (.truth (!b))
  | .number _ => none

def truth? : Datum → Option Bool
  | .truth b => some b
  | .number _ => none

def call (fn : String) (args : List Datum) : Option Datum :=
  match args with
  | [.number a] => if fn = "Math.abs" then some (.number |a|) else none
  | [.number a, .number b] =>
    if fn = "Math.imul" then some (ofWord (word a * word b))
    else if fn = "Math.min" then some (.number (min a b))
    else if fn = "Math.max" then some (.number (max a b))
    else none
  | _ => none

end Datum

/-- A variable: its value, if it has got one, and whether it may be assigned. -/
structure Cell where
  value : Option Datum
  mutable : Bool

/-- Variables from the last declared to the first. -/
abbrev Cells := List (String × Cell)

namespace Cells

def value? (vars : Cells) (name : String) : Option Datum := (vars.lookup name).bind Cell.value

def assign (name : String) (d : Datum) : Cells → Option Cells
  | [] => none
  | (other, cell) :: rest =>
    if other = name then
      if cell.mutable then some ((other, ⟨some d, true⟩) :: rest) else none
    else (assign name d rest).map ((other, cell) :: ·)

end Cells

namespace Code

def isAtom : Code → Bool
  | .binary .. | .neg _ | .not _ | .choice .. => false
  | _ => true

mutual

/-- The value of an expression. The right side of `&&` and `||` counts only if the left side leaves
it open. -/
def value? (vars : Cells) : Code → Option Datum
  | .name x => vars.value? x
  | .lit s => Datum.ofScalar? s
  | .paren c => value? vars c
  | .binary op a b =>
    if a.isAtom && b.isAtom then do
      let x ← value? vars a
      if op = .and ∧ x = .truth false then some x
      else if op = .or ∧ x = .truth true then some x
      else Datum.binary op x (← value? vars b)
    else none
  | .neg c => if c.isAtom then (value? vars c).bind Datum.neg? else none
  | .not c => if c.isAtom then (value? vars c).bind Datum.not? else none
  | .choice c a b =>
    if c.isAtom && a.isAtom && b.isAtom then do
      if ← (value? vars c).bind Datum.truth? then value? vars a else value? vars b
    else none
  | .call fn args => do Datum.call fn (← values? vars args)
  | .list _ | .member _ _ | .index _ _ | .slot _ _ => none

def values? (vars : Cells) : List Code → Option (List Datum)
  | [] => some []
  | c :: cs => do return (← value? vars c) :: (← values? vars cs)

end

end Code

namespace Line

mutual

/-- What a line makes of the variables. Those declared inside a branch end with it. -/
def run (vars : Cells) : Line → Option Cells
  | .declare _ name init mutable =>
    if (vars.lookup name).isSome then none
    else match init with
      | some c => (c.value? vars).map fun d => (name, ⟨some d, mutable⟩) :: vars
      | none => some ((name, ⟨none, true⟩) :: vars)
  | .assign place c =>
    match place with
    | .name x => (c.value? vars).bind fun d => vars.assign x d
    | _ => none
  | .branch cond yes no => do
    let after ← if ← (cond.value? vars).bind Datum.truth? then runAll vars yes else runAll vars no
    return after.drop (after.length - vars.length)
  | _ => none

def runAll (vars : Cells) : List Line → Option Cells
  | [] => some vars
  | l :: ls => do runAll (← run vars l) ls

end

theorem runAll_append {vars after : Cells} {ls : List Line} (ran : runAll vars ls = some after)
    (more : List Line) : runAll vars (ls ++ more) = runAll after more := by
  induction ls generalizing vars with
  | nil =>
    cases ran
    rfl
  | cons l ls ih =>
    simp only [runAll, Option.bind_eq_bind, Option.bind_eq_some_iff, List.cons_append] at ran ⊢
    obtain ⟨next, first, rest⟩ := ran
    rw [first]
    exact ih rest

end Line

/-! ## Variables that are added -/

namespace Cells

variable {vars more : Cells} {name : String} {d : Datum}

def Kept (vars more : Cells) : Prop :=
  ∀ name d, vars.value? name = some d → more.value? name = some d

theorem Kept.refl (vars : Cells) : vars.Kept vars := fun _ _ found => found

theorem Kept.trans {last : Cells} (h : vars.Kept more) (g : more.Kept last) : vars.Kept last :=
  fun name d found => g name d (h name d found)

theorem value?_cons_self (cell : Cell) : value? ((name, cell) :: vars) name = cell.value := by
  simp [value?]

theorem value?_cons_ne {other : String} (cell : Cell) (differ : name ≠ other) :
    value? ((other, cell) :: vars) name = vars.value? name := by
  simp [value?, List.lookup_cons, beq_false_of_ne differ]

theorem Kept.cons (cell : Cell) (unseen : vars.lookup name = none) :
    vars.Kept ((name, cell) :: vars) := by
  intro other d found
  have differ : other ≠ name := by
    rintro rfl
    simp [value?, unseen] at found
  rw [value?_cons_ne cell differ]
  exact found

theorem assign_cons (cell : Cell) (free : cell.mutable = true) :
    assign name d ((name, cell) :: vars) = some ((name, ⟨some d, true⟩) :: vars) := by
  simp [assign, free]

theorem assign_append {new : Cells} (unseen : new.lookup name = none) :
    assign name d (new ++ vars) = (assign name d vars).map (new ++ ·) := by
  induction new with
  | nil => simp
  | cons entry rest ih =>
    obtain ⟨other, cell⟩ := entry
    have differ : name ≠ other := by
      rintro rfl
      simp at unseen
    rw [List.lookup_cons, beq_false_of_ne differ] at unseen
    simp [assign, Ne.symm differ, ih unseen, Function.comp_def]

end Cells

namespace Code

variable {vars more : Cells}

mutual

/-- More variables do not change what has a value. -/
theorem value?_kept (kept : vars.Kept more) : ∀ {c : Code} {d : Datum},
    c.value? vars = some d → c.value? more = some d
  | .name x, d, found => by
    simp only [value?] at found ⊢
    exact kept x d found
  | .lit _, _, found => by simpa only [value?] using found
  | .paren c, _, found => by
    simp only [value?] at found ⊢
    exact value?_kept kept found
  | .binary op a b, d, found => by
    simp only [value?, Option.bind_eq_bind] at found ⊢
    split_ifs at found ⊢ with atoms
    obtain ⟨x, left, rest⟩ := Option.bind_eq_some_iff.mp found
    rw [value?_kept kept left, Option.bind_some]
    split_ifs at rest ⊢ with first second
    · exact rest
    · exact rest
    · obtain ⟨y, right, joined⟩ := Option.bind_eq_some_iff.mp rest
      rw [value?_kept kept right, Option.bind_some]
      exact joined
  | .neg c, _, found => by
    simp only [value?] at found ⊢
    split_ifs at found ⊢ with atom
    obtain ⟨x, inner, rest⟩ := Option.bind_eq_some_iff.mp found
    rw [value?_kept kept inner, Option.bind_some]
    exact rest
  | .not c, _, found => by
    simp only [value?] at found ⊢
    split_ifs at found ⊢ with atom
    obtain ⟨x, inner, rest⟩ := Option.bind_eq_some_iff.mp found
    rw [value?_kept kept inner, Option.bind_some]
    exact rest
  | .choice c a b, _, found => by
    simp only [value?, Option.bind_eq_bind] at found ⊢
    split_ifs at found ⊢ with atoms
    obtain ⟨test, decided, rest⟩ := Option.bind_eq_some_iff.mp found
    obtain ⟨x, inner, truth⟩ := Option.bind_eq_some_iff.mp decided
    rw [value?_kept kept inner, Option.bind_some, truth, Option.bind_some]
    split_ifs at rest ⊢
    · exact value?_kept kept rest
    · exact value?_kept kept rest
  | .call fn args, _, found => by
    simp only [value?, Option.bind_eq_bind] at found ⊢
    obtain ⟨xs, inner, rest⟩ := Option.bind_eq_some_iff.mp found
    rw [values?_kept kept inner, Option.bind_some]
    exact rest
  | .list _, _, found => by simp [value?] at found
  | .member _ _, _, found => by simp [value?] at found
  | .index _ _, _, found => by simp [value?] at found
  | .slot _ _, _, found => by simp [value?] at found

theorem values?_kept (kept : vars.Kept more) : ∀ {cs : List Code} {ds : List Datum},
    values? vars cs = some ds → values? more cs = some ds
  | [], _, found => by simpa only [values?] using found
  | c :: cs, ds, found => by
    simp only [values?, Option.bind_eq_bind] at found ⊢
    obtain ⟨x, first, rest⟩ := Option.bind_eq_some_iff.mp found
    obtain ⟨xs, others, joined⟩ := Option.bind_eq_some_iff.mp rest
    rw [value?_kept kept first, Option.bind_some, values?_kept kept others, Option.bind_some]
    exact joined

end

end Code

/-! ## Exact numbers and words -/

namespace Datum

@[simp] theorem truncate_intCast (n : Int) : truncate (n : ℚ) = n := by simp [truncate]

/-- The quotient of whole numbers, cut off. -/
theorem truncate_div (a : Int) {b : Int} (nonzero : b ≠ 0) :
    truncate ((a : ℚ) / b) = a.tdiv b := by
  obtain ⟨c, num, den⟩ := Rat.num_den_mk nonzero (Rat.divInt_eq_div a b).symm
  have scaled : a.tdiv b = (c * ((a : ℚ) / b).num).tdiv (c * ((a : ℚ) / b).den) := by
    rw [← num, ← den]
  rw [scaled, truncate]
  rcases lt_trichotomy c 0 with below | rfl | above
  · rw [← Int.neg_tdiv_neg (c * _), ← Int.neg_mul, ← Int.neg_mul,
      Int.mul_tdiv_mul_of_pos _ _ (by omega)]
  · exact absurd (by simpa using den) nonzero
  · rw [Int.mul_tdiv_mul_of_pos _ _ above]

@[simp] theorem word_toInt (v : Int32) : word (v.toInt : ℚ) = v := by
  rw [word, truncate_intCast, Int32.ofInt_toInt]

theorem word_intCast (n : Int) : word (n : ℚ) = Int32.ofInt n := by
  rw [word, truncate_intCast]

end Datum
end Ember

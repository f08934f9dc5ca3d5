import Ember.Proofs.Running.Words
import Ember.Proofs.Safe.Broadcast
import Ember.Proofs.Steady

/-!
# What lowering to JavaScript writes for operations on scalars

Operands that are not simple are kept in variables first. The lines that do so run wherever the
operands have their values, and add only variables that no name had before.
-/

set_option autoImplicit false

namespace Ember

variable {α β : Type}

theorem Gives.of_toOption {x : Except Failure α} {a : α} (found : x.toOption = some a) :
    x = .ok a := by
  cases x with
  | ok b =>
    cases found
    rfl
  | error f => cases found

/-! ## Lines and numbers -/

def Emission.wrote (s : Emission) (ls : List Line) (n : Nat) : Emission :=
  { s with
    program := { s.program with ids := ⟨n⟩ }
    frame := { s.frame with level := { s.frame.level with lines := s.frame.level.lines ++ ls } } }

abbrev Emission.next (s : Emission) : Nat := s.program.ids.next

@[simp] theorem Emission.wrote_nil (s : Emission) : s.wrote [] s.next = s := by
  simp [Emission.wrote]

@[simp] theorem Emission.wrote_wrote (s : Emission) (ls ms : List Line) (m n : Nat) :
    (s.wrote ls m).wrote ms n = s.wrote (ls ++ ms) n := by
  simp [Emission.wrote]

@[simp] theorem Emission.next_wrote (s : Emission) (ls : List Line) (n : Nat) :
    (s.wrote ls n).next = n := rfl

def tempName (n : Nat) : String := "_t" ++ toString n

theorem tempName_injective : Function.Injective tempName := fun _ _ same =>
  Nat.repr_inj.mp ((String.append_right_inj "_t").mp same)

/-- Success means that nothing was changed. -/
def Observes (act : Emit α) (s : Emission) (P : α → Prop) : Prop :=
  ∀ a t, act s = .ok a t → t = s ∧ P a

namespace Observes

variable {act : Emit α} {s : Emission} {P : α → Prop}

theorem pure {a : α} (h : P a) : Observes (pure a) s P := by
  rintro _ _ ⟨⟩
  exact ⟨rfl, h⟩

theorem bind {next : α → Emit β} {Q : β → Prop} (h : Observes act s P)
    (then_ : ∀ a, P a → Observes (next a) s Q) : Observes (act >>= next) s Q := by
  intro b t run
  obtain ⟨a, u, first, rest⟩ := bind_eq_ok.mp run
  obtain ⟨rfl, holds⟩ := h a u first
  exact then_ a holds b t rest

theorem lift (x : Except Failure α) : Observes (liftM x) s fun a => x = .ok a := by
  intro a t run
  obtain ⟨found, rfl⟩ := Steady.run_lift run
  exact ⟨rfl, found⟩

theorem look (f : Emission → α) : Observes (Emit.look f) s fun a => a = f s := by
  rintro _ _ ⟨⟩
  exact ⟨rfl, rfl⟩

theorem throw (f : Failure) : Observes (throw f : Emit α) s P := by
  rintro _ _ ⟨⟩

theorem locating {span : Span} (h : Observes act s P) : Observes (Emit.locating span act) s P := by
  intro a t run
  unfold Emit.locating at run
  cases first : act s with
  | ok b m =>
    rw [first] at run
    cases run
    exact h _ _ first
  | error f m => simp [first] at run

theorem vectorTy (k : ScalarKind) : Observes (Emit.vectorTy k 1) s fun t => t = .scalar k := by
  unfold Emit.vectorTy
  refine bind (look _) fun b _ => ?_
  rw [Builtins.vector, if_pos rfl]
  exact pure rfl

theorem scalars {v : Value} {k : ScalarKind} (ty : v.ty = .scalar k) :
    Observes (Emit.scalars .js v) s fun vs => vs = [v] := by
  unfold Emit.scalars
  rw [ty, Emit.scalarsAt]
  exact pure rfl

end Observes

/-- Success means that lines were written and numbers given out, and nothing else. -/
def Writes (act : Emit α) (s : Emission) (Q : α → List Line → Nat → Prop) : Prop :=
  ∀ a t, act s = .ok a t → ∃ ls n, s.next ≤ n ∧ t = s.wrote ls n ∧ Q a ls n

namespace Writes

variable {act : Emit α} {s : Emission} {Q R : α → List Line → Nat → Prop}

theorem mono (h : Writes act s Q) (weaker : ∀ a ls n, s.next ≤ n → Q a ls n → R a ls n) :
    Writes act s R := by
  intro a t run
  obtain ⟨ls, n, more, rfl, holds⟩ := h a t run
  exact ⟨ls, n, more, rfl, weaker a ls n more holds⟩

theorem pure {a : α} (h : Q a [] s.next) : Writes (pure a) s Q := by
  rintro _ _ ⟨⟩
  exact ⟨[], s.next, le_rfl, s.wrote_nil.symm, h⟩

theorem bind {next : α → Emit β} {R : β → List Line → Nat → Prop} (h : Writes act s Q)
    (then_ : ∀ a ls n, s.next ≤ n → Q a ls n →
      Writes (next a) (s.wrote ls n) fun b ms m => R b (ls ++ ms) m) :
    Writes (act >>= next) s R := by
  intro b t run
  obtain ⟨a, u, first, rest⟩ := bind_eq_ok.mp run
  obtain ⟨ls, n, more, rfl, holds⟩ := h a u first
  obtain ⟨ms, m, further, rfl, done⟩ := then_ a ls n more holds b t rest
  exact ⟨ls ++ ms, m, more.trans further, by simp, done⟩

theorem throw (f : Failure) : Writes (throw f : Emit α) s Q := by
  rintro _ _ ⟨⟩

/-- After an action that leaves everything as it is. -/
theorem after {next : α → Emit β} {P : α → Prop} {R : β → List Line → Nat → Prop}
    (h : Observes act s P) (then_ : ∀ a, P a → Writes (next a) s R) : Writes (act >>= next) s R := by
  intro b t run
  obtain ⟨a, u, first, rest⟩ := bind_eq_ok.mp run
  obtain ⟨rfl, holds⟩ := h a u first
  exact then_ a holds b t rest

theorem of_observes {P : α → Prop} (h : Observes act s P) (holds : ∀ a, P a → Q a [] s.next) :
    Writes act s Q := by
  intro a t run
  obtain ⟨rfl, given⟩ := h a t run
  exact ⟨[], t.next, le_rfl, t.wrote_nil.symm, holds a given⟩

theorem locating {span : Span} (h : Writes act s Q) : Writes (Emit.locating span act) s Q := by
  intro a t run
  unfold Emit.locating at run
  cases first : act s with
  | ok b m =>
    rw [first] at run
    cases run
    exact h _ _ first
  | error f m => simp [first] at run

theorem lines {R : Unit → List Line → Nat → Prop} {ls : List Line} (h : R () ls s.next) :
    Writes (Emit.lines ls) s R := by
  rintro _ _ ⟨⟩
  exact ⟨ls, s.next, le_rfl, rfl, h⟩

theorem temp : Writes Emit.temp s fun name ls n =>
    name = tempName s.next ∧ ls = [] ∧ n = s.next + 1 := by
  rintro _ _ ⟨⟩
  exact ⟨[], s.next + 1, Nat.le_succ _, by simp [Emission.wrote], rfl, rfl, rfl⟩

theorem inBlock (h : Writes act s.entered Q) :
    Writes (Emit.inBlock act) s fun p ls n => ls = [] ∧ Q p.1 p.2 n := by
  intro a t run
  rw [Emit.inBlock_run] at run
  split at run
  · rename_i b m first
    cases run
    obtain ⟨ls, n, more, rfl, holds⟩ := h _ _ first
    refine ⟨[], n, more, ?_, rfl, ?_⟩
    · simp [Emission.wrote, Emission.entered, Emission.left]
    · simpa [Emission.wrote, Emission.entered] using holds
  · cases run

theorem nested (h : Writes act s.entered Q) : Writes (Emit.nested act) s Q := by
  refine bind (inBlock h) fun p ls n _ => ?_
  rintro ⟨rfl, holds⟩
  exact bind (lines (R := fun _ ms m => ms = p.2 ∧ m = n) ⟨rfl, rfl⟩) fun _ _ _ _ ⟨same, last⟩ =>
    pure (by simpa [same, last] using holds)

end Writes

/-! ## Lines that run -/

namespace Cells

variable {vars more last : Cells} {m n l : Nat}

/-- No variable has the name of an intermediate value with a number from `m` to below `n`. -/
def Room (vars : Cells) (m n : Nat) : Prop :=
  ∀ i, m ≤ i → i < n → vars.lookup (tempName i) = none

theorem Room.narrow {m' n' : Nat} (room : vars.Room m n) (low : m ≤ m') (high : n' ≤ n) :
    vars.Room m' n' :=
  fun i above below => room i (low.trans above) (below.trans_le high)

def Grown (vars : Cells) (m n : Nat) (more : Cells) : Prop :=
  ∃ new, more = new ++ vars ∧ ∀ q ∈ new, ∃ i, m ≤ i ∧ i < n ∧ q.1 = tempName i

theorem Grown.refl (vars : Cells) (m n : Nat) : vars.Grown m n vars := ⟨[], rfl, by simp⟩

theorem Grown.trans (h : vars.Grown m n more) (g : more.Grown n l last) (below : m ≤ n)
    (above : n ≤ l) : vars.Grown m l last := by
  obtain ⟨new, rfl, names⟩ := h
  obtain ⟨new', rfl, names'⟩ := g
  refine ⟨new' ++ new, by simp, fun q member => ?_⟩
  rcases List.mem_append.mp member with later | earlier
  · obtain ⟨i, low, high, named⟩ := names' q later
    exact ⟨i, below.trans low, high, named⟩
  · obtain ⟨i, low, high, named⟩ := names q earlier
    exact ⟨i, low, high.trans_le above, named⟩

theorem lookup_append_of_ne {new : Cells} {name : String} (other : ∀ q ∈ new, q.1 ≠ name) :
    (new ++ vars).lookup name = vars.lookup name := by
  rw [List.lookup_append, List.lookup_eq_none_iff.mpr, Option.none_or]
  intro q member
  simpa using (other q member).symm

theorem Grown.kept (h : vars.Grown m n more) (room : vars.Room m n) : vars.Kept more := by
  obtain ⟨new, rfl, names⟩ := h
  intro name d found
  rw [value?, lookup_append_of_ne]
  · exact found
  · rintro q member rfl
    obtain ⟨i, low, high, named⟩ := names q member
    simp [value?, named, room i low high] at found

theorem Grown.lookup_none (h : vars.Grown m n more) {i : Nat} (outside : i < m ∨ n ≤ i)
    (unseen : vars.lookup (tempName i) = none) : more.lookup (tempName i) = none := by
  obtain ⟨new, rfl, names⟩ := h
  rw [lookup_append_of_ne, unseen]
  rintro q member same
  obtain ⟨j, low, high, named⟩ := names q member
  have := tempName_injective (named.symm.trans same)
  omega

theorem Grown.room (h : vars.Grown m n more) (room : vars.Room n l) : more.Room n l :=
  fun i low high => h.lookup_none (.inr low) (room i low high)

end Cells

/-- Lines run and leave variables of which something holds. -/
def Ran (vars : Cells) (m : Nat) (ls : List Line) (n : Nat) (Q : Cells → Prop) : Prop :=
  ∃ more, Line.runAll vars ls = some more ∧ vars.Grown m n more ∧ Q more

namespace Ran

variable {vars : Cells} {ls ms : List Line} {m n l : Nat} {Q R : Cells → Prop}

theorem nil (h : Q vars) : Ran vars m [] n Q := ⟨vars, rfl, .refl .., h⟩

theorem imp (h : Ran vars m ls n Q) (weaker : ∀ more, Q more → R more) : Ran vars m ls n R := by
  obtain ⟨more, ran, grown, holds⟩ := h
  exact ⟨more, ran, grown, weaker more holds⟩

theorem strengthen (h : Ran vars m ls n Q) (room : vars.Room m n)
    (stronger : ∀ more, vars.Kept more → Q more → R more) : Ran vars m ls n R := by
  obtain ⟨more, ran, grown, holds⟩ := h
  exact ⟨more, ran, grown, stronger more (grown.kept room) holds⟩

theorem append (h : Ran vars m ls n Q) (room : vars.Room m l) (below : m ≤ n) (above : n ≤ l)
    (then_ : ∀ more, more.Room n l → vars.Kept more → Q more → Ran more n ms l R) :
    Ran vars m (ls ++ ms) l R := by
  obtain ⟨more, ran, grown, holds⟩ := h
  obtain ⟨last, ran', grown', done⟩ := then_ more (grown.room (room.narrow below le_rfl))
    (grown.kept (room.narrow le_rfl above)) holds
  exact ⟨last, (Line.runAll_append ran ms).trans ran', grown.trans grown' below above, done⟩

/-- A variable for the value of an expression. -/
theorem declare {storage : Storage} {c : Code} {d : Datum} (room : vars.Room m (m + 1))
    (found : c.value? vars = some d)
    (h : ∀ more : Cells, more.value? (tempName m) = some d → Q more) :
    Ran vars m [.declare storage (tempName m) (some c) false] (m + 1) Q := by
  have unseen := room m le_rfl (Nat.lt_succ_self m)
  refine ⟨(tempName m, ⟨some d, false⟩) :: vars, ?_, ⟨[_], rfl, ?_⟩, h _ ?_⟩
  · simp [Line.runAll, Line.run, unseen, found]
  · simpa using ⟨m, le_rfl, le_rfl, rfl⟩
  · exact Cells.value?_cons_self _

end Ran

/-! ## Values -/

def Value.Computes (vars : Cells) (v : Value) (x : Scalar) : Prop :=
  ∃ code, v.toCode .js = .ok code ∧ code.Computes vars x

theorem Value.Computes.kept {vars more : Cells} {v : Value} {x : Scalar} (h : v.Computes vars x)
    (kept : vars.Kept more) : v.Computes more x := by
  obtain ⟨code, written, holds⟩ := h
  exact ⟨code, written, holds.kept kept⟩

/-- A value whose code may stand beside any operator. -/
def Value.Atomic (v : Value) : Prop := ∀ code, v.toCode .js = .ok code → code.isAtom = true

theorem Value.atomic_code {c : Code} {ty : Ty} (atom : c.isAtom = true) :
    (Value.code c ty).Atomic := by
  rintro _ ⟨⟩
  exact atom

theorem Value.atomic_const {c : Constant} {k : ScalarKind} :
    (Value.const c (.scalar k)).Atomic := by
  intro code written
  cases c with
  | aggregate _ => simp [Value.toCode, Value.const, Code.ofConst] at written
  | scalar z =>
    simp only [Value.toCode, Value.const, Code.ofConst, Except.ok.injEq] at written
    subst written
    rfl

/-- A constant, or a name. -/
theorem Value.atomic_plain {v : Value} {k : ScalarKind} (type : v.ty = .scalar k)
    (plain : ∀ c, v.payload = .code c → ∃ x, c = .name x) : v.Atomic := by
  obtain ⟨⟨c⟩ | ⟨c⟩, ty, _⟩ := v
  · obtain rfl : ty = .scalar k := type
    exact Value.atomic_const (c := c)
  · obtain ⟨x, rfl⟩ := plain c rfl
    rintro _ ⟨⟩
    rfl

theorem Value.computes_const {vars : Cells} {z : Scalar} {k : ScalarKind}
    (whole : z.kind ≠ .float) : (Value.const (.scalar z) (.scalar k)).Computes vars z :=
  ⟨.lit z, by simp [Value.toCode, Value.const, Code.ofConst], .lit z whole⟩

def Value.AllCompute (vars : Cells) (k : ScalarKind) (vs : List Value) (xs : List Scalar) : Prop :=
  List.Forall₂ (fun v x => v.Computes vars x ∧ x.kind = k) vs xs

theorem Value.AllCompute.kept {vars more : Cells} {k : ScalarKind} {vs : List Value}
    {xs : List Scalar} (h : Value.AllCompute vars k vs xs) (kept : vars.Kept more) :
    Value.AllCompute more k vs xs :=
  h.imp fun _ _ ⟨computes, kind⟩ => ⟨computes.kept kept, kind⟩

namespace Writes

variable {s : Emission} {k : ScalarKind}

theorem cache (v : Value) : Writes (Emit.cache .js v) s fun u ls n => u.ty = v.ty ∧
    ∀ vars x, vars.Room s.next n → v.Computes vars x →
      Ran vars s.next ls n fun more => u.Computes more x := by
  unfold Emit.cache
  split
  · exact pure ⟨rfl, fun vars x _ computes => .nil computes⟩
  refine after (.lift _) fun c found => ?_
  refine bind temp ?_
  rintro name _ _ _ ⟨rfl, rfl, rfl⟩
  refine bind (lines (R := fun _ ls n => ls = _ ∧ n = s.next + 1) ⟨rfl, rfl⟩) ?_
  rintro _ _ _ _ ⟨rfl, rfl⟩
  refine pure ⟨rfl, fun vars x room computes => ?_⟩
  obtain ⟨code, written, holds⟩ := computes
  cases found.symm.trans written
  obtain ⟨d, same, value⟩ := holds.value
  exact Ran.declare room value fun more value => ⟨_, rfl, .name same value⟩

/-- Scalars are their own components. -/
theorem components {args : List Value} (ty : ∀ v ∈ args, v.ty = .scalar k) :
    Writes (Emit.components .js args) s fun parts ls n => ∃ vs : List Value,
      parts = vs.map (fun v => [v]) ∧ vs.length = args.length ∧ (∀ v ∈ vs, v.ty = .scalar k) ∧
      ∀ vars xs, vars.Room s.next n → Value.AllCompute vars k args xs →
        Ran vars s.next ls n fun more => Value.AllCompute more k vs xs := by
  induction args generalizing s with
  | nil =>
    refine pure ⟨[], rfl, rfl, by simp, fun vars xs _ computes => ?_⟩
    exact .nil computes
  | cons v vs ih =>
    have first : v.ty = .scalar k := ty v (by simp)
    unfold Emit.components
    refine bind (cache v) ?_
    rintro u ls n more ⟨same, cached⟩
    refine after (.scalars (same.trans first)) ?_
    rintro _ rfl
    refine bind (ih fun w member => ty w (by simp [member])) ?_
    rintro _ ms m further ⟨ws, rfl, length, types, ran⟩
    refine pure ⟨u :: ws, rfl, by simp [length], ?_, fun vars xs room computes => ?_⟩
    · simpa [same.trans first] using types
    cases computes with
    | cons head tail =>
      rw [List.append_nil]
      refine (cached vars _ (room.narrow le_rfl further) head.1).append room more further
        fun after room kept done => ?_
      refine (ran after _ room (Value.AllCompute.kept tail kept)).strengthen room ?_
      exact fun last kept rest => .cons ⟨done.kept kept, head.2⟩ rest

end Writes

/-! ## Operations -/

inductive Operation where
  | map (op : ScalarOp)
  | equal (negated : Bool)
  deriving DecidableEq

def Operation.value? : Operation → List Constant → Option Constant
  | .map op, args => (op.fold args).toOption
  | .equal negated, [a, b] => some (.scalar (.bool (a.same b != negated)))
  | .equal _, _ => none

/-- A value that was lowered from operands: its lines run wherever the operands have values, and
then it has the value of the operation on these. -/
def Answers (m : Nat) (args : List Value) (k r : ScalarKind)
    (value? : List Constant → Option Constant) (v : Value) (ls : List Line) (n : Nat) : Prop :=
  v.ty = .scalar r ∧ v.Atomic ∧ ∀ vars xs c, vars.Room m n → Value.AllCompute vars k args xs →
    value? (xs.map Constant.scalar) = some c →
      ∃ z, c = .scalar z ∧ z.kind = r ∧ Ran vars m ls n fun more => v.Computes more z

namespace Emit

variable {k : ScalarKind} {args : List Value} {v : Value}

/-- The constants that operands hold are the scalars that they compute. -/
theorem consts_eq {vars : Cells} {xs : List Scalar} {cs : List Constant}
    (ty : ∀ v ∈ args, v.ty = .scalar k) (computes : Value.AllCompute vars k args xs)
    (consts : Value.consts? args = some cs) : cs = xs.map Constant.scalar := by
  have related := Value.consts?_eq_some consts
  clear consts
  induction related generalizing xs with
  | nil =>
    cases computes
    rfl
  | @cons v c _ _ payload _ ih =>
    cases computes with
    | @cons _ x _ _ head tail =>
      obtain ⟨code, written, holds⟩ := head.1
      rw [Value.toCode, payload, ty v (by simp)] at written
      rw [List.map_cons, ih (fun w member => ty w (by simp [member])) tail]
      cases c with
      | aggregate _ => simp [Code.ofConst] at written
      | scalar y =>
        simp only [Code.ofConst, Except.ok.injEq] at written
        subst written
        rw [holds.lit_eq]

theorem operands {vars : Cells} {xs : List Scalar} (computes : Value.AllCompute vars k args xs) :
    ∃ codes, args.mapM (fun v => v.toCode .js) = .ok codes ∧ ScalarOp.Operands vars k codes xs := by
  induction computes with
  | nil => exact ⟨[], rfl, .nil⟩
  | cons head _ ih =>
    obtain ⟨⟨code, written, holds⟩, kind⟩ := head
    obtain ⟨codes, rest, others⟩ := ih
    exact ⟨code :: codes, by rw [List.mapM_cons, written, rest]; rfl, .cons ⟨holds, kind⟩ others⟩

/-- An operation on scalars gives what folding gives, known or not. -/
theorem scalarOp_computes {op : ScalarOp} (ty : ∀ v ∈ args, v.ty = .scalar k)
    (nonempty : args ≠ []) (ran : scalarOp .js op args = .ok v) :
    v.ty = .scalar (op.resultKind k) ∧ v.Atomic ∧
      ∀ vars xs c, Value.AllCompute vars k args xs → op.fold (xs.map Constant.scalar) = .ok c →
        ∃ z, c = .scalar z ∧ z.kind = op.resultKind k ∧ v.Computes vars z := by
  have kind : args.head?.bind (fun v => v.ty.scalarKind?) = some k := by
    cases args with
    | nil => exact absurd rfl nonempty
    | cons v rest => simp [ty v (by simp), Ty.scalarKind?]
  unfold scalarOp at ran
  simp only [kind] at ran
  split at ran
  · rename_i cs consts
    obtain ⟨c, folded, ⟨⟩⟩ := ok_of_bind ran
    refine ⟨rfl, Value.atomic_const, fun vars xs d computes value => ?_⟩
    obtain ⟨codes, _, given⟩ := operands computes
    obtain ⟨z, rfl, kind, holds⟩ := ScalarOp.computes_of_fold given value
    obtain rfl := consts_eq ty computes consts
    cases folded.symm.trans value
    exact ⟨z, rfl, kind, Value.computes_const holds.not_float⟩
  · obtain ⟨codes, written, ⟨⟩⟩ := ok_of_bind ran
    refine ⟨rfl, Value.atomic_code (by cases op <;> cases k <;> rfl),
      fun vars xs c computes value => ?_⟩
    obtain ⟨codes', written', given⟩ := operands computes
    cases written.symm.trans written'
    obtain ⟨z, rfl, kind, holds⟩ := ScalarOp.computes_of_fold given value
    exact ⟨z, rfl, kind, _, rfl, holds⟩

/-- Two scalars of one kind are compared as constants are. -/
theorem compare_computes {a b : Value} (ha : a.ty = .scalar k) (hb : b.ty = .scalar k)
    (ran : compare .js k a b = .ok v) :
    v.ty = .bool ∧ v.Atomic ∧ ∀ vars x y, Value.AllCompute vars k [a, b] [x, y] →
      v.Computes vars (.bool (x.same y)) := by
  have types : ∀ v ∈ [a, b], v.ty = .scalar k := by simp [ha, hb]
  unfold compare at ran
  split at ran
  · rename_i c d known known'
    cases ran
    refine ⟨rfl, Value.atomic_const, fun vars x y computes => ?_⟩
    have consts : Value.consts? [a, b] = some [c, d] := by simp [Value.consts?, known, known']
    obtain ⟨rfl, rfl⟩ : c = .scalar x ∧ d = .scalar y := by
      simpa using consts_eq types computes consts
    exact Value.computes_const (by simp [Scalar.kind])
  · obtain ⟨left, written, ran⟩ := ok_of_bind ran
    obtain ⟨right, written', ⟨⟩⟩ := ok_of_bind ran
    refine ⟨rfl, Value.atomic_code rfl, fun vars x y computes => ⟨_, rfl, ?_⟩⟩
    obtain ⟨codes, found, given⟩ := operands computes
    have both : [a, b].mapM (fun v => v.toCode .js) = .ok [left, right] := by
      simp only [List.mapM_cons, List.mapM_nil, written, written']
      rfl
    cases found.symm.trans both
    obtain _ | ⟨⟨hx, kx⟩, _ | ⟨⟨hy, ky⟩, _⟩⟩ := given
    cases k with
    | float => exact absurd kx hx.not_float
    | int =>
      cases x <;> cases kx
      cases y <;> cases ky
      rename_i v w
      refine .numbers hx hy rfl ?_
      simp [Datum.ofScalar?, Scalar.same, Int32.toInt_inj, beq_eq_decide]
    | bool =>
      cases x <;> cases kx
      cases y <;> cases ky
      exact .truths hx hy rfl

end Emit

namespace Writes

variable {s : Emission} {k : ScalarKind} {args : List Value}

theorem checkDivisor {op : ScalarOp} (ty : ∀ v ∈ args, v.ty = .scalar k) :
    Observes (Emit.checkDivisor .js op k args) s fun _ => True := by
  unfold Emit.checkDivisor
  split
  · split
    · rename_i divisor found
      split
      · refine .bind (.scalars (ty divisor (List.mem_of_getElem? found))) fun _ _ => ?_
        split
        · exact .throw _
        · exact .pure trivial
      · exact .pure trivial
    · exact .pure trivial
  · exact .pure trivial

theorem shapedTy_scalars (ty : ∀ v ∈ args, v.ty = .scalar k) :
    Emit.shapedTy none args = .ok none := by
  induction args with
  | nil => rfl
  | cons v vs ih =>
    rw [Emit.shapedTy, if_pos (by simp [ty v (by simp), Ty.isScalar, Ty.scalarKind?])]
    exact ih fun w member => ty w (by simp [member])

theorem pick_scalars (vs : List Value) : Emit.pick (vs.map fun v => [v]) 0 = .ok vs := by
  unfold Emit.pick
  induction vs with
  | nil => rfl
  | cons v vs ih => rw [List.map_cons, List.mapM_cons, ih]; rfl

theorem mapTo {op : ScalarOp} {r : ScalarKind} (same : r = op.resultKind k)
    (ty : ∀ v ∈ args, v.ty = .scalar k) (nonempty : args ≠ []) (inTy : Ty) :
    Writes (Emit.mapTo .js op k 1 inTy (.scalar r) args) s
      (Answers s.next args k r (Operation.map op).value?) := by
  unfold Emit.mapTo
  refine after (checkDivisor ty) fun _ _ => ?_
  rw [if_neg (by simp)]
  refine bind (components ty) ?_
  rintro _ ls n more ⟨vs, rfl, length, types, ran⟩
  have some_value : vs ≠ [] := by
    rintro rfl
    exact nonempty (List.length_eq_zero_iff.mp length.symm)
  refine after (P := fun rs => ∃ v, rs = [v] ∧ Emit.scalarOp .js op vs = .ok v) ?_ ?_
  · rw [List.range_one, List.mapM_cons, List.mapM_nil]
    have one : Observes (do liftM (Emit.scalarOp .js op (← Emit.pick (vs.map fun v => [v]) 0)))
        (s.wrote ls n) fun v => Emit.scalarOp .js op vs = .ok v := by
      refine .bind (.lift _) fun picked found => ?_
      cases (pick_scalars vs).symm.trans found
      exact .lift _
    exact one.bind fun v applied => .bind (.pure rfl) fun _ empty =>
      .pure ⟨v, congrArg (List.cons v) empty.symm, applied⟩
  · rintro _ ⟨v, rfl, applied⟩
    obtain ⟨type, atomic, value⟩ := Emit.scalarOp_computes types some_value applied
    have built : Value.fromScalars .js (.scalar r) [v] = .ok v := by
      simp [Value.fromScalars, Value.ofScalars, Except.map]
    refine of_observes (.lift _) fun w made => ?_
    cases built.symm.trans made
    refine ⟨by rw [type, same], atomic, fun vars xs c room computes folds => ?_⟩
    rw [List.append_nil]
    obtain ⟨more, ran, grown, each⟩ := ran vars xs room computes
    obtain ⟨z, rfl, kind, holds⟩ := value more xs c each (Gives.of_toOption folds)
    exact ⟨z, rfl, kind.trans same.symm, more, ran, grown, holds⟩

theorem mapOp {op : ScalarOp} (ty : ∀ v ∈ args, v.ty = .scalar k) (nonempty : args ≠ []) :
    Writes (Emit.mapOp .js op args) s
      (Answers s.next args k (op.resultKind k) (Operation.map op).value?) := by
  have shape : Emit.commonShape none args = some (k, 1) := by
    cases args with
    | nil => exact absurd rfl nonempty
    | cons v vs => simp [Emit.commonShape, ty v (by simp), Ty.shape?_scalar]
  unfold Emit.mapOp
  refine after (.lift _) fun shaped found => ?_
  cases (shapedTy_scalars ty).symm.trans found
  rw [shape]
  dsimp only
  split
  · rename_i kept
    refine after (.pure rfl) ?_
    rintro _ rfl
    rw [kept]
    exact mapTo kept.symm ty nonempty _
  · refine after (.vectorTy _) ?_
    rintro _ rfl
    exact mapTo rfl ty nonempty _

/-- Of two scalars there is one pair to compare. -/
theorem reduceTerms_pair {r : Reduction} {a b : Value} {v : Option Value}
    (compares : Emit.reduceTerm .js r k [a, b] = Emit.compare .js k a b)
    (ran : Emit.reduceTerms .js r k ([a, b].map fun v => [v]) none (List.range 1) = .ok v) :
    ∃ w, v = some w ∧ Emit.compare .js k a b = .ok w := by
  rw [List.range_one, Emit.reduceTerms] at ran
  obtain ⟨picked, found, ran⟩ := ok_of_bind ran
  cases (pick_scalars [a, b]).symm.trans found
  obtain ⟨w, compared, ran⟩ := ok_of_bind ran
  cases ran
  exact ⟨w, rfl, compares.symm.trans compared⟩

theorem reduce {a b : Value} (ha : a.ty = .scalar k) (hb : b.ty = .scalar k) (negated : Bool) :
    Writes (Emit.reduce .js (if negated then .ne else .eq) [a, b]) s
      (Answers s.next [a, b] k .bool (Operation.equal negated).value?) := by
  have types : ∀ v ∈ [a, b], v.ty = .scalar k := by simp [ha, hb]
  unfold Emit.reduce
  refine after (.lift _) fun _ _ => ?_
  simp only [List.head?_cons, Option.bind_some, ha, Ty.shape?_scalar]
  rw [if_neg (by simp)]
  refine after (.pure rfl) ?_
  rintro _ rfl
  dsimp only
  unfold Emit.reduceScalars
  refine bind (components types) ?_
  rintro _ ls n more ⟨vs, rfl, length, types', ran⟩
  obtain ⟨a', b', rfl⟩ := List.length_eq_two.mp length
  refine after (.lift _) fun found terms => ?_
  obtain ⟨w, rfl, compared⟩ := reduceTerms_pair (by cases negated <;> rfl) terms
  dsimp only
  obtain ⟨type, atomic, equal⟩ :=
    Emit.compare_computes (types' a' (by simp)) (types' b' (by simp)) compared
  refine of_observes (.lift _) fun v ended => ?_
  have last : v.ty = .bool ∧ v.Atomic ∧ ∀ (vars : Cells) p, w.Computes vars (.bool p) →
      v.Computes vars (.bool (p != negated)) := by
    cases negated with
    | false =>
      cases ended
      exact ⟨type, atomic, fun vars p computes => by simpa using computes⟩
    | true =>
      obtain ⟨type', atomic', value⟩ := Emit.scalarOp_computes (k := .bool)
        (by simp [type, Ty.bool]) (by simp) ended
      refine ⟨type', atomic', fun vars p computes => ?_⟩
      obtain ⟨z, same, _, holds⟩ := value vars [.bool p] _ (.cons ⟨computes, rfl⟩ .nil) rfl
      cases same
      simpa using holds
  refine ⟨last.1, last.2.1, fun vars xs c room computes folds => ?_⟩
  obtain _ | ⟨hx, _ | ⟨hy, ⟨⟩⟩⟩ := computes
  rename_i x y
  cases folds
  refine ⟨_, rfl, rfl, ?_⟩
  rw [List.append_nil]
  refine (ran vars [x, y] room (.cons hx (.cons hy .nil))).imp fun after each => ?_
  exact last.2.2 after _ (equal after x y each)

end Writes
end Ember

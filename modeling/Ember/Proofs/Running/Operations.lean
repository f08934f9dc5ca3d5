import Ember.Lower.Expr
import Ember.Proofs.Literal.Rules
import Ember.Proofs.Overloads
import Ember.Proofs.Running.Writing

/-!
# Conditions, and calls that mean operations on scalars

Two sides of a condition are joined by a choice, or by a variable that a branch sets. A call by the
name of an operator or of a function of the prelude is the operation of that name, as long as the
program leaves the name to the prelude.
-/

set_option autoImplicit false

namespace Ember

/-- Lines that run wherever the given variables have their values, after which a value is known. -/
def Delivers (given : Cells) (m : Nat) (v : Value) (ls : List Line) (n : Nat) (x : Scalar) : Prop :=
  ∀ vars, given.Kept vars → vars.Room m n → Ran vars m ls n fun more => v.Computes more x

/-- Lines that follow others. -/
theorem Delivers.after {given : Cells} {l m n : Nat} {u v : Value} {ls ms : List Line}
    {x y : Scalar} (h : Delivers given l u ls m x) (g : Delivers given m v ms n y) (below : l ≤ m)
    (above : m ≤ n) : Delivers given l v (ls ++ ms) n y := fun vars kept room =>
  (h vars kept (room.narrow le_rfl above)).append room below above fun more room kept' _ =>
    g more (kept.trans kept') room

theorem Value.convert_scalar {v : Value} {k : ScalarKind} {target : Target}
    (ty : v.ty = .scalar k) : v.convert target (.scalar k) = .ok v := by
  have same : (v.ty == .scalar k) = true := by
    rw [ty]
    exact (Ty.beq_iff _ _).mpr rfl
  unfold Value.convert
  rw [if_pos same]

/-! ## Conditions -/

/-- A variable that a branch sets. What else the branch declares ends with it. -/
theorem Line.run_branch {vars new : Cells} {name : String} {storage : Storage} {cond : Code}
    {yes no : List Line} {test : Bool} {cell : Cell} (unseen : vars.lookup name = none)
    (tested : cond.value? ((name, ⟨none, true⟩) :: vars) = some (.truth test))
    (ran : runAll ((name, ⟨none, true⟩) :: vars) (if test then yes else no) =
      some (new ++ (name, cell) :: vars)) :
    runAll vars [.declare storage name none true, .branch cond yes no] =
      some ((name, cell) :: vars) := by
  have declared : run vars (.declare storage name none true) =
      some ((name, ⟨none, true⟩) :: vars) := by
    rw [run, unseen]
    rfl
  have branched : run ((name, ⟨none, true⟩) :: vars) (.branch cond yes no) =
      some ((name, cell) :: vars) := by
    have inner : (new ++ (name, cell) :: vars).length - ((name, cell) :: vars).length =
        new.length := by simp
    rw [run, tested]
    cases test <;> simp_all [Datum.truth?]
  simp [runAll, declared, branched]

namespace Ran

variable {vars : Cells} {m n p q : Nat} {ls : List Line} {v : Value} {x : Scalar}

/-- A side of a branch leaves its value in a variable. -/
theorem side {given : Cells} {cell : Cell} {code : Code} (free : cell.mutable = true)
    (delivers : Delivers given p v ls q x) (written : v.toCode .js = .ok code)
    (kept : given.Kept ((tempName m, cell) :: vars))
    (room : Cells.Room ((tempName m, cell) :: vars) p q)
    (outside : m < p ∨ q ≤ m) : ∃ new d, Datum.ofScalar? x = some d ∧
      Line.runAll ((tempName m, cell) :: vars) (ls ++ [.assign (.name (tempName m)) code]) =
        some (new ++ (tempName m, ⟨some d, true⟩) :: vars) := by
  obtain ⟨_, ran, ⟨new, rfl, names⟩, code', written', holds⟩ := delivers _ kept room
  cases written.symm.trans written'
  obtain ⟨d, same, value⟩ := holds.value
  refine ⟨new, d, same, (Line.runAll_append ran _).trans ?_⟩
  have unseen : new.lookup (tempName m) = none := by
    refine List.lookup_eq_none_iff.mpr fun q member => ?_
    obtain ⟨i, low, high, named⟩ := names q member
    have differ : tempName m ≠ tempName i := fun same => by
      have := tempName_injective same
      omega
    simpa [named] using differ
  simp [Line.runAll, Line.run, value, Cells.assign_append unseen, Cells.assign_cons cell free]

end Ran

namespace Writes

variable {s : Emission} {k : ScalarKind}

/-- Two sides of one kind under a condition. -/
theorem joinSides (given : Cells) {cond a b : Value} {ls ms : List Line}
    (ha : a.ty = .scalar k) (hb : b.ty = .scalar k) (atomic : a.Atomic) (atomic' : b.Atomic)
    (what : String) : Writes (Lowering.joinSides .js cond (a, ls) (b, ms) what) s fun v es n =>
      v.ty = .scalar k ∧ v.Atomic ∧ ∀ vars t x m p q, given.Kept vars → vars.Room m n →
        cond.Computes vars (.bool t) → m ≤ p → q ≤ s.next → m ≤ s.next →
        Delivers given p (if t then a else b) (if t then ls else ms) q x →
        Ran vars m es n fun more => v.Computes more x := by
  have same : ((Ty.scalar k) == (Ty.scalar k)) = true := (Ty.beq_iff _ _).mpr rfl
  unfold Lowering.joinSides
  refine after (.lift _) fun ty joined => ?_
  obtain rfl : ty = .scalar k := by
    rw [ha, hb, Lowering.joinTy_same what same] at joined
    exact (Except.ok.inj joined).symm
  refine after (.lift _) fun a' converted => ?_
  obtain rfl : a' = a :=
      Except.ok.inj (converted.symm.trans (Value.convert_scalar ha))
  refine after (.lift _) fun b' converted' => ?_
  obtain rfl : b' = b :=
      Except.ok.inj (converted'.symm.trans (Value.convert_scalar hb))
  refine after (.lift _) fun c written => ?_
  rw [if_neg (by simp [Ty.isVoid])]
  split
  · rename_i empty
    obtain ⟨rfl, rfl⟩ : ls = [] ∧ ms = [] := by simpa [Ty.array?] using empty
    refine after (.lift _) fun x left => after (.lift _) fun y right => ?_
    refine pure ⟨rfl, Value.atomic_code rfl,
      fun vars t z m p q kept room decides low high below delivers => ?_⟩
    obtain ⟨_, written', tested⟩ := decides
    cases written.symm.trans written'
    have chosen : ∃ d, Datum.ofScalar? z = some d ∧ (if t then x else y).value? vars = some d := by
      cases t with
      | true =>
        obtain ⟨_, ⟨⟩, _, _, found, holds⟩ := delivers vars kept (room.narrow low high)
        cases left.symm.trans found
        exact holds.value
      | false =>
        obtain ⟨_, ⟨⟩, _, _, found, holds⟩ := delivers vars kept (room.narrow low high)
        cases right.symm.trans found
        exact holds.value
    obtain ⟨d, same, value⟩ := chosen
    refine .nil ⟨_, rfl, rfl, d, same, ?_⟩
    simpa [Code.value?, tested.atom, atomic x left, atomic' y right, tested.truth, Datum.truth?,
      apply_ite (Code.value? vars)] using value
  · refine bind temp ?_
    rintro name _ _ _ ⟨rfl, rfl, rfl⟩
    refine bind (lines (R := fun _ es n => es = _ ∧ n = s.next + 1) ⟨rfl, rfl⟩) ?_
    rintro _ _ _ _ ⟨rfl, rfl⟩
    refine after (.lift _) fun x left => after (.lift _) fun y right => ?_
    refine bind (lines (R := fun _ es n => es = _ ∧ n = s.next + 1) ⟨rfl, rfl⟩) ?_
    rintro _ _ _ _ ⟨rfl, rfl⟩
    refine pure ⟨rfl, Value.atomic_code rfl,
      fun vars t z m p q kept room decides low high below delivers => ?_⟩
    have unseen : vars.lookup (tempName s.next) = none := room _ below (Nat.lt_succ_self _)
    have kept' : vars.Kept ((tempName s.next, ⟨none, true⟩) :: vars) := .cons _ unseen
    have room' : Cells.Room ((tempName s.next, ⟨none, true⟩) :: vars) p q := by
      intro i above under
      have differ : tempName i ≠ tempName s.next := fun same => by
        have := tempName_injective same
        omega
      rw [List.lookup_cons, beq_false_of_ne differ]
      exact room i (low.trans above) ((under.trans_le high).trans (Nat.lt_succ_self _))
    obtain ⟨_, written', tested⟩ := decides
    cases written.symm.trans written'
    have tested := (tested.kept kept').truth
    have chosen : ∃ new d, Datum.ofScalar? z = some d ∧
        Line.runAll ((tempName s.next, ⟨none, true⟩) :: vars)
          (if t then ls ++ [.assign (.name (tempName s.next)) x]
            else ms ++ [.assign (.name (tempName s.next)) y]) =
          some (new ++ (tempName s.next, ⟨some d, true⟩) :: vars) := by
      cases t with
      | true => exact Ran.side rfl delivers left (kept.trans kept') room' (.inr high)
      | false => exact Ran.side rfl delivers right (kept.trans kept') room' (.inr high)
    obtain ⟨new, d, same, ran⟩ := chosen
    refine ⟨(tempName s.next, ⟨some d, true⟩) :: vars, ?_, ⟨[_], rfl, ?_⟩, ?_⟩
    · exact Line.run_branch unseen tested ran
    · simpa using ⟨s.next, below, le_rfl, rfl⟩
    · exact ⟨_, rfl, .name same (Cells.value?_cons_self _)⟩

end Writes

/-! ## Operations by name -/

namespace Operation

def arity : Operation → Nat
  | .map op => op.arity
  | .equal _ => 2

def resultKind : Operation → ScalarKind → ScalarKind
  | .map op, k => op.resultKind k
  | .equal _, _ => .bool

def behaviour : Operation → Behaviour
  | .map op => .map op
  | .equal negated => .reduce (if negated then .ne else .eq)

/-- The operations on whole numbers and truth values, by the names of the functions and the numbers
of operands. -/
def table : List ((String × Nat) × Operation) :=
  [(("_add", 2), .map .add), (("_sub", 2), .map .sub), (("_mul", 2), .map .mul),
   (("_div", 2), .map .div), (("_rem", 2), .map .rem), (("_sub", 1), .map .neg),
   (("_bitand", 2), .map .bitAnd), (("_bitor", 2), .map .bitOr),
   (("_lt", 2), .map .lt), (("_gt", 2), .map .gt), (("_le", 2), .map .le), (("_ge", 2), .map .ge),
   (("_eq", 2), .equal false), (("_ne", 2), .equal true),
   (("_and", 2), .map .and), (("_or", 2), .map .or), (("_not", 1), .map .not),
   (("min", 2), .map .min), (("max", 2), .map .max), (("clamp", 3), .map .clamp),
   (("abs", 1), .map .abs)]

def named? (name : String) (count : Nat) : Option Operation := table.lookup (name, count)

def takes : Operation → ScalarKind → Bool
  | _, .float => false
  | .map op, .int => op ∉ [ScalarOp.and, .or, .not]
  | .map op, .bool => op ∈ [ScalarOp.and, .or, .not]
  | .equal _, _ => true

def isFunction (o : Operation) (k : ScalarKind) (f : Function) : Bool :=
  (match o, f.behaviour with
    | .map op, .map op' => op == op'
    | .equal negated, .reduce r => r == if negated then .ne else .eq
    | _, _ => false) &&
  f.params.all fun q =>
    match q.ty with
    | .vector kind => kind == k
    | .exact (.scalar kind) => kind == k
    | _ => false

/-- Whether the best of some functions, given scalars of a kind, are this operation. -/
def settles (o : Operation) (k : ScalarKind) (fs : List Function) : Bool :=
  let args := List.replicate o.arity (Ty.scalar k)
  fs.all fun f => (f.score args).all fun n =>
    fs.any (fun g => (g.score args).any (n < ·)) || o.isFunction k f

theorem named_arity {name : String} {count : Nat} {o : Operation}
    (named : named? name count = some o) : count = o.arity := by
  have consistent : table.all (fun entry => entry.1.2 == entry.2.arity) = true := by decide
  simpa using List.all_eq_true.mp consistent _ (mem_of_lookup named)

end Operation

def Scope.named (s : Scope) (name : String) : List Function :=
  (s.functions.filter (·.1 == name)).map (·.2)

theorem Program.OnPrelude.settles {p : Program} (base : p.OnPrelude) {name : String} {count : Nat}
    {o : Operation} {k : ScalarKind} (named : Operation.named? name count = some o)
    (takes : o.takes k = true) : o.settles k (p.env.root.named name) = true := by
  obtain ⟨q, start, root, _⟩ := base.start
  have settled : Program.start.toOption.all (fun q => Operation.table.all fun entry =>
      ScalarKind.all.all fun k => !entry.2.takes k ||
        entry.2.settles k (q.env.root.named entry.1.1)) = true := by
    decide +kernel
  rw [start] at settled
  have each := List.all_eq_true.mp (List.all_eq_true.mp settled _ (mem_of_lookup named)) k
    (by cases k <;> simp [ScalarKind.all])
  rw [root]
  simpa [takes] using each

/-- No candidate that is called has a lower score than another. -/
theorem resolve_best {display : String} {cs : List Candidate} {tys : List Ty} {f : Function}
    (found : resolve display cs tys = .ok f) : ∃ n, f.score tys = some n ∧
      ∀ d ∈ cs, ∀ m, d.function.score tys = some m → m ≤ n := by
  obtain ⟨_, _, _, _, rfl, ⟨n, score, highest, _⟩, _⟩ := Answer.resolve_eq_ok_iff.mp found
  exact ⟨n, score, highest⟩

/-- A function of the prelude that a call means is the operation of that name. -/
theorem Program.OnPrelude.isFunction {p : Program} (base : p.OnPrelude) {name display : String}
    {count : Nat} {o : Operation} {k : ScalarKind} {f : Function}
    (named : Operation.named? name count = some o) (takes : o.takes k = true)
    (means : p.Means name count)
    (found : resolve display (p.env.candidates name) (List.replicate count (.scalar k)) = .ok f) :
    o.isFunction k f = true := by
  have member := means _ (by simp) (fun t member => by
    rw [List.eq_of_mem_replicate member]
    trivial) f (resolve_ok found)
  obtain ⟨n, score, most⟩ := resolve_best found
  have settled := base.settles named takes
  rw [Operation.named_arity named] at score most
  have listed : f ∈ p.env.root.named name :=
    List.mem_map.mpr ⟨(name, f), List.mem_filter.mpr ⟨member, by simp⟩, rfl⟩
  have best := List.all_eq_true.mp settled f listed
  rw [score, Option.all_some, Bool.or_eq_true] at best
  rcases best with beaten | is
  · obtain ⟨g, other, higher⟩ := List.any_eq_true.mp beaten
    obtain ⟨m, score', more⟩ :
        ∃ m, g.score (List.replicate o.arity (.scalar k)) = some m ∧ n < m := by
      simpa [Option.any_eq_true] using higher
    obtain ⟨⟨_, _⟩, kept, rfl⟩ := List.mem_map.mp other
    have rival : ⟨1, _⟩ ∈ p.env.candidates name :=
      List.mem_append_right _ (List.mem_map.mpr ⟨_, kept, rfl⟩)
    have := most _ rival m score'
    omega
  · exact is

theorem Operation.behaviour_of_isFunction {o : Operation} {k : ScalarKind} {f : Function}
    (is : o.isFunction k f = true) : f.behaviour = o.behaviour := by
  have does := (Bool.and_eq_true_iff.mp is).1
  split at does
  · rename_i op op' same
    rw [same, Operation.behaviour, eq_of_beq does]
  · rename_i negated r same
    rw [same, Operation.behaviour, eq_of_beq does]
  · cases does

/-- Operands that are scalars of the kind a function takes are passed on as they are. -/
theorem Lowering.arguments_scalars {cx : Lowering} {o : Operation} {k : ScalarKind}
    {vs : List Value} {f : Function} (is : o.isFunction k f = true)
    (ty : ∀ v ∈ vs, v.ty = .scalar k)
    (count : f.params.length = vs.length) : cx.arguments vs f.params = .ok vs := by
  have takes := List.all_eq_true.mp (Bool.and_eq_true_iff.mp is).2
  revert takes count
  generalize f.params = ps
  intro count takes
  induction vs generalizing ps with
  | nil =>
    cases ps <;> rfl
  | cons v vs ih =>
    cases ps with
    | nil => cases count
    | cons q qs =>
      have given : cx.argument v q.ty = .ok v := by
        have admits := takes q (by simp)
        split at admits
        · rename_i kind vector
          cases eq_of_beq admits
          rw [vector, Lowering.argument, if_pos (by simp [ty v (by simp), Ty.shape?_scalar])]
        · rename_i kind exact_
          cases eq_of_beq admits
          rw [exact_, Lowering.argument]
          exact Value.convert_scalar (ty v (by simp))
        · cases admits
      have rest := ih (fun w member => ty w (by simp [member])) qs (by simpa using count)
        fun r member => takes r (by simp [member])
      rw [Lowering.arguments, given, rest]
      rfl

namespace Writes

variable {s : Emission} {k : ScalarKind} {vs : List Value} {o : Operation} {cx : Lowering}

/-- What an operation does with scalars of a kind that it takes. -/
theorem operation (js : cx.target = .js) (ty : ∀ v ∈ vs, v.ty = .scalar k)
    (count : vs.length = o.arity) (span : Span) :
    Writes (o.behaviour.run cx vs [] span) s
      (Answers s.next vs k (o.resultKind k) o.value?) := by
  cases o with
  | map op =>
    have nonempty : vs ≠ [] := by
      rintro rfl
      exact absurd count op.arity_pos.ne
    show Writes (Emit.mapOp cx.target op vs) s _
    rw [js]
    exact mapOp ty nonempty
  | equal negated =>
    obtain ⟨a, b, rfl⟩ := List.length_eq_two.mp count
    show Writes (Emit.reduce cx.target _ [a, b]) s _
    rw [js]
    exact reduce (ty a (by simp)) (ty b (by simp)) negated

/-- A call that means an operation of the prelude. -/
theorem dispatch {p : Program} {name display : String} (base : p.OnPrelude) (js : cx.target = .js)
    (named : Operation.named? name vs.length = some o) (takes : o.takes k = true)
    (means : p.Means name vs.length) (ty : ∀ v ∈ vs, v.ty = .scalar k) (span : Span) :
    Writes (cx.dispatch display (p.env.candidates name) vs [] span) s
      (Answers s.next vs k (o.resultKind k) o.value?) := by
  have types : vs.map Value.ty = List.replicate vs.length (.scalar k) :=
    List.eq_replicate_iff.mpr ⟨by simp, by simpa using ty⟩
  unfold Lowering.dispatch
  refine after (.lift _) fun f found => ?_
  have length : f.params.length = vs.length := by
    obtain ⟨n, score, _⟩ := resolve_best found
    simpa using Function.length_of_scores score
  rw [types] at found
  have is := base.isFunction named takes means found
  refine after (.lift _) fun _ _ => after (.lift _) fun ws given => ?_
  cases (Lowering.arguments_scalars is ty length).symm.trans given
  rw [Operation.behaviour_of_isFunction is]
  exact operation js ty (Operation.named_arity named) span

end Writes

end Ember

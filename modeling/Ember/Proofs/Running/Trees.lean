import Ember.Proofs.Literal.Items
import Ember.Proofs.Running.Operations

/-!
# Trees of whole numbers and truth values

A tree is lowered to lines and an expression. With values for its variables these compute what
folding gives once the values stand in their places.
-/

set_option autoImplicit false

namespace Ember

/-! ## Trees -/

inductive Leaf where
  | name (x : String)
  | param (x : String)

def Leaf.expr : Leaf → ExprKind
  | .name x => .ident x
  | .param x => .param x

/-- What stands for a leaf: a local value, a constant, or a value from outside. -/
def Emission.leaf? (s : Emission) : Leaf → Option Value
  | .name x => s.frame.local? x <|> s.program.env.const? x
  | .param x => (s.program.env.param? x).map fun ty => .code (.name ("$" ++ x)) ty

inductive Expr.Applies : Expr → String → List Expr → Prop
  | binary {op : BinaryOp} {a b : Expr} {span : Span} :
      Applies ⟨.binary op a b, span⟩ op.overloads [a, b]
  | unary {op : UnaryOp} {a : Expr} {span : Span} : Applies ⟨.unary op a, span⟩ op.overloads [a]
  | call {name : String} {args : List Expr} {span span' : Span} :
      Applies ⟨.call ⟨.ident name, span'⟩ [] args, span⟩ name args
  | methodCall {receiver : Expr} {method : Ident} {args : List Expr} {span : Span} :
      Applies ⟨.methodCall receiver method args, span⟩ method.name (receiver :: args)

def Lit.whole? : Lit → Option Scalar
  | .int v => some (.int v)
  | .bool b => some (.bool b)
  | .float _ => none

/-- A tree of whole numbers and truth values: literals, leaves that are constants or variables,
operations on operands of one kind, and conditions with sides of one kind. -/
inductive Expr.Whole (means : String → Nat → Prop) (leaf : Leaf → Option Value) :
    ScalarKind → Expr → Prop
  | lit {l : Lit} {x : Scalar} {span : Span} : l.whole? = some x →
      Whole means leaf x.kind ⟨.lit l, span⟩
  | leaf {l : Leaf} {v : Value} {k : ScalarKind} {span : Span} : leaf l = some v →
      v.ty = .scalar k → k ≠ .float → (∀ c, v.payload = .code c → ∃ x, c = .name x) →
      Whole means leaf k ⟨l.expr, span⟩
  | apply {e : Expr} {name : String} {args : List Expr} {o : Operation} {k : ScalarKind} :
      e.Applies name args → Operation.named? name args.length = some o → o.takes k = true →
      means name args.length → (∀ a ∈ args, Whole means leaf k a) →
      Whole means leaf (o.resultKind k) e
  | block {e : Expr} {k : ScalarKind} {span span' : Span} : Whole means leaf k e →
      Whole means leaf k ⟨.block ⟨[], some e, span⟩, span'⟩
  | ifElse {cond a b : Expr} {k : ScalarKind} {span span' : Span} : Whole means leaf .bool cond →
      Whole means leaf k a → Whole means leaf k b →
      Whole means leaf k ⟨.ifElse cond ⟨[], some a, span⟩ (some b), span'⟩

/-- What folding gives once values stand in the place of the leaves. Of a condition only the side
that it selects is folded. -/
inductive Expr.FoldsTo (leaf : Leaf → Option Scalar) : Expr → Constant → Prop
  | lit {l : Lit} {x : Scalar} {span : Span} : l.whole? = some x →
      FoldsTo leaf ⟨.lit l, span⟩ (.scalar x)
  | leaf {l : Leaf} {x : Scalar} {span : Span} : leaf l = some x →
      FoldsTo leaf ⟨l.expr, span⟩ (.scalar x)
  | apply {e : Expr} {name : String} {args : List Expr} {o : Operation} {cs : List Constant}
      {c : Constant} : e.Applies name args → Operation.named? name args.length = some o →
      List.Forall₂ (FoldsTo leaf) args cs → o.value? cs = some c → FoldsTo leaf e c
  | block {e : Expr} {c : Constant} {span span' : Span} : FoldsTo leaf e c →
      FoldsTo leaf ⟨.block ⟨[], some e, span⟩, span'⟩ c
  | yes {cond a b : Expr} {c : Constant} {span span' : Span} :
      FoldsTo leaf cond (.scalar (.bool true)) → FoldsTo leaf a c →
      FoldsTo leaf ⟨.ifElse cond ⟨[], some a, span⟩ (some b), span'⟩ c
  | no {cond a b : Expr} {c : Constant} {span span' : Span} :
      FoldsTo leaf cond (.scalar (.bool false)) → FoldsTo leaf b c →
      FoldsTo leaf ⟨.ifElse cond ⟨[], some a, span⟩ (some b), span'⟩ c

namespace Expr

variable {leaf : Leaf → Option Scalar} {e : Expr} {c : Constant}

theorem Applies.unique {name name' : String} {args args' : List Expr} (h : e.Applies name args)
    (g : e.Applies name' args') : name = name' ∧ args = args' := by
  cases h <;> cases g <;> exact ⟨rfl, rfl⟩

theorem FoldsTo.of_applies {name : String} {args : List Expr} (h : e.FoldsTo leaf c)
    (applies : e.Applies name args) : ∃ o cs, Operation.named? name args.length = some o ∧
      List.Forall₂ (FoldsTo leaf) args cs ∧ o.value? cs = some c := by
  cases h with
  | apply applies' named each value =>
    obtain ⟨rfl, rfl⟩ := applies.unique applies'
    exact ⟨_, _, named, each, value⟩
  | @leaf l => cases l <;> cases applies
  | lit => cases applies
  | block => cases applies
  | yes => cases applies
  | no => cases applies

theorem FoldsTo.of_leaf {l : Leaf} {span : Span} (h : FoldsTo leaf ⟨l.expr, span⟩ c) :
    ∃ x, leaf l = some x ∧ c = .scalar x := by
  generalize same : (⟨l.expr, span⟩ : Expr) = e at h
  cases h with
  | @leaf l' x _ found =>
    obtain rfl : l = l' := by
      cases l <;> cases l' <;> cases same <;> rfl
    exact ⟨x, found, rfl⟩
  | apply applies => cases applies <;> cases l <;> cases same
  | lit => cases l <;> cases same
  | block => cases l <;> cases same
  | yes => cases l <;> cases same
  | no => cases l <;> cases same

theorem FoldsTo.of_lit {l : Lit} {span : Span} (h : FoldsTo leaf ⟨.lit l, span⟩ c) :
    ∃ x, l.whole? = some x ∧ c = .scalar x := by
  generalize same : (⟨.lit l, span⟩ : Expr) = e at h
  cases h with
  | lit found =>
    cases same
    exact ⟨_, found, rfl⟩
  | @leaf l => cases l <;> cases same
  | apply applies => cases applies <;> cases same
  | block => cases same
  | yes => cases same
  | no => cases same

theorem FoldsTo.of_block {a : Expr} {span span' : Span}
    (h : FoldsTo leaf ⟨.block ⟨[], some a, span⟩, span'⟩ c) : a.FoldsTo leaf c := by
  generalize same : (⟨.block ⟨[], some a, span⟩, span'⟩ : Expr) = e at h
  cases h with
  | block inner =>
    cases same
    exact inner
  | @leaf l => cases l <;> cases same
  | apply applies => cases applies <;> cases same
  | lit => cases same
  | yes => cases same
  | no => cases same

theorem FoldsTo.of_ifElse {cond a b : Expr} {span span' : Span}
    (h : FoldsTo leaf ⟨.ifElse cond ⟨[], some a, span⟩ (some b), span'⟩ c) :
    ∃ t, cond.FoldsTo leaf (.scalar (.bool t)) ∧ (if t then a else b).FoldsTo leaf c := by
  generalize same : (⟨.ifElse cond ⟨[], some a, span⟩ (some b), span'⟩ : Expr) = e at h
  cases h with
  | yes test side =>
    cases same
    exact ⟨true, test, side⟩
  | no test side =>
    cases same
    exact ⟨false, test, side⟩
  | @leaf l => cases l <;> cases same
  | apply applies => cases applies <;> cases same
  | lit => cases same
  | block => cases same

end Expr

/-! ## Lowering -/

/-- A state in which names mean what they mean in a program, and leaves stand for these values. None
of the given variables has the name of an intermediate value to come. -/
structure Emission.Sees (p : Program) (leaf : Leaf → Option Value) (given : Cells) (s : Emission) :
    Prop where
  env : s.program.env = p.env
  leaf : ∀ l, s.leaf? l = leaf l
  room : ∀ n, given.Room s.next n

namespace Emission.Sees

variable {p : Program} {leaf : Leaf → Option Value} {given : Cells} {s : Emission}

theorem wrote (h : s.Sees p leaf given) {n : Nat} (more : s.next ≤ n) (ls : List Line) :
    (s.wrote ls n).Sees p leaf given :=
  ⟨h.env, fun l => by rw [← h.leaf l]; cases l <;> rfl, fun m => (h.room m).narrow more le_rfl⟩

theorem entered (h : s.Sees p leaf given) : s.entered.Sees p leaf given :=
  ⟨h.env, fun l => by rw [← h.leaf l]; cases l <;> rfl, h.room⟩

end Emission.Sees

def Emits (given : Cells) (value : Leaf → Option Scalar) (e : Expr) (k : ScalarKind) (m : Nat)
    (v : Value) (ls : List Line) (n : Nat) : Prop :=
  v.ty = .scalar k ∧ v.Atomic ∧ ∀ c, e.FoldsTo value c →
    ∃ x, c = .scalar x ∧ x.kind = k ∧ Delivers given m v ls n x

namespace Writes

variable {p : Program} {leaf : Leaf → Option Value} {given : Cells} {value : Leaf → Option Scalar}
  {s : Emission} {k : ScalarKind} {cx : Lowering}

/-- The operands of a tree, one after the other. -/
theorem exprs {args : List Expr} (sees : s.Sees p leaf given) (each : ∀ a ∈ args, ∀ s : Emission,
      s.Sees p leaf given → Writes (cx.expr a) s (Emits given value a k s.next)) :
    Writes (cx.exprs args) s fun vs ls n => vs.length = args.length ∧
      (∀ v ∈ vs, v.ty = .scalar k) ∧ ∀ cs, List.Forall₂ (Expr.FoldsTo value) args cs →
        ∃ xs : List Scalar, cs = xs.map Constant.scalar ∧ ∀ vars, given.Kept vars →
          vars.Room s.next n → Ran vars s.next ls n fun more => Value.AllCompute more k vs xs := by
  induction args generalizing s with
  | nil =>
    refine pure ⟨rfl, by simp, fun cs folds => ?_⟩
    cases folds
    exact ⟨[], rfl, fun vars _ _ => .nil .nil⟩
  | cons a as ih =>
    unfold Lowering.exprs
    refine bind (each a (by simp) s sees) ?_
    rintro v ls n more ⟨type, _, first⟩
    refine bind (ih (sees.wrote more ls) fun b member => each b (by simp [member])) ?_
    rintro vs ms m further ⟨length, types, rest⟩
    refine pure ⟨by simp [length], by simpa [type] using types, fun cs folds => ?_⟩
    cases folds with
    | cons head tail =>
      obtain ⟨x, rfl, kind, delivers⟩ := first _ head
      obtain ⟨xs, rfl, delivers'⟩ := rest _ tail
      refine ⟨x :: xs, rfl, fun vars kept room => ?_⟩
      rw [List.append_nil]
      refine (delivers vars kept (room.narrow le_rfl further)).append room more further
        fun after room kept' done => ?_
      exact (delivers' after (kept.trans kept') room).strengthen room fun last kept'' others =>
        .cons ⟨done.kept kept'', kind⟩ others

/-- An application is lowered to its operands and a call. -/
theorem applies {e : Expr} {name : String} {args : List Expr}
    {P : List Value → List Line → Nat → Prop} {R : Value → List Line → Nat → Prop}
    (form : e.Applies name args) (sees : s.Sees p leaf given)
    (operands : Writes (cx.exprs args) s P)
    (call : ∀ display span vs ls n, s.next ≤ n → P vs ls n →
      Writes (cx.dispatch display (p.env.candidates name) vs [] span) (s.wrote ls n)
        fun v ms m => R v (ls ++ ms) m) :
    Writes (cx.exprStep e) s R := by
  have meant (display : String) (span : Span) (vs : List Value) (ls : List Line) (n : Nat)
      (more : s.next ≤ n) (holds : P vs ls n) : Writes (do
        cx.dispatch display ((← Emit.look (·.program.env)).candidates name) vs [] span)
        (s.wrote ls n) fun v ms m => R v (ls ++ ms) m := by
    refine after (.look _) ?_
    rintro _ rfl
    rw [(sees.wrote more ls).env]
    exact call display span vs ls n more holds
  unfold Lowering.exprStep
  refine locating ?_
  cases form with
  | @binary op a b span =>
    have both : (do
        let x ← cx.expr a
        let y ← cx.expr b
        cx.operator op.overloads op.symbol [x, y] span) =
        cx.exprs [a, b] >>= fun vs => cx.operator op.overloads op.symbol vs span := by
      simp [Lowering.exprs]
    dsimp only
    rw [both]
    exact bind operands fun vs ls n more holds => meant _ _ vs ls n more holds
  | @unary op a span =>
    have one : (do
        let x ← cx.expr a
        cx.operator op.overloads op.symbol [x] span) =
        cx.exprs [a] >>= fun vs => cx.operator op.overloads op.symbol vs span := by
      simp [Lowering.exprs]
    dsimp only
    rw [one]
    exact bind operands fun vs ls n more holds => meant _ _ vs ls n more holds
  | call =>
    dsimp only
    unfold Lowering.callExpr
    refine bind operands fun vs ls n more holds => ?_
    refine after (P := fun types => types = []) (.pure rfl) ?_
    rintro _ rfl
    dsimp only
    refine after (.look _) fun env _ => after (.look _) fun _ _ => ?_
    split
    · exact throw _
    · exact meant _ _ vs ls n more holds
  | methodCall =>
    exact bind operands fun vs ls n more holds => meant _ _ vs ls n more holds

/-- A block that only has a value. -/
theorem block {a : Expr} {span : Span} {Q : Value → List Line → Nat → Prop} (n : Nat)
    (h : ∀ n, Writes ((Lowering.ofDepth .js n).expr a) s Q) :
    Writes ((Lowering.ofDepth .js n).block ⟨[], some a, span⟩) s Q := by
  cases n with
  | zero => exact locating (throw _)
  | succ n => exact after (P := fun _ => True) (.pure trivial) fun _ _ => h n

/-- A name or a value from outside. -/
theorem leaf_expr {l : Leaf} {v : Value} {span : Span} {Q : Value → List Line → Nat → Prop}
    (js : cx.target = .js) (stands : s.leaf? l = some v) (h : Q v [] s.next) :
    Writes (cx.exprStep ⟨l.expr, span⟩) s Q := by
  refine locating ?_
  cases l with
  | name x =>
    refine after (.look _) ?_
    rintro _ rfl
    refine after (.look _) ?_
    rintro _ rfl
    cases found : s.frame.local? x with
    | some w =>
      rw [Emission.leaf?, found] at stands
      cases stands
      exact pure h
    | none =>
      rw [Emission.leaf?, found] at stands
      replace stands : s.program.env.const? x = some v := stands
      dsimp only
      rw [stands]
      exact pure h
  | param x =>
    refine after (.look _) ?_
    rintro _ rfl
    obtain ⟨ty, found, rfl⟩ := Option.map_eq_some_iff.mp stands
    rw [found]
    dsimp only
    rw [js]
    exact pure h

end Writes

namespace Lowering

variable {p : Program} {leaf : Leaf → Option Value} {given : Cells} {value : Leaf → Option Scalar}
  {k : ScalarKind}

theorem ofDepth_target (target : Target) (n : Nat) : (ofDepth target n).target = target := by
  cases n <;> rfl

theorem ofDepth_join (target : Target) (n : Nat) : (ofDepth target n).join = joinSides target := by
  cases n <;> rfl

/-- A condition that is known is what it folds to. -/
theorem truth_eq {m n : Nat} {v : Value} {ls : List Line} {t b : Bool} (known : v.truth? = some t)
    (type : v.ty = .bool) (delivers : Delivers given m v ls n (.bool b)) (room : given.Room m n) :
    b = t := by
  obtain ⟨_, _, _, _, written, holds⟩ := delivers given (.refl _) room
  obtain ⟨⟨c⟩ | ⟨c⟩, ty, _⟩ := v
  · obtain rfl : ty = .bool := type
    obtain rfl : c = .scalar (.bool t) := by
      cases c with
      | aggregate _ => cases known
      | scalar x =>
        cases x <;> cases known
        rfl
    simp only [Value.toCode, Ty.bool, Code.ofConst, Except.ok.injEq] at written
    subst written
    cases holds.lit_eq
    rfl
  · cases known

/-- Two sides under a condition. -/
theorem ifElse_emits {n : Nat} {s : Emission} {cond a b : Expr} {span span' : Span}
    (sees : s.Sees p leaf given)
    (test : ∀ n (s : Emission), s.Sees p leaf given →
      Writes ((ofDepth .js n).expr cond) s (Emits given value cond .bool s.next))
    (yes : ∀ n (s : Emission), s.Sees p leaf given →
      Writes ((ofDepth .js n).expr a) s (Emits given value a k s.next))
    (no : ∀ n (s : Emission), s.Sees p leaf given →
      Writes ((ofDepth .js n).expr b) s (Emits given value b k s.next)) :
    Writes ((ofDepth .js n).ifElse cond ⟨[], some a, span⟩ (some b)) s
      (Emits given value ⟨.ifElse cond ⟨[], some a, span⟩ (some b), span'⟩ k s.next) := by
  unfold ifElse
  refine .bind (test n s sees) fun c ls m more ⟨type, atomic, decides⟩ => ?_
  refine .after (.locating (.lift _)) fun c' same => ?_
  cases same.symm.trans (Value.convert_scalar type)
  have sees' := sees.wrote more ls
  -- One side is lowered if the condition is known, and that is the side which is folded.
  have known_side {t : Bool} {side : Value} {ms : List Line} {l : Nat} (further : m ≤ l)
      (known : c.truth? = some t) (holds : Emits given value (if t then a else b) k m side ms l) :
      Emits given value ⟨.ifElse cond ⟨[], some a, span⟩ (some b), span'⟩ k s.next side (ls ++ ms)
        l := by
    obtain ⟨type', atomic', folds⟩ := holds
    refine ⟨type', atomic', fun c' folded => ?_⟩
    obtain ⟨t', tested, chosen⟩ := folded.of_ifElse
    obtain ⟨_, ⟨⟩, _, delivers⟩ := decides _ tested
    obtain rfl := truth_eq known type delivers (sees.room m)
    obtain ⟨x, rfl, kind, delivers'⟩ := folds c' chosen
    exact ⟨x, rfl, kind, delivers.after delivers' more further⟩
  split
  · rename_i known
    exact (Writes.nested (Writes.block n fun n => yes n _ sees'.entered)).mono
      fun side ms l further holds => known_side further known holds
  · rename_i other known same
    cases same
    exact (no n _ sees').mono fun side ms l further holds => known_side further known holds
  · rename_i none_
    cases none_
  · refine .bind (.inBlock (Writes.block n fun n => yes n _ sees'.entered)) ?_
    rintro ⟨x, xs⟩ _ i further ⟨rfl, typeYes, atomicYes, foldsYes⟩
    refine .bind (.inBlock (no n _ (sees'.wrote further []).entered)) ?_
    rintro ⟨y, ys⟩ _ j further' ⟨rfl, typeNo, atomicNo, foldsNo⟩
    rw [ofDepth_join]
    refine (Writes.joinSides given typeYes typeNo atomicYes atomicNo _).mono ?_
    rintro v es l last ⟨type', atomic', joins⟩
    refine ⟨type', atomic', fun c' folded => ?_⟩
    obtain ⟨t, tested, chosen⟩ := folded.of_ifElse
    obtain ⟨_, ⟨⟩, _, delivers⟩ := decides _ tested
    simp only [Emission.next_wrote] at further further' last joins foldsYes foldsNo
    have side : ∃ z, c' = .scalar z ∧ z.kind = k ∧ ∃ p q, m ≤ p ∧ q ≤ j ∧
        Delivers given p (if t then x else y) (if t then xs else ys) q z := by
      cases t with
      | true =>
        obtain ⟨z, rfl, kind, delivers⟩ := foldsYes c' chosen
        exact ⟨z, rfl, kind, m, i, le_rfl, further', delivers⟩
      | false =>
        obtain ⟨z, rfl, kind, delivers⟩ := foldsNo c' chosen
        exact ⟨z, rfl, kind, i, j, further, le_rfl, delivers⟩
    obtain ⟨z, rfl, kind, p, q, low, high, delivers'⟩ := side
    refine ⟨z, rfl, kind, fun vars kept room => ?_⟩
    have middle : m ≤ j := further.trans further'
    refine (delivers vars kept (room.narrow le_rfl (middle.trans last))).append room more
      (middle.trans last) fun after room kept' decided => ?_
    exact joins after t z m p q (kept.trans kept') room decided low high middle delivers'

/-- A tree is lowered to code that computes what it folds to. -/
theorem whole_emits (base : p.OnPrelude)
    (values : ∀ l v k x, leaf l = some v → v.ty = .scalar k → k ≠ .float → value l = some x →
      x.kind = k ∧ v.Computes given x)
    {e : Expr} (tree : e.Whole p.Means leaf k) : ∀ (n : Nat) (s : Emission), s.Sees p leaf given →
      Writes ((ofDepth .js n).expr e) s (Emits given value e k s.next) := by
  induction tree with
  | @lit l x span whole =>
    intro n s sees
    cases n with
    | zero => exact .locating (.throw _)
    | succ n =>
      have known : literal l = .const (.scalar x) (.scalar x.kind) := by
        cases l <;> cases whole <;> rfl
      have exact_ : x.kind ≠ .float := by
        cases l <;> cases whole <;> simp [Scalar.kind]
      show Writes ((ofDepth .js n).exprStep ⟨.lit l, span⟩) s _
      unfold exprStep
      dsimp only
      rw [known]
      refine .locating (.pure ⟨rfl, Value.atomic_const, fun c folded => ?_⟩)
      obtain ⟨y, whole', rfl⟩ := folded.of_lit
      cases whole.symm.trans whole'
      exact ⟨x, rfl, rfl, fun vars _ _ => .nil (Value.computes_const exact_)⟩
  | @leaf l v k span stands type whole plain =>
    intro n s sees
    cases n with
    | zero => exact .locating (.throw _)
    | succ n =>
      refine Writes.leaf_expr (ofDepth_target .js n) ((sees.leaf l).trans stands) ?_
      refine ⟨type, Value.atomic_plain type plain, fun c folded => ?_⟩
      obtain ⟨x, found, rfl⟩ := folded.of_leaf
      obtain ⟨kind, computes⟩ := values l v k x stands type whole found
      exact ⟨x, rfl, kind, fun vars kept _ => .nil (computes.kept kept)⟩
  | @apply e name args o k form named takes means _ ih =>
    intro n s sees
    cases n with
    | zero => exact .locating (.throw _)
    | succ n =>
      refine Writes.applies form sees (Writes.exprs sees fun a member => ih a member n) ?_
      rintro display span vs ls m more ⟨length, types, operands⟩
      rw [← length] at named means
      refine (Writes.dispatch base (ofDepth_target .js n) named takes means types span).mono ?_
      rintro v ms l further ⟨type, atomic, answers⟩
      refine ⟨type, atomic, fun c folded => ?_⟩
      obtain ⟨o', cs, named', each, applied⟩ := folded.of_applies form
      rw [← length] at named'
      cases named.symm.trans named'
      obtain ⟨xs, rfl, delivers⟩ := operands cs each
      -- The given variables themselves show which scalar the operation gives.
      obtain ⟨here, _, grown, computed⟩ := delivers given (.refl _) (sees.room m)
      have room := grown.room ((sees.room l).narrow more le_rfl)
      obtain ⟨z, rfl, kind, _⟩ := answers here xs c room computed applied
      refine ⟨z, rfl, kind, fun vars kept room => ?_⟩
      refine (delivers vars kept (room.narrow le_rfl further)).append room more further
        fun after room _ computed => ?_
      obtain ⟨_, ⟨⟩, _, ran⟩ := answers after xs _ room computed applied
      exact ran
  | block _ ih =>
    intro n s sees
    cases n with
    | zero => exact .locating (.throw _)
    | succ n =>
      refine Writes.locating ((Writes.nested (Writes.block n fun n => ih n _ sees.entered)).mono ?_)
      rintro v ls m _ ⟨type, atomic, folds⟩
      exact ⟨type, atomic, fun c folded => folds c folded.of_block⟩
  | ifElse _ _ _ test yes no =>
    intro n s sees
    cases n with
    | zero => exact .locating (.throw _)
    | succ n => exact Writes.locating (ifElse_emits sees test yes no)

end Lowering

/-! ## Values in the place of leaves -/

def Cells.ofScalars (values : List (String × Scalar)) : Cells :=
  values.map fun (name, x) => (name, ⟨Datum.ofScalar? x, false⟩)

theorem Cells.lookup_ofScalars (values : List (String × Scalar)) (name : String) :
    (ofScalars values).lookup name =
      (values.lookup name).map fun x => ⟨Datum.ofScalar? x, false⟩ := by
  induction values with
  | nil => rfl
  | cons entry rest ih =>
    obtain ⟨other, x⟩ := entry
    show List.lookup name ((other, _) :: ofScalars rest) = _
    rw [List.lookup_cons, List.lookup_cons]
    split
    · rfl
    · exact ih

/-- The scalar of a constant, or of a variable that has one of its kind. -/
def Value.under (values : List (String × Scalar)) (v : Value) : Option Scalar :=
  (match v.payload with
    | .const c => c.scalar?
    | .code (.name x) => values.lookup x
    | .code _ => none).filter fun x => v.ty.scalarKind? == some x.kind

def Emission.leafScalar? (s : Emission) (values : List (String × Scalar)) (l : Leaf) :
    Option Scalar := (s.leaf? l).bind (Value.under values)

def Constant.datum? (c : Constant) : Option Datum := c.scalar?.bind Datum.ofScalar?

theorem Value.computes_under {values : List (String × Scalar)} {v : Value} {k : ScalarKind}
    {x : Scalar} (type : v.ty = .scalar k) (whole : k ≠ .float) (found : v.under values = some x) :
    x.kind = k ∧ v.Computes (Cells.ofScalars values) x := by
  obtain ⟨found, kind⟩ := Option.filter_eq_some_iff.mp found
  obtain rfl : x.kind = k := by
    rw [type] at kind
    exact (Option.some.inj (eq_of_beq kind)).symm
  refine ⟨rfl, ?_⟩
  obtain ⟨d, datum⟩ : ∃ d, Datum.ofScalar? x = some d := by
    cases x with
    | float _ => exact absurd rfl whole
    | int _ => exact ⟨_, rfl⟩
    | bool _ => exact ⟨_, rfl⟩
  obtain ⟨⟨c⟩ | ⟨c⟩, ty, assignable⟩ := v
  · obtain rfl : ty = .scalar x.kind := type
    cases c with
    | aggregate _ => cases found
    | scalar y =>
      cases found
      exact computes_const whole
  · cases c with
    | name y =>
      refine ⟨.name y, rfl, .name datum ?_⟩
      rw [Cells.value?, Cells.lookup_ofScalars]
      simp only at found
      rw [found]
      exact datum
    | _ => cases found

/-- For every tree of whole numbers and truth values and all values of its variables: if the tree is
lowered to JavaScript, and folding gives a constant once the values stand in the place of the
variables, then the lines run and the expression has the value of that constant. -/
theorem Lowering.run_eq_fold {s t : Emission} {e : Expr} {k : ScalarKind} {v : Value}
    {values : List (String × Scalar)} {c : Constant} (base : s.program.OnPrelude)
    (tree : e.Whole s.program.Means s.leaf? k)
    (apart : ∀ i, s.next ≤ i → values.lookup (tempName i) = none)
    (emitted : (toTarget .js).expr e s = .ok v t)
    (folded : e.FoldsTo (s.leafScalar? values) c) :
    ∃ ls code vars d, t.frame.level.lines = s.frame.level.lines ++ ls ∧ v.toCode .js = .ok code ∧
      Line.runAll (Cells.ofScalars values) ls = some vars ∧ code.value? vars = some d ∧
      c.datum? = some d := by
  have sees : s.Sees s.program s.leaf? (Cells.ofScalars values) :=
    ⟨rfl, fun _ => rfl, fun n i low _ => by rw [Cells.lookup_ofScalars, apart i low]; rfl⟩
  have leaves (l : Leaf) (v : Value) (k : ScalarKind) (x : Scalar) (stands : s.leaf? l = some v)
      (type : v.ty = .scalar k) (whole : k ≠ .float) (found : s.leafScalar? values l = some x) :
      x.kind = k ∧ v.Computes (Cells.ofScalars values) x := by
    rw [Emission.leafScalar?, stands] at found
    exact Value.computes_under type whole found
  obtain ⟨ls, n, _, rfl, _, _, folds⟩ := whole_emits base leaves tree depthLimit s sees v t emitted
  obtain ⟨x, rfl, _, delivers⟩ := folds c folded
  obtain ⟨vars, ran, _, code, written, holds⟩ := delivers _ (.refl _) (sees.room n)
  obtain ⟨d, same, value⟩ := holds.value
  exact ⟨ls, code, vars, d, rfl, written, ran, value, same⟩

/-- `if x / y < 0 { abs(x) - 1 } else { 0 }` -/
def wrapping : Expr :=
  let of (kind : ExprKind) : Expr := ⟨kind, default⟩
  let int (n : Int32) : Expr := of (.lit (.int n))
  let x := of (.ident "x")
  of (.ifElse (of (.binary .lt (of (.binary .div x (of (.ident "y")))) (int 0)))
    ⟨[], some (of (.binary .sub (of (.call (of (.ident "abs")) [] [x])) (int 1))), default⟩
    (some (of (.block ⟨[], some (int 0), default⟩))))

def wrappingState (p : Program) : Emission :=
  { program := p
    frame := { level := { locals := [("x", .code (.name "x_1") .i32),
      ("y", .code (.name "y_2") .i32)] } } }

theorem wrapping_whole {p : Program} (means : ∀ name count, p.Means name count) :
    wrapping.Whole p.Means (wrappingState p).leaf? .int := by
  have x : Expr.Whole p.Means (wrappingState p).leaf? .int ⟨.ident "x", default⟩ :=
    .leaf (l := .name "x") rfl rfl (by decide) fun c h => ⟨"x_1", by cases h; rfl⟩
  have y : Expr.Whole p.Means (wrappingState p).leaf? .int ⟨.ident "y", default⟩ :=
    .leaf (l := .name "y") rfl rfl (by decide) fun c h => ⟨"y_2", by cases h; rfl⟩
  have int (n : Int32) : Expr.Whole p.Means (wrappingState p).leaf? .int ⟨.lit (.int n), default⟩ :=
    .lit (x := .int n) rfl
  have pair (op : BinaryOp) (o : Operation) {a b : Expr}
      (named : Operation.named? op.overloads 2 = some o) (takes : o.takes .int = true)
      (ha : a.Whole p.Means (wrappingState p).leaf? .int)
      (hb : b.Whole p.Means (wrappingState p).leaf? .int) :
      Expr.Whole p.Means (wrappingState p).leaf? (o.resultKind .int) ⟨.binary op a b, default⟩ :=
    .apply .binary named takes (means _ _) (by simpa using ⟨ha, hb⟩)
  have quotient := pair .div (.map .div) (by decide) rfl x y
  have test := pair .lt (.map .lt) (by decide) rfl quotient (int 0)
  have distance : Expr.Whole p.Means (wrappingState p).leaf? .int
      ⟨.call ⟨.ident "abs", default⟩ [] [⟨.ident "x", default⟩], default⟩ :=
    .apply (o := .map .abs) (k := .int) .call (by decide) rfl (means _ _) (by simpa using x)
  have less := pair .sub (.map .sub) (by decide) rfl distance (int 1)
  exact .ifElse test less (.block (int 0))

/-- Values at which the quotient and the distance from zero both leave 32 bits. -/
def wrappingValues : List (String × Scalar) := [("x_1", .int Int32.minValue), ("y_2", .int (-1))]

theorem wrapping_folds (p : Program) :
    wrapping.FoldsTo ((wrappingState p).leafScalar? wrappingValues)
      (.scalar (.int Int32.maxValue)) := by
  have x : Expr.FoldsTo ((wrappingState p).leafScalar? wrappingValues) ⟨.ident "x", default⟩
      (.scalar (.int Int32.minValue)) := .leaf (l := .name "x") rfl
  have y : Expr.FoldsTo ((wrappingState p).leafScalar? wrappingValues) ⟨.ident "y", default⟩
      (.scalar (.int (-1))) := .leaf (l := .name "y") rfl
  have int (n : Int32) : Expr.FoldsTo ((wrappingState p).leafScalar? wrappingValues)
      ⟨.lit (.int n), default⟩ (.scalar (.int n)) := .lit rfl
  have pair (op : BinaryOp) (o : Operation) {a b : Expr} {c d : Constant} (e : Constant)
      (named : Operation.named? op.overloads 2 = some o)
      (ha : a.FoldsTo ((wrappingState p).leafScalar? wrappingValues) c)
      (hb : b.FoldsTo ((wrappingState p).leafScalar? wrappingValues) d)
      (value : o.value? [c, d] = some e) :
      Expr.FoldsTo ((wrappingState p).leafScalar? wrappingValues) ⟨.binary op a b, default⟩ e :=
    .apply .binary named (.cons ha (.cons hb .nil)) value
  have quotient := pair .div (.map .div) (.scalar (.int Int32.minValue)) (by decide) x y
    rfl
  have test := pair .lt (.map .lt) (.scalar (.bool true)) (by decide) quotient (int 0)
    rfl
  have distance : Expr.FoldsTo ((wrappingState p).leafScalar? wrappingValues)
      ⟨.call ⟨.ident "abs", default⟩ [] [⟨.ident "x", default⟩], default⟩
      (.scalar (.int Int32.minValue)) :=
    .apply (o := .map .abs) .call (by decide) (.cons x .nil) rfl
  have less := pair .sub (.map .sub) (.scalar (.int Int32.maxValue)) (by decide)
    distance (int 1) rfl
  exact .yes test less

theorem Program.own_of_start {p : Program} (start : Program.start = .ok p) : p.env.own = {} := by
  unfold Program.start at start
  split at start
  · cases start
    rfl
  · cases start

def wrappingRuns (p : Program) : Bool :=
  match (Lowering.toTarget .js).expr wrapping (wrappingState p) with
  | .ok _ t => !t.frame.level.lines.isEmpty
  | .error _ _ => false

theorem wrapping_runs : Program.start.toOption.any wrappingRuns = true := by decide +kernel

/-- The least number divided by `-1`, and its distance from zero, as the code computes them. -/
theorem Lowering.run_wrapping : ∃ p v t ls code vars, Program.start = .ok p ∧
    (toTarget .js).expr wrapping (wrappingState p) = .ok v t ∧ t.frame.level.lines = ls ∧
    v.toCode .js = .ok code ∧ Line.runAll (Cells.ofScalars wrappingValues) ls = some vars ∧
    code.value? vars = some (.number 2147483647) := by
  have runs := wrapping_runs
  cases start : Program.start with
  | error f => simp [start, Except.toOption] at runs
  | ok p =>
    have means (name : String) (count : Nat) : p.Means name count :=
      Program.means_of_arity (by simp [Program.own_of_start start])
    have apart (i : Nat) : wrappingValues.lookup (tempName i) = none := by
      have first : (tempName i).toList.head? = some '_' := by simp [tempName]
      have other (name : String) (start : name.toList.head? ≠ some '_') : tempName i ≠ name :=
        fun same => start (same ▸ first)
      simp [wrappingValues, List.lookup_cons, beq_false_of_ne (other "x_1" (by decide)),
        beq_false_of_ne (other "y_2" (by decide))]
    cases ran : (toTarget .js).expr wrapping (wrappingState p) with
    | error f t => simp [start, Except.toOption, wrappingRuns, ran] at runs
    | ok v t =>
      obtain ⟨ls, code, vars, d, lines, written, after, value, datum⟩ :=
        run_eq_fold (Program.start_onPrelude start) (wrapping_whole means) (fun i _ => apart i) ran
          (wrapping_folds p)
      refine ⟨p, v, t, ls, code, vars, rfl, ran, lines, written, after, ?_⟩
      rw [value, ← datum]
      have most : Int32.maxValue.toInt = 2147483647 := by decide
      simp [Constant.datum?, Constant.scalar?, Datum.ofScalar?, Datum.ofWord, most]

end Ember

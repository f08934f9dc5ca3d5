import Ember.Parse
import Ember.Proofs.Clean

/-!
# Rules pay for what is missing and read what is there

Where something is missing, the grammar puts a placeholder and reports an issue. `Pays` keeps the
account: a rule reports at least as many issues as there are gaps in its result, apart from a debt,
the gaps in what it was given to build on. A rule that reads a part takes the gaps of that part into
the debt of what follows. It leaves the end of what was to be read.

`Reads` says more of a rule that reports nothing: it has passed over no node, since it skips only
after a report, and has read some nodes at least; `Drains` says of a rule for a whole level that it
comes to the end of its stream. The rounds of a loop never run out before that, since each reads a
node or reports something.
-/

set_option autoImplicit false

namespace Ember

/-! ## Counting placeholders -/

mutual

def Expr.placeholders : Expr → Nat
  | ⟨kind, _⟩ => kind.placeholders

def ExprKind.placeholders : ExprKind → Nat
  | .empty => 1
  | .lit _ | .ident _ | .builtin _ | .param _ | .symbol _ => 0
  | .binary _ lhs rhs => lhs.placeholders + rhs.placeholders
  | .unary _ e | .deriv _ e | .field e _ => e.placeholders
  | .range start stop => Expr.placeholdersOfOption start + Expr.placeholdersOfOption stop
  | .call callee types args =>
    callee.placeholders + TypeExpr.placeholdersOfList types + Expr.placeholdersOfList args
  | .methodCall receiver _ args => receiver.placeholders + Expr.placeholdersOfList args
  | .index base i => base.placeholders + i.placeholders
  | .structLit _ fields => FieldInit.placeholdersOfList fields
  | .array items => Expr.placeholdersOfList items
  | .block b => b.placeholders
  | .ifElse cond yes no => cond.placeholders + yes.placeholders + Expr.placeholdersOfOption no
  | .matchArms subject arms => subject.placeholders + MatchArm.placeholdersOfList arms
  | .forLoop _ _ iter body => iter.placeholders + body.placeholders
  | .source ⟨_, parts⟩ => SourcePart.placeholdersOfList parts

def Expr.placeholdersOfOption : Option Expr → Nat
  | none => 0
  | some e => e.placeholders

def Expr.placeholdersOfList : List Expr → Nat
  | [] => 0
  | e :: es => e.placeholders + Expr.placeholdersOfList es

def FieldInit.placeholdersOfList : List FieldInit → Nat
  | [] => 0
  | ⟨_, value⟩ :: fs => value.placeholders + FieldInit.placeholdersOfList fs

def MatchArm.placeholdersOfList : List MatchArm → Nat
  | [] => 0
  | ⟨_, body, _⟩ :: as => body.placeholders + MatchArm.placeholdersOfList as

def SourcePart.placeholdersOfList : List SourcePart → Nat
  | [] => 0
  | .text _ :: ps => SourcePart.placeholdersOfList ps
  | .interp e :: ps => e.placeholders + SourcePart.placeholdersOfList ps

def Block.placeholders : Block → Nat
  | ⟨stmts, tail, _⟩ => Stmt.placeholdersOfList stmts + Expr.placeholdersOfOption tail

def Stmt.placeholdersOfList : List Stmt → Nat
  | [] => 0
  | ⟨kind, _⟩ :: ss => kind.placeholders + Stmt.placeholdersOfList ss

def StmtKind.placeholders : StmtKind → Nat
  | .empty | .breakLoop _ | .continueLoop _ => 0
  | .letBind _ ty value => TypeExpr.placeholdersOfOption ty + value.placeholders
  | .assign _ target value => target.placeholders + value.placeholders
  | .expr e | .assert e => e.placeholders

def TypeExpr.placeholders : TypeExpr → Nat
  | ⟨kind, _⟩ => kind.placeholders

def TypeKind.placeholders : TypeKind → Nat
  | .empty => 1
  | .named _ args => TypeExpr.placeholdersOfList args
  | .array of len => of.placeholders + len.placeholders
  | .alt members => TypeExpr.placeholdersOfList members

def TypeExpr.placeholdersOfList : List TypeExpr → Nat
  | [] => 0
  | t :: ts => t.placeholders + TypeExpr.placeholdersOfList ts

def TypeExpr.placeholdersOfOption : Option TypeExpr → Nat
  | none => 0
  | some t => t.placeholders

end

def FnDecl.placeholders (d : FnDecl) : Nat :=
  (d.params.map (·.ty.placeholders)).sum + TypeExpr.placeholdersOfOption d.ret +
    d.body.placeholders

def StructDecl.placeholders (d : StructDecl) : Nat := (d.fields.map (·.ty.placeholders)).sum

def ItemKind.placeholders : ItemKind → Nat
  | .empty => 1
  | .useModule _ _ => 0
  | .fn d => d.placeholders
  | .structs group => (group.variants.map StructDecl.placeholders).sum
  | .const _ ty value => TypeExpr.placeholdersOfOption ty + value.placeholders
  | .param _ ty => ty.placeholders
  | .assert cond => cond.placeholders

def Script.placeholders (s : Script) : Nat := (s.items.map (·.kind.placeholders)).sum

/-! ## Gaps -/

mutual

/-- How many parts are missing: placeholders, and alternatives without members. -/
def Expr.gaps : Expr → Nat
  | ⟨kind, _⟩ => kind.gaps

def ExprKind.gaps : ExprKind → Nat
  | .empty => 1
  | .lit _ | .ident _ | .builtin _ | .param _ | .symbol _ => 0
  | .binary _ lhs rhs => lhs.gaps + rhs.gaps
  | .unary _ e | .deriv _ e | .field e _ => e.gaps
  | .range start stop => Expr.gapsOfOption start + Expr.gapsOfOption stop
  | .call callee types args => callee.gaps + TypeExpr.gapsOfList types + Expr.gapsOfList args
  | .methodCall receiver _ args => receiver.gaps + Expr.gapsOfList args
  | .index base i => base.gaps + i.gaps
  | .structLit _ fields => FieldInit.gapsOfList fields
  | .array items => Expr.gapsOfList items
  | .block b => b.gaps
  | .ifElse cond yes no => cond.gaps + yes.gaps + Expr.gapsOfOption no
  | .matchArms subject arms => subject.gaps + MatchArm.gapsOfList arms
  | .forLoop _ _ iter body => iter.gaps + body.gaps
  | .source ⟨_, parts⟩ => SourcePart.gapsOfList parts

def Expr.gapsOfOption : Option Expr → Nat
  | none => 0
  | some e => e.gaps

def Expr.gapsOfList : List Expr → Nat
  | [] => 0
  | e :: es => e.gaps + Expr.gapsOfList es

def FieldInit.gapsOfList : List FieldInit → Nat
  | [] => 0
  | ⟨_, value⟩ :: fs => value.gaps + FieldInit.gapsOfList fs

def MatchArm.gapsOfList : List MatchArm → Nat
  | [] => 0
  | ⟨_, body, _⟩ :: as => body.gaps + MatchArm.gapsOfList as

def SourcePart.gapsOfList : List SourcePart → Nat
  | [] => 0
  | .text _ :: ps => SourcePart.gapsOfList ps
  | .interp e :: ps => e.gaps + SourcePart.gapsOfList ps

def Block.gaps : Block → Nat
  | ⟨stmts, tail, _⟩ => Stmt.gapsOfList stmts + Expr.gapsOfOption tail

def Stmt.gapsOfList : List Stmt → Nat
  | [] => 0
  | ⟨kind, _⟩ :: ss => kind.gaps + Stmt.gapsOfList ss

def StmtKind.gaps : StmtKind → Nat
  | .empty | .breakLoop _ | .continueLoop _ => 0
  | .letBind _ ty value => TypeExpr.gapsOfOption ty + value.gaps
  | .assign _ target value => target.gaps + value.gaps
  | .expr e | .assert e => e.gaps

def TypeExpr.gaps : TypeExpr → Nat
  | ⟨kind, _⟩ => kind.gaps

def TypeKind.gaps : TypeKind → Nat
  | .empty => 1
  | .named _ args => TypeExpr.gapsOfList args
  | .array of len => of.gaps + len.gaps
  | .alt [] => 1
  | .alt (t :: ts) => t.gaps + TypeExpr.gapsOfList ts

def TypeExpr.gapsOfList : List TypeExpr → Nat
  | [] => 0
  | t :: ts => t.gaps + TypeExpr.gapsOfList ts

def TypeExpr.gapsOfOption : Option TypeExpr → Nat
  | none => 0
  | some t => t.gaps

end

mutual

theorem Expr.placeholders_le_gaps : ∀ e : Expr, e.placeholders ≤ e.gaps
  | ⟨kind, _⟩ => kind.placeholders_le_gaps

theorem ExprKind.placeholders_le_gaps : ∀ k : ExprKind, k.placeholders ≤ k.gaps
  | .empty => Nat.le_refl _
  | .lit _ | .ident _ | .builtin _ | .param _ | .symbol _ => Nat.le_refl _
  | .binary _ lhs rhs => Nat.add_le_add lhs.placeholders_le_gaps rhs.placeholders_le_gaps
  | .unary _ e | .deriv _ e | .field e _ => e.placeholders_le_gaps
  | .range start stop =>
    Nat.add_le_add (Expr.option_le_gaps start) (Expr.option_le_gaps stop)
  | .call callee types args => Nat.add_le_add
    (Nat.add_le_add callee.placeholders_le_gaps (TypeExpr.list_le_gaps types))
    (Expr.list_le_gaps args)
  | .methodCall receiver _ args =>
    Nat.add_le_add receiver.placeholders_le_gaps (Expr.list_le_gaps args)
  | .index base i => Nat.add_le_add base.placeholders_le_gaps i.placeholders_le_gaps
  | .structLit _ fields => FieldInit.list_le_gaps fields
  | .array items => Expr.list_le_gaps items
  | .block b => b.placeholders_le_gaps
  | .ifElse cond yes no => Nat.add_le_add
    (Nat.add_le_add cond.placeholders_le_gaps yes.placeholders_le_gaps) (Expr.option_le_gaps no)
  | .matchArms subject arms =>
    Nat.add_le_add subject.placeholders_le_gaps (MatchArm.list_le_gaps arms)
  | .forLoop _ _ iter body => Nat.add_le_add iter.placeholders_le_gaps body.placeholders_le_gaps
  | .source ⟨_, parts⟩ => SourcePart.list_le_gaps parts

theorem Expr.option_le_gaps : ∀ o, Expr.placeholdersOfOption o ≤ Expr.gapsOfOption o
  | none => Nat.le_refl _
  | some e => e.placeholders_le_gaps

theorem Expr.list_le_gaps : ∀ es, Expr.placeholdersOfList es ≤ Expr.gapsOfList es
  | [] => Nat.le_refl _
  | e :: es => Nat.add_le_add e.placeholders_le_gaps (Expr.list_le_gaps es)

theorem FieldInit.list_le_gaps : ∀ fs, FieldInit.placeholdersOfList fs ≤ FieldInit.gapsOfList fs
  | [] => Nat.le_refl _
  | ⟨_, value⟩ :: fs => Nat.add_le_add value.placeholders_le_gaps (FieldInit.list_le_gaps fs)

theorem MatchArm.list_le_gaps : ∀ as, MatchArm.placeholdersOfList as ≤ MatchArm.gapsOfList as
  | [] => Nat.le_refl _
  | ⟨_, body, _⟩ :: as => Nat.add_le_add body.placeholders_le_gaps (MatchArm.list_le_gaps as)

theorem SourcePart.list_le_gaps : ∀ ps, SourcePart.placeholdersOfList ps ≤ SourcePart.gapsOfList ps
  | [] => Nat.le_refl _
  | .text _ :: ps => SourcePart.list_le_gaps ps
  | .interp e :: ps => Nat.add_le_add e.placeholders_le_gaps (SourcePart.list_le_gaps ps)

theorem Block.placeholders_le_gaps : ∀ b : Block, b.placeholders ≤ b.gaps
  | ⟨stmts, tail, _⟩ => Nat.add_le_add (Stmt.list_le_gaps stmts) (Expr.option_le_gaps tail)

theorem Stmt.list_le_gaps : ∀ ss, Stmt.placeholdersOfList ss ≤ Stmt.gapsOfList ss
  | [] => Nat.le_refl _
  | ⟨kind, _⟩ :: ss => Nat.add_le_add kind.placeholders_le_gaps (Stmt.list_le_gaps ss)

theorem StmtKind.placeholders_le_gaps : ∀ k : StmtKind, k.placeholders ≤ k.gaps
  | .empty | .breakLoop _ | .continueLoop _ => Nat.le_refl _
  | .letBind _ ty value =>
    Nat.add_le_add (TypeExpr.option_le_gaps ty) value.placeholders_le_gaps
  | .assign _ target value =>
    Nat.add_le_add target.placeholders_le_gaps value.placeholders_le_gaps
  | .expr e | .assert e => e.placeholders_le_gaps

theorem TypeExpr.placeholders_le_gaps : ∀ t : TypeExpr, t.placeholders ≤ t.gaps
  | ⟨kind, _⟩ => kind.placeholders_le_gaps

theorem TypeKind.placeholders_le_gaps : ∀ k : TypeKind, k.placeholders ≤ k.gaps
  | .empty => Nat.le_refl _
  | .named _ args => TypeExpr.list_le_gaps args
  | .array of len => Nat.add_le_add of.placeholders_le_gaps len.placeholders_le_gaps
  | .alt [] => Nat.zero_le _
  | .alt (t :: ts) => Nat.add_le_add t.placeholders_le_gaps (TypeExpr.list_le_gaps ts)

theorem TypeExpr.list_le_gaps : ∀ ts, TypeExpr.placeholdersOfList ts ≤ TypeExpr.gapsOfList ts
  | [] => Nat.le_refl _
  | t :: ts => Nat.add_le_add t.placeholders_le_gaps (TypeExpr.list_le_gaps ts)

theorem TypeExpr.option_le_gaps : ∀ o, TypeExpr.placeholdersOfOption o ≤ TypeExpr.gapsOfOption o
  | none => Nat.le_refl _
  | some t => t.placeholders_le_gaps

end

def FnDecl.gaps (d : FnDecl) : Nat :=
  (d.params.map (·.ty.gaps)).sum + TypeExpr.gapsOfOption d.ret + d.body.gaps

def StructDecl.gaps (d : StructDecl) : Nat := (d.fields.map (·.ty.gaps)).sum

def ItemKind.gaps : ItemKind → Nat
  | .empty => 1
  | .useModule _ _ => 0
  | .fn d => d.gaps
  | .structs group => (group.variants.map StructDecl.gaps).sum
  | .const _ ty value => TypeExpr.gapsOfOption ty + value.gaps
  | .param _ ty => ty.gaps
  | .assert cond => cond.gaps

theorem sum_map_le {α : Type} {f g : α → Nat} (as : List α) (h : ∀ a, f a ≤ g a) :
    (as.map f).sum ≤ (as.map g).sum := by
  induction as with
  | nil => exact Nat.le_refl _
  | cons a as ih => exact Nat.add_le_add (h a) ih

theorem ItemKind.placeholders_le_gaps (k : ItemKind) : k.placeholders ≤ k.gaps := by
  have fields (d : StructDecl) : d.placeholders ≤ d.gaps :=
    sum_map_le d.fields fun f => f.ty.placeholders_le_gaps
  cases k with
  | empty => exact Nat.le_refl _
  | useModule name span => exact Nat.le_refl _
  | fn d =>
    exact Nat.add_le_add (Nat.add_le_add (sum_map_le d.params fun p => p.ty.placeholders_le_gaps)
      (TypeExpr.option_le_gaps d.ret)) d.body.placeholders_le_gaps
  | structs group => exact sum_map_le group.variants fields
  | const name ty value =>
    exact Nat.add_le_add (TypeExpr.option_le_gaps ty) value.placeholders_le_gaps
  | param name ty => exact ty.placeholders_le_gaps
  | assert cond => exact cond.placeholders_le_gaps

theorem Expr.gapsOfList_eq (es : List Expr) : gapsOfList es = (es.map gaps).sum := by
  induction es with
  | nil => rfl
  | cons e es ih => simp [gapsOfList, ih]

theorem TypeExpr.gapsOfList_eq (ts : List TypeExpr) : gapsOfList ts = (ts.map gaps).sum := by
  induction ts with
  | nil => rfl
  | cons t ts ih => simp [gapsOfList, ih]

theorem FieldInit.gapsOfList_eq (fs : List FieldInit) :
    gapsOfList fs = (fs.map (·.value.gaps)).sum := by
  induction fs with
  | nil => rfl
  | cons f fs ih =>
    obtain ⟨name, value⟩ := f
    simp [gapsOfList, ih]

theorem MatchArm.gapsOfList_eq (as : List MatchArm) :
    gapsOfList as = (as.map (·.body.gaps)).sum := by
  induction as with
  | nil => rfl
  | cons a as ih =>
    obtain ⟨pat, body, span⟩ := a
    simp [gapsOfList, ih]

theorem Expr.gaps_moved (e : Expr) (span : Span) : Expr.gaps { e with span } = e.gaps := by
  cases e
  rfl

/-! ## The account of a rule -/

variable {α β : Type}

/-- From this stream on `p` only adds issues, and these, with the debt, cover the weight of its
result. What it leaves to be read is the end of what was. -/
structure PaysAt (s : Stream) (debt : Nat) (p : Parser α) (w : α → Nat) : Prop where
  raised : ∃ raised : Array Issue, (p s).2.issues = s.issues ++ raised ∧
    w (p s).1 ≤ raised.size + debt
  rest : (p s).2.rest <:+ s.rest

def Pays (debt : Nat) (p : Parser α) (w : α → Nat) : Prop := ∀ s, PaysAt s debt p w

namespace PaysAt

variable {s : Stream} {debt : Nat} {p : Parser α} {w : α → Nat}

theorem bind {f : α → Parser β} {w' : β → Nat} (h : PaysAt s debt p w)
    (then_ : PaysAt (p s).2 (w (p s).1) (f (p s).1) w') : PaysAt s debt (p >>= f) w' := by
  obtain ⟨⟨raised, issues, paid⟩, rest⟩ := h
  obtain ⟨⟨more, issues', paid'⟩, rest'⟩ := then_
  refine ⟨⟨raised ++ more, ?_, ?_⟩, rest'.trans rest⟩
  · change (f (p s).1 (p s).2).2.issues = _
    rw [issues', issues, Array.append_assoc]
  · change w' (f (p s).1 (p s).2).1 ≤ _
    rw [Array.size_append]
    omega

theorem more (h : PaysAt s 0 p w) (debt : Nat) : PaysAt s debt p fun a => debt + w a := by
  obtain ⟨⟨raised, issues, paid⟩, rest⟩ := h
  exact ⟨⟨raised, issues, by omega⟩, rest⟩

theorem grows (h : PaysAt s debt p w) : s.issues.size ≤ (p s).2.issues.size := by
  obtain ⟨raised, issues, _⟩ := h.raised
  simp [issues]

/-- Without a report the debt alone covers the weight. -/
theorem quiet (h : PaysAt s debt p w) (same : (p s).2.issues.size = s.issues.size) :
    w (p s).1 ≤ debt := by
  obtain ⟨raised, issues, paid⟩ := h.raised
  rw [issues, Array.size_append] at same
  omega

end PaysAt

namespace Pays

variable {debt : Nat} {p : Parser α} {w : α → Nat} {f : α → Parser β} {w' : β → Nat}

theorem pure {a : α} (h : w a ≤ debt) : Pays debt (pure a) w :=
  fun _ => ⟨⟨#[], Array.append_empty.symm, (Nat.zero_add debt).symm ▸ h⟩, List.suffix_rfl⟩

/-- What the first part leaves is the debt of the second. -/
theorem bind (h : Pays debt p w) (then_ : ∀ a, Pays (w a) (f a) w') : Pays debt (p >>= f) w' :=
  fun s => (h s).bind (then_ _ _)

theorem more (h : Pays 0 p w) (debt : Nat) : Pays debt p fun a => debt + w a :=
  fun s => (h s).more debt

/-- The first part adds to the debt of the second. -/
theorem also (h : Pays 0 p w) (then_ : ∀ a, Pays (debt + w a) (f a) w') :
    Pays debt (p >>= f) w' := (h.more debt).bind then_

/-- A part whose result has no gap. -/
theorem skip (h : Pays 0 p fun _ => 0) (then_ : ∀ a, Pays debt (f a) w') :
    Pays debt (p >>= f) w' := h.also then_

theorem owing {more : Nat} (h : Pays debt p w) (le : debt ≤ more) : Pays more p w := by
  intro s
  obtain ⟨⟨raised, issues, paid⟩, rest⟩ := h s
  exact ⟨⟨raised, issues, by omega⟩, rest⟩

theorem mono {v : α → Nat} (h : Pays debt p w) (less : ∀ a, v a ≤ w a) : Pays debt p v := by
  intro s
  obtain ⟨⟨raised, issues, paid⟩, rest⟩ := h s
  exact ⟨⟨raised, issues, (less _).trans paid⟩, rest⟩

end Pays

/-! ## Reading -/

/-- From `s` to `s'` at least `k` nodes of the level were read, and no node was passed over. -/
structure Stream.Moved (k : Nat) (s s' : Stream) : Prop where
  rest : s'.rest.length + k ≤ s.rest.length
  pos : s.pos + k ≤ s'.pos
  unread : s'.unread = s.unread

namespace Stream.Moved

variable {s s' s'' : Stream} {j k : Nat}

theorem refl (s : Stream) : Moved 0 s s := ⟨Nat.le_refl _, Nat.le_refl _, rfl⟩

theorem trans (first : Moved j s s') (second : Moved k s' s'') : Moved (j + k) s s'' := by
  have := first.rest
  have := first.pos
  have := second.rest
  have := second.pos
  exact ⟨by omega, by omega, second.unread.trans first.unread⟩

theorem weaken (h : Moved j s s') (le : k ≤ j) : Moved k s s' := by
  have := h.rest
  have := h.pos
  exact ⟨by omega, by omega, h.unread⟩

/-- Reading one node. -/
theorem advance (n : Node) (ns : List Node) (rest : s.rest = n :: ns) :
    Moved 1 s (s.advance n ns) :=
  ⟨by simp [Stream.advance, rest], Nat.le_refl _, rfl⟩

end Stream.Moved

/-- From this stream on `p` pays, and reports something or reads at least `k` nodes and passes over
none. -/
structure ReadsAt (s : Stream) (debt k : Nat) (p : Parser α) (w : α → Nat) : Prop where
  pays : PaysAt s debt p w
  quiet : (p s).2.issues.size = s.issues.size → s.Moved k (p s).2

def Reads (debt k : Nat) (p : Parser α) (w : α → Nat) : Prop := ∀ s, ReadsAt s debt k p w

namespace ReadsAt

variable {s : Stream} {debt j k : Nat} {p : Parser α} {w : α → Nat} {f : α → Parser β}
  {w' : β → Nat}

theorem bind (h : ReadsAt s debt j p w) (then_ : ReadsAt (p s).2 (w (p s).1) k (f (p s).1) w') :
    ReadsAt s debt (j + k) (p >>= f) w' := by
  have grows := h.pays.grows
  have grows' := then_.pays.grows
  refine ⟨h.pays.bind then_.pays, fun same => ?_⟩
  have none : (p s).2.issues.size = s.issues.size := by
    change (f (p s).1 (p s).2).2.issues.size = s.issues.size at same
    omega
  exact (h.quiet none).trans (then_.quiet (Eq.trans same none.symm))

theorem weaken (h : ReadsAt s debt j p w) (le : k ≤ j) : ReadsAt s debt k p w :=
  ⟨h.pays, fun same => (h.quiet same).weaken le⟩

/-- The first part reads enough, whatever stream it leaves. -/
theorem first (h : ReadsAt s 0 k p fun _ => 0) (then_ : Reads 0 0 (f (p s).1) w') :
    ReadsAt s 0 k (p >>= f) w' := h.bind (then_ _)

end ReadsAt

namespace Reads

variable {debt j k : Nat} {p : Parser α} {w : α → Nat} {f : α → Parser β} {w' : β → Nat}

theorem pays (h : Reads debt k p w) : Pays debt p w := fun s => (h s).pays

theorem pure {a : α} (h : w a ≤ debt) : Reads debt 0 (pure a) w :=
  fun s => ⟨Pays.pure h s, fun _ => .refl s⟩

theorem weaken (h : Reads debt j p w) (le : k ≤ j) : Reads debt k p w :=
  fun s => (h s).weaken le

theorem more (h : Reads 0 k p w) (debt : Nat) : Reads debt k p fun a => debt + w a :=
  fun s => ⟨h.pays.more debt s, (h s).quiet⟩

theorem mono {v : α → Nat} (h : Reads debt k p w) (less : ∀ a, v a ≤ w a) : Reads debt k p v :=
  fun s => ⟨h.pays.mono less s, (h s).quiet⟩

/-- The second part reads enough. -/
theorem bind (h : Reads debt j p w) (then_ : ∀ a, Reads (w a) k (f a) w') :
    Reads debt k (p >>= f) w' :=
  fun s => ((h s).bind (then_ _ _)).weaken (Nat.le_add_left k j)

/-- The first part reads enough. -/
theorem lead (h : Reads debt k p w) (then_ : ∀ a, Reads (w a) 0 (f a) w') :
    Reads debt k (p >>= f) w' := fun s => (h s).bind (then_ _ _)

/-- The first part adds to the debt of the second, which reads enough. -/
theorem also (h : Reads 0 j p w) (then_ : ∀ a, Reads (debt + w a) k (f a) w') :
    Reads debt k (p >>= f) w' := (h.more debt).bind then_

/-- The result of the first part has no gap, and the second part reads enough. -/
theorem skip (h : Reads 0 j p fun _ => 0) (then_ : ∀ a, Reads debt k (f a) w') :
    Reads debt k (p >>= f) w' := h.also then_

/-- The result of the first part has no gap, and it reads enough. -/
theorem first (h : Reads 0 k p fun _ => 0) (then_ : ∀ a, Reads debt 0 (f a) w') :
    Reads debt k (p >>= f) w' := (h.more debt).lead then_

/-- After a report anything may be passed over. -/
theorem reported (h : Pays 0 p fun _ => 1) (then_ : ∀ a, Pays (debt + 1) (f a) w') :
    Reads debt k (p >>= f) w' := by
  refine fun s => ⟨h.also then_ s, fun same => ?_⟩
  have raised := (h s).quiet
  have grows := (h s).grows
  have grows' := (then_ (p s).1 (p s).2).grows
  change (f (p s).1 (p s).2).2.issues.size = s.issues.size at same
  exact absurd (raised (by omega)) (by simp)

theorem map {g : α → β} (h : Reads debt k p w) (less : ∀ a, w' (g a) ≤ w a) :
    Reads debt k (g <$> p) w' := by
  intro s
  obtain ⟨⟨⟨raised, issues, paid⟩, rest⟩, quiet⟩ := h s
  exact ⟨⟨⟨raised, issues, (less _).trans paid⟩, rest⟩, quiet⟩

end Reads

/-- From this stream on `p` reads a node if it gives something, and leaves all as it is if not. -/
def AcceptsAt (s : Stream) (p : Parser (Option α)) : Prop :=
  (∃ a, (p s).1 = some a ∧ ReadsAt s 0 1 p fun _ => 0) ∨ p s = (none, s)

def Accepts (p : Parser (Option α)) : Prop := ∀ s, AcceptsAt s p

theorem AcceptsAt.takes {s : Stream} {p : Parser (Option α)} (a : α) {n : Node} {ns : List Node}
    (rest : s.rest = n :: ns) (run : p s = (some a, s.advance n ns)) : AcceptsAt s p := by
  refine .inl ⟨a, by rw [run], ⟨⟨#[], ?_, Nat.zero_le _⟩, ?_⟩, ?_⟩ <;> rw [run]
  · exact Array.append_empty.symm
  · exact rest ▸ List.suffix_cons n ns
  · exact fun _ => .advance n ns rest

namespace Accepts

variable {debt k : Nat} {p : Parser (Option α)} {f : Option α → Parser β} {w : β → Nat}

theorem reads (h : Accepts p) : Reads 0 0 p fun _ => 0 := by
  intro s
  rcases h s with ⟨_, _, reads⟩ | stays
  · exact reads.weaken (Nat.zero_le _)
  · refine ⟨⟨⟨#[], ?_, Nat.zero_le _⟩, ?_⟩, ?_⟩ <;> rw [stays]
    · exact Array.append_empty.symm
    · exact fun _ => .refl s

theorem pays (h : Accepts p) : Pays 0 p fun _ => 0 := h.reads.pays

/-- What was accepted counts as one node read. -/
theorem bindAt {s : Stream} (h : Accepts p) (yes : ∀ a, Reads debt (k - 1) (f (some a)) w)
    (no : ReadsAt s debt k (f none) w) : ReadsAt s debt k (p >>= f) w := by
  rcases h s with ⟨a, found, reads⟩ | stays
  · have taken : ReadsAt s debt 1 p fun _ => debt :=
      ⟨h.pays.more debt s, reads.quiet⟩
    have both : ReadsAt s debt (1 + (k - 1)) (p >>= f) w := taken.bind (found ▸ yes a _)
    exact both.weaken (by omega)
  · have same : (p >>= f) s = f none s := by
      change f (p s).1 (p s).2 = f none s
      rw [stays]
    obtain ⟨⟨raised, rest⟩, quiet⟩ := no
    refine ⟨⟨?_, ?_⟩, ?_⟩ <;> rw [same] <;> assumption

theorem bind (h : Accepts p) (yes : ∀ a, Reads debt (k - 1) (f (some a)) w)
    (no : Reads debt k (f none) w) : Reads debt k (p >>= f) w :=
  fun s => h.bindAt yes (no s)

end Accepts

/-- On a stream of at most `n` nodes `p` reports something, or it comes to the end and passes over
none. -/
structure Drains (n debt : Nat) (p : Parser α) (w : α → Nat) : Prop where
  pays : Pays debt p w
  quiet : ∀ s : Stream, s.rest.length ≤ n → (p s).2.issues.size = s.issues.size →
    (p s).2.rest = [] ∧ (p s).2.unread = s.unread

namespace Drains

variable {n debt k : Nat} {p : Parser α} {w : α → Nat} {f : α → Parser β} {w' : β → Nat}

theorem grows (h : Drains n debt p w) (s : Stream) : s.issues.size ≤ (p s).2.issues.size :=
  (h.pays s).grows

/-- There is nothing to read. -/
theorem nothing {a : α} (free : w a ≤ debt) : Drains 0 debt (pure a) w :=
  ⟨.pure free, fun _ none _ => ⟨List.length_eq_zero_iff.mp (Nat.le_zero.mp none), rfl⟩⟩

/-- The second part reads what the first one leaves. -/
theorem bind (h : Reads debt k p w) (then_ : ∀ a, Drains (n - k) (w a) (f a) w') :
    Drains n debt (p >>= f) w' := by
  refine ⟨h.pays.bind fun a => (then_ a).pays, fun s enough same => ?_⟩
  have grows := (h s).pays.grows
  have grows' := (then_ (p s).1).grows (p s).2
  change (f (p s).1 (p s).2).2.issues.size = s.issues.size at same
  have moved := (h s).quiet (by omega)
  have left := moved.rest
  obtain ⟨rest, unread⟩ := (then_ (p s).1).quiet (p s).2 (by omega) (by omega)
  exact ⟨rest, unread.trans moved.unread⟩

theorem also (h : Reads 0 k p w) (then_ : ∀ a, Drains (n - k) (debt + w a) (f a) w') :
    Drains n debt (p >>= f) w' := .bind (h.more debt) then_

theorem skip (h : Reads 0 k p fun _ => 0) (then_ : ∀ a, Drains (n - k) debt (f a) w') :
    Drains n debt (p >>= f) w' := .also h then_

theorem more (h : Drains n 0 p w) (debt : Nat) : Drains n debt p fun a => debt + w a :=
  ⟨h.pays.more debt, h.quiet⟩

/-- The first part has read all. -/
theorem after (h : Drains n debt p w) (then_ : ∀ a, Reads (w a) 0 (f a) w') :
    Drains n debt (p >>= f) w' := by
  refine ⟨h.pays.bind fun a => (then_ a).pays, fun s enough same => ?_⟩
  have grows := h.grows s
  have grows' := (then_ (p s).1 (p s).2).pays.grows
  change (f (p s).1 (p s).2).2.issues.size = s.issues.size at same
  obtain ⟨rest, unread⟩ := h.quiet s enough (by omega)
  have moved := (then_ (p s).1 (p s).2).quiet (by omega)
  have left := moved.rest
  rw [rest] at left
  exact ⟨List.length_eq_zero_iff.mp (Nat.le_zero.mp left), moved.unread.trans unread⟩

theorem reported (h : Pays 0 p fun _ => 1) (then_ : ∀ a, Pays (debt + 1) (f a) w') :
    Drains n debt (p >>= f) w' := by
  have reads : Reads debt (n + 1) (p >>= f) w' := .reported h then_
  refine ⟨reads.pays, fun s enough same => ?_⟩
  have left := ((reads s).quiet same).rest
  omega

/-- What was accepted counts as one node read. -/
theorem accept {p : Parser (Option α)} {f : Option α → Parser β} (h : Accepts p)
    (yes : ∀ a, Drains n debt (f (some a)) w') (no : Drains (n + 1) debt (f none) w') :
    Drains (n + 1) debt (p >>= f) w' := by
  constructor
  · refine h.pays.skip fun found => ?_
    cases found with
    | some a => exact (yes a).pays
    | none => exact no.pays
  · intro s enough
    change (f (p s).1 (p s).2).2.issues.size = s.issues.size → (f (p s).1 (p s).2).2.rest = [] ∧
      (f (p s).1 (p s).2).2.unread = s.unread
    rcases h s with ⟨a, found, reads⟩ | stays
    · rw [found]
      intro same
      have grows := reads.pays.grows
      have grows' := (yes a).grows (p s).2
      have moved := reads.quiet (by omega)
      have left := moved.rest
      obtain ⟨rest, unread⟩ := (yes a).quiet (p s).2 (by omega) (by omega)
      exact ⟨rest, unread.trans moved.unread⟩
    · rw [stays]
      exact no.quiet s enough

end Drains

namespace Parser

/-- What follows a look at the stream starts from that stream. -/
theorem look_readsAt {s : Stream} {debt k : Nat} {f : Stream → α} {q : α → Parser β} {w : β → Nat}
    (h : ReadsAt s debt k (q (f s)) w) : ReadsAt s debt k (look f >>= q) w :=
  ⟨⟨h.pays.raised, h.pays.rest⟩, h.quiet⟩

theorem look_reads (f : Stream → α) : Reads 0 0 (look f) fun _ => 0 :=
  fun s => ⟨⟨⟨#[], Array.append_empty.symm, Nat.zero_le _⟩, List.suffix_rfl⟩, fun _ => .refl s⟩

theorem raise_pays (code : IssueCode) (span : Span) : Pays 0 (raise code span) fun _ => 1 :=
  fun _ => ⟨⟨#[⟨code, span⟩], Array.push_eq_append, by simp⟩, List.suffix_rfl⟩

theorem raise_reads (k : Nat) (code : IssueCode) (span : Span) :
    Reads 0 k (raise code span) fun _ => 1 :=
  fun s => ⟨raise_pays code span s, fun same => by simp [raise] at same⟩

theorem missing_reads (k : Nat) (code : IssueCode) : Reads 0 k (missing code) fun _ => 1 :=
  .skip (look_reads _) fun here => .lead (raise_reads k code here) fun _ => .pure (Nat.le_refl _)

/-- A report that nothing is owed for. -/
theorem raise_free (k : Nat) (code : IssueCode) (span : Span) :
    Reads 0 k (raise code span) fun _ => 0 := (raise_reads k code span).mono fun _ => Nat.zero_le _

theorem missing_free (k : Nat) (code : IssueCode) : Reads 0 k (missing code) fun _ => 0 :=
  (missing_reads k code).mono fun _ => Nat.zero_le _

theorem next_accepts : Accepts next := by
  intro s
  cases rest : s.rest with
  | nil => exact .inr (by simp [next, rest])
  | cons n ns => exact .takes n rest (by simp [next, rest])

/-- A node that is there is read. -/
theorem next_readsAt {s : Stream} (some_ : s.rest ≠ []) : ReadsAt s 0 1 next fun _ => 0 := by
  rcases next_accepts s with ⟨_, _, reads⟩ | stays
  · exact reads
  · cases rest : s.rest with
    | nil => exact absurd rest some_
    | cons n ns =>
      simp only [next, rest] at stays
      cases congrArg Prod.fst stays

theorem acceptAny_accepts (set : TokenKind → Bool) : Accepts (acceptAny set) := by
  intro s
  cases rest : s.rest with
  | nil => exact .inr (by simp [acceptAny, rest])
  | cons n ns =>
    cases n with
    | group g => exact .inr (by simp [acceptAny, rest])
    | token t =>
      by_cases fits : set t.kind = true
      · exact .takes t rest (by simp [acceptAny, rest, fits])
      · exact .inr (by simp [acceptAny, rest, fits])

theorem accept_accepts (kind : TokenKind) : Accepts (accept kind) := acceptAny_accepts _

/-- Where `..` comes next it is read. -/
theorem accept_dots {s : Stream} (dots : s.atToken .dotDot = true) :
    ∃ t, (accept .dotDot s).1 = some t := by
  unfold Stream.atToken Stream.kind? at dots
  unfold accept acceptAny
  split at dots
  · rename_i t _ _
    simp only [beq_iff_eq, Option.some.injEq] at dots
    exact ⟨t, by simp [dots]⟩
  · simp at dots

theorem acceptGroup_accepts (opener : TokenKind) : Accepts (acceptGroup opener) := by
  intro s
  cases rest : s.rest with
  | nil => exact .inr (by simp [acceptGroup, rest])
  | cons n ns =>
    cases n with
    | token t => exact .inr (by simp [acceptGroup, rest])
    | group g =>
      by_cases fits : (g.opener.kind == opener) = true
      · exact .takes g rest (by simp [acceptGroup, rest, fits])
      · exact .inr (by simp [acceptGroup, rest, fits])

theorem expect_reads (kind : TokenKind) (code : IssueCode) :
    Reads 0 1 (expect kind code) fun _ => 0 := by
  apply (accept_accepts kind).bind
  · exact fun _ => .pure (Nat.le_refl _)
  · exact .first (missing_free 1 code) fun _ => .pure (Nat.le_refl _)

theorem skip_issues (set : TokenKind → Bool) (ns : List Node) (s : Stream) :
    (Stream.skip set ns s).issues = s.issues := by
  induction ns generalizing s with
  | nil => rfl
  | cons n ns ih =>
    rw [Stream.skip]
    split
    · rfl
    · exact ih _

theorem skip_rest (set : TokenKind → Bool) (ns : List Node) (s : Stream) (rest : s.rest = ns) :
    (Stream.skip set ns s).rest <:+ ns := by
  induction ns generalizing s with
  | nil => simp [Stream.skip, rest]
  | cons n ns ih =>
    rw [Stream.skip]
    split
    · rw [rest]
    · exact (ih _ rfl).trans (List.suffix_cons n ns)

theorem skipUntil_pays (set : TokenKind → Bool) : Pays 0 (skipUntil set) fun _ => 0 :=
  fun s => ⟨⟨#[], (skip_issues set s.rest s).trans Array.append_empty.symm, Nat.zero_le _⟩,
    skip_rest set s.rest s rfl⟩

theorem finish_drains (n : Nat) : Drains n 0 finish fun _ => 0 := by
  constructor
  · intro s
    cases rest : s.rest with
    | nil => exact ⟨⟨#[], by simp [finish, rest], Nat.zero_le _⟩, by simp [finish, rest]⟩
    | cons m ms =>
      exact ⟨⟨#[⟨.unexpectedToken, m.span⟩], by simp [finish, rest], Nat.zero_le _⟩,
        by simp [finish, rest]⟩
  · intro s _
    cases rest : s.rest with
    | nil =>
      intro _
      simp [finish, rest]
    | cons m ms =>
      intro same
      simp [finish, rest] at same

theorem identOf_reads (t : Token) (sign : Nat) : Reads 0 0 (identOf t sign) fun _ => 0 :=
  fun _ => ⟨⟨⟨#[], Array.append_empty.symm, Nat.zero_le _⟩, List.suffix_rfl⟩,
    fun _ => ⟨Nat.le_refl _, Nat.le_refl _, rfl⟩⟩

theorem ident_reads (code : IssueCode) : Reads 0 1 (ident code) fun _ => 0 := by
  apply (accept_accepts _).bind
  · exact fun t => identOf_reads t 0
  · apply (acceptAny_accepts _).bind
    · exact fun t => .skip (raise_free 0 _ _) fun _ => identOf_reads t 0
    · exact .first (missing_free 1 code) fun _ => .pure (Nat.le_refl _)

/-! ### Whole levels -/

/-- A loop stops at the end. -/
theorem unlessDone_drains {n debt : Nat} {p : Parser α} {w : α → Nat} {a : α} (free : w a ≤ debt)
    (h : Drains n debt p w) :
    Drains n debt (do if ← look Stream.atEnd then pure a else p) w := by
  constructor
  · refine (look_reads _).pays.skip fun done => ?_
    split
    · exact .pure free
    · exact h.pays
  · intro s enough
    change ((if s.atEnd then pure a else p : Parser α) s).2.issues.size = s.issues.size →
      ((if s.atEnd then pure a else p : Parser α) s).2.rest = [] ∧
        ((if s.atEnd then pure a else p : Parser α) s).2.unread = s.unread
    split
    · rename_i done
      intro _
      exact ⟨List.isEmpty_iff.mp done, rfl⟩
    · exact h.quiet s enough

/-- A loop over nodes stops where there is none. -/
theorem next_drains {n debt : Nat} {f : Option Node → Parser β} {w : β → Nat}
    (yes : ∀ m, Drains n debt (f (some m)) w) (no : Reads debt 0 (f none) w) :
    Drains (n + 1) debt (next >>= f) w := by
  constructor
  · refine next_accepts.pays.skip fun found => ?_
    cases found with
    | some m => exact (yes m).pays
    | none => exact no.pays
  · intro s enough
    change (f (next s).1 (next s).2).2.issues.size = s.issues.size →
      (f (next s).1 (next s).2).2.rest = [] ∧ (f (next s).1 (next s).2).2.unread = s.unread
    cases rest : s.rest with
    | nil =>
      have run : next s = (none, s) := by simp [next, rest]
      rw [run]
      intro same
      have moved := (no s).quiet same
      have left := moved.rest
      rw [rest] at left
      exact ⟨List.length_eq_zero_iff.mp (Nat.le_zero.mp left), moved.unread⟩
    | cons m ms =>
      have run : next s = (some m, s.advance m ms) := by simp [next, rest]
      rw [run]
      intro same
      rw [rest, List.length_cons] at enough
      exact (yes m).quiet (s.advance m ms) (Nat.le_of_succ_le_succ enough) same

/-- What lies in a group is read to its end. -/
theorem inside_reads {p : Parser α} {g : Group} {w : α → Nat}
    (h : Drains g.contents.length 0 p w) : Reads 0 0 (inside g p) w := by
  intro s
  let inner : Stream :=
    { rest := g.contents
      stop := Span.point g.closer.span.chunk g.closer.span.start
      last := g.opener.span
      issues := s.issues
      names := s.names
      unread := s.unread }
  refine ⟨⟨(h.pays inner).raised, List.suffix_rfl⟩, fun same => ?_⟩
  obtain ⟨rest, unread⟩ := h.quiet inner (Nat.le_refl _) same
  refine ⟨Nat.le_refl _, Nat.le_refl _, ?_⟩
  change (p inner).2.unread ++ (p inner).2.rest = s.unread
  simp [rest, unread, inner]

theorem separator_pays (before : Nat) : Pays 0 (separator before) fun _ => 0 := by
  refine (look_reads _).pays.skip fun done => ?_
  split
  · exact .pure (Nat.le_refl _)
  refine (accept_accepts _).pays.skip fun found => ?_
  have rest : Pays 0 (do
      skipUntil (· == .comma)
      let _ ← accept .comma) fun _ => 0 :=
    .skip (skipUntil_pays _) fun _ => .skip (accept_accepts _).pays fun _ => .pure (Nat.le_refl _)
  cases found with
  | some _ => exact .pure (Nat.le_refl _)
  | none =>
    refine (look_reads _).pays.skip fun pos => ?_
    split
    · exact .skip (missing_free 0 _).pays fun _ => rest
    · exact rest

/-- After an item that has read something, a comma that is missing is reported before anything is
skipped. -/
theorem separator_readsAt {before : Nat} {s : Stream} (read : before < s.pos) :
    ReadsAt s 0 0 (separator before) fun _ => 0 := by
  apply look_readsAt
  split
  · exact Reads.pure (w := fun _ => 0) (Nat.le_refl _) s
  · apply (accept_accepts .comma).bindAt
    · exact fun _ => .pure (Nat.le_refl _)
    · apply look_readsAt
      have moved : (s.pos != before) = true := by simp; omega
      rw [if_pos moved]
      refine Reads.reported (missing_reads 0 _).pays (fun _ => ?_) s
      exact .skip (skipUntil_pays _) fun _ => .skip (accept_accepts _).pays fun _ =>
        .pure (Nat.zero_le _)

/-- Items that read something each, between commas. -/
theorem separated_drains {n debt : Nat} {item : Parser α} {w : α → Nat} (h : Reads 0 1 item w)
    {f : α → Parser β} {w' : β → Nat} (then_ : ∀ a, Drains n (debt + w a) (f a) w') :
    Drains (n + 1) debt (do
      let before ← look Stream.pos
      let a ← item
      separator before
      f a) w' := by
  constructor
  · refine (look_reads _).pays.skip fun before => h.pays.also fun a => ?_
    exact (separator_pays before).skip fun _ => (then_ a).pays
  · intro s enough same
    have grows := (h s).pays.grows
    have grows' := (separator_pays s.pos (item s).2).grows
    have grows'' := (then_ (item s).1).grows (separator s.pos (item s).2).2
    change (f (item s).1 (separator s.pos (item s).2).2).2.issues.size = s.issues.size at same
    have moved := (h s).quiet (by omega)
    have left := moved.rest
    have moved' := (separator_readsAt (Nat.lt_of_succ_le moved.pos)).quiet (by omega)
    have left' := moved'.rest
    obtain ⟨rest, unread⟩ := (then_ (item s).1).quiet _ (by omega)
      (show (f (item s).1 (separator s.pos (item s).2).2).2.issues.size = _ by omega)
    exact ⟨rest, unread.trans (moved'.unread.trans moved.unread)⟩

theorem items_drains {item : Parser α} {w : α → Nat} (h : Reads 0 1 item w) (rest : Bool)
    (n : Nat) : Drains n 0 (items rest item n) fun r => (r.1.map w).sum := by
  induction n with
  | zero =>
    rw [items]
    exact .nothing (Nat.le_refl _)
  | succ n ih =>
    rw [items]
    refine unlessDone_drains (Nat.zero_le _) ?_
    apply Drains.accept (accept_accepts .dotDot)
    · intro dots
      dsimp only
      split
      · exact .skip (accept_accepts .comma).reads fun _ =>
          .after (finish_drains _) fun _ => .pure (Nat.le_refl _)
      · apply Drains.reported (raise_pays _ _)
        intro _
        exact .skip (accept_accepts _).pays fun _ => ih.pays.owing (Nat.zero_le _)
    · exact separated_drains h fun a => .after (ih.more _) fun _ => .pure (by simp)

theorem commaList_reads {item : Parser α} {w : α → Nat} (h : Reads 0 1 item w) (g : Group)
    (empty : Option IssueCode) (rest : Bool) :
    Reads 0 0 (commaList g empty rest item) fun r => (r.1.map w).sum := by
  apply inside_reads
  apply Drains.after (items_drains h rest _)
  intro r
  obtain ⟨as, dots⟩ := r
  cases empty with
  | some code =>
    dsimp only
    split
    · exact .skip (missing_free 0 code) fun _ => .pure (Nat.le_refl _)
    · exact .pure (Nat.le_refl _)
  | none => exact .pure (Nat.le_refl _)

/-- A list of parts without gaps. -/
theorem commaList_free {item : Parser α} (h : Reads 0 1 item fun _ => 0) (g : Group)
    (empty : Option IssueCode) (rest : Bool) : Reads 0 0 (commaList g empty rest item) fun _ => 0 :=
  (commaList_reads h g empty rest).mono fun _ => Nat.zero_le _

end Parser
end Ember

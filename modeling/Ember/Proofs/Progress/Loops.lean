import Ember.Proofs.Progress.Rules

/-!
# Parsing comes to an end

Where an expression, a pattern or a type starts, its rule reads a node. So does every round of a
loop: the loops stop before their rounds are used up, and calls of rules never nest as deep as they
may. This holds at every level of the tree of a text, where brackets open groups and stand nowhere
else. A bracket that stood alone would start an expression that no rule reads.
-/

set_option autoImplicit false

namespace Ember

variable {α : Type}

/-! ## The levels of a tree -/

def Node.Bracketed : Node → Prop
  | .token t => t.kind.isOpenBracket = false
  | .group g => g.opener.kind.isOpenBracket = true

def Stream.Bracketed (s : Stream) : Prop := ∀ n ∈ s.rest, n.Bracketed

/-- The stream reads a level of the tree, and may have read some of it. -/
def TokenTree.HasLevel (t : TokenTree) (s : Stream) : Prop :=
  s.rest <:+ t.nodes ∨ ∃ g ∈ Node.groupsOfList t.nodes, s.rest <:+ g.contents

theorem Stream.atEnd_iff {s : Stream} : s.atEnd = true ↔ s.rest = [] := List.isEmpty_iff

theorem Stream.Bracketed.onward {s t : Stream} (h : s.Bracketed) (onward : s.Onward t) :
    t.Bracketed := fun n member => h n (onward.rest.subset member)

namespace Node

theorem groups_subset {n : Node} {ns : List Node} (member : n ∈ ns) :
    n.groups ⊆ groupsOfList ns := by
  obtain ⟨before, after, rfl⟩ := List.append_of_mem member
  simp [groupsOfList_append, groupsOfList]

theorem leaves_subset {n : Node} {ns : List Node} (member : n ∈ ns) :
    n.leaves ⊆ leavesOfList ns := by
  obtain ⟨before, after, rfl⟩ := List.append_of_mem member
  simp [leavesOfList_append, leavesOfList]

mutual

/-- What lies in a group of a node lies in the node. -/
theorem contents_subset : ∀ (n : Node) (g : Group), g ∈ n.groups →
    groupsOfList g.contents ⊆ n.groups ∧ leavesOfList g.contents ⊆ n.leaves
  | .token _, g, member => by simp [groups] at member
  | .group ⟨opener, closer, contents⟩, g, member => by
    rw [groups, List.mem_cons] at member
    rcases member with rfl | inside
    · exact ⟨List.subset_cons_self _ _, List.Subset.refl _⟩
    · obtain ⟨groups, leaves⟩ := contents_subset_list contents g inside
      exact ⟨List.Subset.trans groups (List.subset_cons_self _ _), leaves⟩

theorem contents_subset_list : ∀ (ns : List Node) (g : Group), g ∈ groupsOfList ns →
    groupsOfList g.contents ⊆ groupsOfList ns ∧ leavesOfList g.contents ⊆ leavesOfList ns
  | [], g, member => by simp [groupsOfList] at member
  | n :: ns, g, member => by
    rw [groupsOfList, List.mem_append] at member
    rw [groupsOfList, leavesOfList]
    rcases member with here | later
    · obtain ⟨groups, leaves⟩ := contents_subset n g here
      exact ⟨List.subset_append_of_subset_left _ groups, List.subset_append_of_subset_left _ leaves⟩
    · obtain ⟨groups, leaves⟩ := contents_subset_list ns g later
      exact ⟨List.subset_append_of_subset_right _ groups,
        List.subset_append_of_subset_right _ leaves⟩

end

end Node

theorem Matched.bracketed {issues : Array Issue} {ns : List Node} (level : Matched issues ns)
    {n : Node} (member : n ∈ ns) : n.Bracketed := by
  cases n with
  | token t => exact (level.leaves t (Node.leaves_subset member (by simp [Node.leaves]))).1
  | group g =>
    have inside : g ∈ Node.groupsOfList ns :=
      Node.groups_subset member (by simp [Node.groups_group])
    have matched := (level.groups g inside).matched
    unfold Node.Bracketed
    cases kind : g.opener.kind <;> simp_all [TokenKind.closing?, TokenKind.isOpenBracket]

theorem TokenTree.HasLevel.bracketed {chunk : Nat} {text : String} {s : Stream}
    (h : (TokenTree.ofText chunk text).1.HasLevel s) : s.Bracketed := by
  have level := (TokenTree.ofText_level chunk text).1
  intro n member
  rcases h with top | ⟨g, inside, part⟩
  · exact level.bracketed (top.subset member)
  · obtain ⟨groups, leaves⟩ := Node.contents_subset_list _ g inside
    have contents : Matched (TokenTree.ofText chunk text).2.toArray g.contents :=
      ⟨fun t found => level.leaves t (leaves found), fun t found => level.real t (leaves found),
        fun e found => level.groups e (groups found)⟩
    exact contents.bracketed (part.subset member)

/-! ## Loops -/

/-- Rounds beyond the length of the level change nothing, for a loop that stops at the end of the
level and whose every round reads a node. -/
theorem rounds_enough {loop : Nat → Parser α}
    (stop : ∀ n s, s.rest = [] → loop n s = loop 0 s)
    (round : ∀ n m s, s.Bracketed → s.rest ≠ [] →
      (∀ t, s.Onward t → s.pos < t.pos → loop n t = loop m t) → loop (n + 1) s = loop (m + 1) s)
    {n m : Nat} {s : Stream} (level : s.Bracketed) (left : s.rest.length ≤ n)
    (right : s.rest.length ≤ m) : loop n s = loop m s := by
  induction n generalizing m s with
  | zero => exact (stop m s (List.length_eq_zero_iff.mp (Nat.le_zero.mp left))).symm
  | succ n ih =>
    by_cases none : s.rest = []
    · exact (stop _ s none).trans (stop m s none).symm
    · have some_ := List.length_pos_of_ne_nil none
      obtain ⟨m, rfl⟩ := Nat.exists_eq_succ_of_ne_zero (by omega : m ≠ 0)
      refine round n m s level none fun t onward moves => ?_
      have less := onward.pos_lt_iff.mp moves
      exact ih (level.onward onward) (by omega) (by omega)

namespace Parser

/-- One round of a list: the item, if there is one, and whether more may follow. -/
def entry (rest : Bool) (item : Parser α) : Parser (List α × Bool) := do
  match ← accept .dotDot with
  | some dots =>
    if rest then
      let _ ← accept .comma
      finish
      return ([], false)
    else
      raise .restNotAllowed dots.span
      let _ ← accept .comma
      return ([], true)
  | none =>
    let before ← look Stream.pos
    let a ← item
    separator before
    return ([a], true)

theorem items_eq_entry (rest : Bool) (item : Parser α) (n : Nat) :
    items rest item (n + 1) = (do
      if ← look Stream.atEnd then return ([], false)
      let (as, more) ← entry rest item
      if more then
        let (others, dots) ← items rest item n
        return (as ++ others, dots)
      else return (as, true)) := by
  funext s
  rw [items, entry, look_bind, look_bind]
  split
  · rfl
  · simp only [bind_assoc]
    rw [run_bind, run_bind]
    cases (accept .dotDot s).1 with
    | some dots => cases rest <;> rfl
    | none => rfl

theorem skip_pos_lt {set : TokenKind → Bool} {n : Node} {ns : List Node} {s : Stream}
    (rest : s.rest = n :: ns) (other : set n.kind = false) :
    s.pos < (Stream.skip set s.rest s).pos := by
  rw [rest, Stream.skip, if_neg (by simp [other])]
  have onward := skip_onward set ns { s.advance n ns with unread := s.unread.push n } rfl
  exact (Nat.lt_succ_self s.pos).trans_le onward.pos_le

/-- A comma is read, or what stands before the next one. -/
theorem separator_moves (before : Nat) {s : Stream} (level : s.Bracketed) (some_ : s.rest ≠ []) :
    MovesAt (separator before) s := by
  unfold MovesAt separator
  rw [look_bind, if_neg (mt Stream.atEnd_iff.mp some_), run_bind]
  rcases acceptAny_picks (· == .comma) s with run | ⟨t, n, ns, -, -, run⟩
  · rw [accept, run]
    obtain ⟨n, ns, rest⟩ := List.exists_cons_of_ne_nil some_
    have other : (n.kind == .comma) = false := by
      rw [← Bool.not_eq_true]
      intro comma
      cases n with
      | token t =>
        simp only [acceptAny, rest, show (t.kind == .comma) = true from comma, if_true] at run
        cases run
      | group g =>
        have opener := level (.group g) (by simp [rest])
        have kind : g.opener.kind = .comma := eq_of_beq comma
        simp [Node.Bracketed, kind, TokenKind.isOpenBracket] at opener
    have skips (t : Stream) (same : t.rest = n :: ns) (pos : t.pos = s.pos) :
        MovesAt (do skipUntil (· == .comma); let _ ← accept .comma) t :=
      MovesAt.bind (skip_pos_lt same other) fun _ =>
        ((accept_onwards _).bind fun _ => .pure ()) _
    dsimp only
    rw [look_bind]
    split
    · exact skips { s with issues := s.issues.push ⟨.expectedComma, s.here⟩ } rest rfl
    · exact skips s rest rfl
  · rw [accept, run]
    exact Nat.lt_succ_self _

theorem entry_moves {rest : Bool} {item : Parser α} (h : Onwards item) {s : Stream}
    (level : s.Bracketed) (some_ : s.rest ≠ []) : MovesAt (entry rest item) s := by
  unfold MovesAt entry
  rw [run_bind]
  rcases acceptAny_picks (· == .dotDot) s with run | ⟨t, n, ns, rest', -, run⟩
  · rw [accept, run]
    dsimp only
    rw [look_bind, run_bind, run_bind]
    by_cases done : (item s).2.rest = []
    · have less := (h s).pos_lt_iff.mpr (by rw [done]; exact List.length_pos_of_ne_nil some_)
      exact less.trans_le (separator_onwards s.pos _).pos_le
    · exact (h s).pos_le.trans_lt (separator_moves s.pos (level.onward (h s)) done)
  · rw [accept, run]
    dsimp only
    have moved : s.pos < (s.advance n ns).pos := Nat.lt_succ_self _
    split
    · exact moved.trans_le (((accept_onwards _).bind fun _ => finish_onwards.bind fun _ =>
        .pure _) _).pos_le
    · exact moved.trans_le (((raise_onwards _ _).bind fun _ => (accept_onwards _).bind fun _ =>
        .pure _) _).pos_le

theorem entry_onwards {rest : Bool} {item : Parser α} (h : Onwards item) :
    Onwards (entry rest item) := by
  refine (accept_onwards _).bind fun found => ?_
  cases found with
  | some dots =>
    dsimp only
    split
    · exact (accept_onwards _).bind fun _ => finish_onwards.bind fun _ => .pure _
    · exact (raise_onwards _ _).bind fun _ => (accept_onwards _).bind fun _ => .pure _
  | none =>
    exact (look_onwards _).bind fun before => h.bind fun _ => (separator_onwards _).bind fun _ =>
      .pure _

theorem items_enough {rest : Bool} {item : Parser α} (h : Onwards item) {s : Stream}
    (level : s.Bracketed) (n : Nat) :
    items rest item (s.rest.length + n) s = items rest item s.rest.length s := by
  refine rounds_enough (fun n s none => ?_) (fun n m s level some_ same => ?_) level
    (Nat.le_add_right _ n) (Nat.le_refl _)
  · cases n with
    | zero => rfl
    | succ n =>
      rw [items_eq_entry, look_bind, if_pos (Stream.atEnd_iff.mpr none)]
      rfl
  · have more := mt Stream.atEnd_iff.mp some_
    rw [items_eq_entry, items_eq_entry, look_bind, look_bind, if_neg more, if_neg more, run_bind,
      run_bind]
    have moves : MovesAt (entry rest item) s := entry_moves h level some_
    have rounds := same _ (entry_onwards h s) moves
    obtain ⟨as, follows⟩ := (entry rest item s).1
    dsimp only
    split
    · rw [run_bind, run_bind, rounds]
    · rfl

end Parser

/-! ## Rules -/

namespace Grammar

open Ember.Parser

variable {g : Grammar} {s : Stream}

theorem ofDepth_self (n w : Nat) : (ofDepth n).Accords w (ofDepth n) :=
  ofDepth_accords (k := 0) (.inr rfl)

theorem Agreeing.onwards {p : Parser α} (h : ∀ w, Agreeing w p p) : Onwards p :=
  fun s => (h (s.weight + 1) s (Nat.lt_succ_self _)).1

theorem starts_of_atExpr (level : s.Bracketed) (start : atExpr s = true) : Starts s :=
  ⟨start, fun t ns rest => level (.token t) (by simp [rest])⟩

theorem exprRule_moves (n : Nat) (structs : Bool) (level : s.Bracketed) (start : atExpr s = true) :
    MovesAt (exprRule (ofDepth n) structs) s :=
  (exprRule_startAt (ofDepth_self n s.weight) structs (Nat.lt_succ_self _)).2
    (starts_of_atExpr level start)

theorem patRule_moves (n : Nat) (code : IssueCode) (start : s.atAny startsPat = true) :
    MovesAt (patRule (ofDepth n) code) s := by
  have some_ : s.rest ≠ [] := by
    intro none
    simp [Stream.atAny, Stream.anyKind?, Stream.peek?, none] at start
  unfold MovesAt patRule
  rw [look_bind, if_pos start]
  exact (patAtom_starting (ofDepth_self n s.weight)).moves s (Nat.lt_succ_self _) some_

theorem typeRule_moves (n : Nat) (code : IssueCode) (level : s.Bracketed)
    (start : s.atAny startsType = true) : MovesAt (typeRule (ofDepth n) code) s := by
  refine (typeRule_startAt (ofDepth_self n s.weight) code (Nat.lt_succ_self _)).2 ?_
  unfold Stream.atAny Stream.anyKind? Stream.peek? at start
  unfold Stream.atGroup Stream.atToken Stream.kind?
  cases rest : s.rest with
  | nil => simp [rest] at start
  | cons m ns =>
    have bracketed := level m (by simp [rest])
    simp only [rest, List.head?_cons, Option.map_some, Option.getD_some] at start
    cases m with
    | token t =>
      change startsType t.kind = true at start
      unfold startsType at start
      split at start <;> simp_all [Node.Bracketed, TokenKind.isOpenBracket]
    | group g =>
      change startsType g.opener.kind = true at start
      unfold startsType at start
      split at start <;> simp_all [Node.Bracketed, TokenKind.isOpenBracket]

theorem item_moves (n : Nat) (some_ : s.rest ≠ []) : MovesAt (item (ofDepth n)) s :=
  (item_starting (ofDepth_self n (s.weight + 1))).moves s (Nat.lt_succ_self _) some_

theorem statement_moves (n : Nat) (level : s.Bracketed) (some_ : s.rest ≠ []) :
    MovesAt (statement (ofDepth (n + 1))) s :=
  (statement_startAt (ofDepth_self (n + 1) (s.weight + 1)) (Nat.lt_succ_self _)).2
    ⟨some_, exprRule_moves n true level⟩

theorem postfixStep_moves (n : Nat) {base e : Expr}
    (found : (postfixStep (ofDepth n) base s).1 = some e) :
    MovesAt (postfixStep (ofDepth n) base) s := by
  have onward := (postfixStep_agreeing (ofDepth_self n s.weight) base s (Nat.lt_succ_self _)).1
  refine onward.pos_lt_iff.mpr ?_
  rcases postfixStep_takes (ofDepth_reading n) base s with less | ⟨none, -⟩
  · exact less
  · rw [found] at none
    cases none

theorem scriptItems_enough (n rounds : Nat) (level : s.Bracketed) :
    scriptItems (ofDepth n) (s.rest.length + rounds) s =
      scriptItems (ofDepth n) s.rest.length s := by
  refine rounds_enough (fun m s none => ?_) (fun m k s level some_ same => ?_) level
    (Nat.le_add_right _ rounds) (Nat.le_refl _)
  · cases m with
    | zero => rfl
    | succ m =>
      conv_lhs => rw [scriptItems, look_bind, if_pos (Stream.atEnd_iff.mpr none)]
      rfl
  · have more := mt Stream.atEnd_iff.mp some_
    have onward := (item_starting (ofDepth_self n (s.weight + 1))).agreeing s (Nat.lt_succ_self _)
    rw [scriptItems, scriptItems, look_bind, look_bind, if_neg more, if_neg more, look_bind,
      look_bind, run_bind (item _), run_bind (item _), look_bind, look_bind,
      run_bind (scriptItems _ _), run_bind (scriptItems _ _),
      same _ onward.1 (item_moves n some_)]

theorem statements_enough (n rounds : Nat) (level : s.Bracketed) :
    statements (ofDepth (n + 1)) (s.rest.length + rounds) s =
      statements (ofDepth (n + 1)) s.rest.length s := by
  refine rounds_enough (fun m s none => ?_) (fun m k s level some_ same => ?_) level
    (Nat.le_add_right _ rounds) (Nat.le_refl _)
  · cases m with
    | zero => rfl
    | succ m =>
      conv_lhs => rw [statements, look_bind, if_pos (Stream.atEnd_iff.mpr none)]
      rfl
  · have more := mt Stream.atEnd_iff.mp some_
    have both := statement_startAt (ofDepth_self (n + 1) (s.weight + 1)) (Nat.lt_succ_self s.weight)
    have rounds := same _ both.1.1 (statement_moves n level some_)
    rw [statements, statements, look_bind, look_bind, if_neg more, if_neg more, look_bind,
      look_bind, run_bind, run_bind]
    cases (statement (ofDepth (n + 1)) s).1 with
    | inr tail => rfl
    | inl kind =>
      dsimp only
      rw [look_bind, look_bind, run_bind, run_bind, rounds]

theorem postfixes_rounds (n rounds : Nat) (base : Expr) :
    postfixes (ofDepth n) (s.rest.length + rounds) base s =
      postfixes (ofDepth n) s.rest.length base s := by
  induction rounds with
  | zero => rfl
  | succ rounds ih =>
    exact (postfixes_enough (ofDepth_reading n) _ base s (Nat.le_add_right _ rounds)).trans ih

/-! ## Lists -/

inductive ListItem (g : Grammar) : {α : Type} → Parser α → Prop
  | expr : ListItem g (exprOr (g.expr true) .expectedExpression)
  | type : ListItem g (g.type .expectedType)
  | pat : ListItem g (g.pat .expectedPattern)
  | fieldPat : ListItem g (fieldPat g)
  | fieldInit : ListItem g (fieldInit g)
  | matchArm : ListItem g (matchArm g)
  | generic : ListItem g (ident .expectedGenericName)
  | typedName (nameCode typeCode : IssueCode) : ListItem g (typedName g nameCode typeCode)

theorem ListItem.onwards {n : Nat} {item : Parser α} (h : (ofDepth n).ListItem item) :
    Onwards item := by
  have self := ofDepth_self n
  cases h with
  | expr => exact Agreeing.onwards fun w => (self w).exprOr true _
  | type => exact Agreeing.onwards fun w => (self w).type _
  | pat => exact Agreeing.onwards fun w => (self w).pat _
  | fieldPat => exact Agreeing.onwards fun w => fieldPat_agreeing (self w)
  | fieldInit => exact Agreeing.onwards fun w => fieldInit_agreeing (self w)
  | matchArm => exact Agreeing.onwards fun w => matchArm_agreeing (self w)
  | generic => exact ident_onwards _
  | typedName => exact Agreeing.onwards fun w => typedName_agreeing (self w) _ _

/-! ## Progress -/

/-- Rules read a node where they start, and so does every round of a loop; hence rounds beyond the
length of the level change nothing. -/
structure Progresses (g : Grammar) (s : Stream) : Prop where
  expr : ∀ structs, atExpr s = true → MovesAt (exprRule g structs) s
  pat : ∀ code, s.atAny startsPat = true → MovesAt (patRule g code) s
  type : ∀ code, s.atAny startsType = true → MovesAt (typeRule g code) s
  item : s.atEnd = false → MovesAt (item g) s
  statement : s.atEnd = false → MovesAt (statement g) s
  entry : ∀ {α : Type} (rest : Bool) (item : Parser α), g.ListItem item → s.atEnd = false →
    MovesAt (entry rest item) s
  postfixStep : ∀ base e, (postfixStep g base s).1 = some e → MovesAt (postfixStep g base) s
  scriptItems : ∀ n, scriptItems g (s.rest.length + n) s = scriptItems g s.rest.length s
  statements : ∀ n, statements g (s.rest.length + n) s = statements g s.rest.length s
  items : ∀ {α : Type} (rest : Bool) (item : Parser α), g.ListItem item → ∀ n,
    items rest item (s.rest.length + n) s = items rest item s.rest.length s
  postfixes : ∀ base n, postfixes g (s.rest.length + n) base s = postfixes g s.rest.length base s

theorem ofDepth_progresses (n : Nat) (level : s.Bracketed) : (ofDepth (n + 1)).Progresses s := by
  have some_ (more : s.atEnd = false) : s.rest ≠ [] := by
    intro none
    rw [Stream.atEnd_iff.mpr none] at more
    cases more
  exact
    { expr := fun structs => exprRule_moves _ structs level
      pat := fun code => patRule_moves _ code
      type := fun code => typeRule_moves _ code level
      item := fun more => item_moves _ (some_ more)
      statement := fun more => statement_moves n level (some_ more)
      entry := fun rest item listed more => entry_moves listed.onwards level (some_ more)
      postfixStep := fun base e => postfixStep_moves _
      scriptItems := fun rounds => scriptItems_enough _ rounds level
      statements := fun rounds => statements_enough n rounds level
      items := fun rest item listed rounds => items_enough listed.onwards level rounds
      postfixes := fun base rounds => postfixes_rounds _ rounds base }

end Grammar

/-- At every level of the tree of a text the rules read a node where they start, and so does every
round of a loop. Parsing stops by itself: neither more rounds nor deeper rules change anything. -/
theorem TokenTree.grammar_progresses (chunk : Nat) (text : String) :
    (∀ s, (ofText chunk text).1.HasLevel s → ∀ n, (Grammar.ofDepth (n + 1)).Progresses s) ∧
    ∀ s, s.rest = (ofText chunk text).1.nodes → ∀ n, (ofText chunk text).1.tokens.length < n →
      Script.parser (Grammar.ofDepth n) s = Script.parser (ofText chunk text).1.grammar s ∧
      Expr.parser (Grammar.ofDepth n) s = Expr.parser (ofText chunk text).1.grammar s := by
  refine ⟨fun s level n => Grammar.ofDepth_progresses n level.bracketed, fun s whole n deep => ?_⟩
  have light : s.weight < (ofText chunk text).1.tokens.length + 1 := by
    rw [Stream.weight, whole]
    exact Nat.lt_succ_self _
  obtain ⟨k, rfl⟩ := Nat.exists_eq_add_of_le (Nat.succ_le_of_lt deep)
  exact ⟨(Script.parser_agreeing s light).2.symm, (Expr.parser_agreeing s light).2.symm⟩

/-- `..` starts an expression, though no operand stands there. -/
theorem TokenTree.grammar_progresses_dots :
    Grammar.atExpr (Stream.ofTree (ofText 0 "..").1) = true ∧
      MovesAt (Grammar.exprRule (Grammar.ofDepth 1) true) (Stream.ofTree (ofText 0 "..").1) ∧
      Expr.parser (Grammar.ofDepth 7) (Stream.ofTree (ofText 0 "..").1) =
        Expr.parser (ofText 0 "..").1.grammar (Stream.ofTree (ofText 0 "..").1) := by
  have start : Grammar.atExpr (Stream.ofTree (ofText 0 "..").1) = true := by decide +kernel
  have few : (ofText 0 "..").1.tokens.length < 7 := by decide +kernel
  obtain ⟨progresses, deep⟩ := grammar_progresses 0 ".."
  exact ⟨start, (progresses _ (.inl (List.suffix_refl _)) 0).expr true start,
    (deep _ rfl 7 few).2⟩

end Ember

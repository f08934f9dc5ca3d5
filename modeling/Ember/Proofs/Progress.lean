import Ember.Proofs.Rounds
import Ember.Proofs.Scan.Brackets

/-!
# Rules read on

A rule leaves a stream that is further along the same level. It calls other rules only after it has
read a node, or inside of a group, where fewer tokens are left. So rules that nest deeper than there
are tokens give what the rules of that depth give: no call is refused because of its depth.
-/

set_option autoImplicit false

namespace Ember

variable {α β γ : Type}

/-! ## Further along a level -/

def Stream.weight (s : Stream) : Nat := (Node.tokensOfList s.rest).length

def Group.weight (g : Group) : Nat := (Node.tokensOfList g.contents).length

/-- `t` is what is left of `s` after some of its nodes were read. -/
structure Stream.Onward (s t : Stream) : Prop where
  rest : t.rest <:+ s.rest
  pos : t.pos + t.rest.length = s.pos + s.rest.length

namespace Stream.Onward

variable {s t u : Stream}

theorem refl (s : Stream) : s.Onward s := ⟨List.suffix_refl _, rfl⟩

theorem trans (first : s.Onward t) (second : t.Onward u) : s.Onward u :=
  ⟨second.rest.trans first.rest, second.pos.trans first.pos⟩

theorem advance {n : Node} {ns : List Node} (rest : s.rest = n :: ns) :
    s.Onward (s.advance n ns) := by
  refine ⟨rest ▸ List.suffix_cons n ns, ?_⟩
  simp only [Stream.advance, rest, List.length_cons]
  omega

theorem length_le (h : s.Onward t) : t.rest.length ≤ s.rest.length := h.rest.length_le

theorem pos_le (h : s.Onward t) : s.pos ≤ t.pos := by
  have := h.pos
  have := h.length_le
  omega

theorem pos_lt_iff (h : s.Onward t) : s.pos < t.pos ↔ t.rest.length < s.rest.length := by
  have := h.pos
  omega

theorem weight_le (h : s.Onward t) : t.weight ≤ s.weight := by
  obtain ⟨front, rest⟩ := h.rest
  rw [Stream.weight, Stream.weight, ← rest, Node.tokensOfList_append, List.length_append]
  exact Nat.le_add_left _ _

end Stream.Onward

theorem Stream.weight_advance {s : Stream} {n : Node} {ns : List Node} (rest : s.rest = n :: ns) :
    (s.advance n ns).weight + n.tokens.length = s.weight := by
  rw [Stream.weight, Stream.weight, rest, Node.tokensOfList, List.length_append, Nat.add_comm]
  rfl

theorem Node.tokens_pos (n : Node) : 0 < n.tokens.length := by
  cases n with
  | token t => exact Nat.one_pos
  | group g => simp [Node.tokens_group]

theorem Stream.rest_of_atToken {s : Stream} {kind : TokenKind} (found : s.atToken kind = true) :
    ∃ t ns, s.rest = .token t :: ns ∧ t.kind = kind := by
  unfold Stream.atToken Stream.kind? at found
  split at found
  · rename_i t ns rest
    exact ⟨t, ns, rest, by simpa using found⟩
  · simp at found

/-! ## Parsers that agree -/

def AgreeAt (p p' : Parser α) (s : Stream) : Prop := s.Onward (p s).2 ∧ p s = p' s

/-- Both read on, and do the same, where fewer than `w` tokens are left. -/
def Agreeing (w : Nat) (p p' : Parser α) : Prop := ∀ s, s.weight < w → AgreeAt p p' s

def Onwards (p : Parser α) : Prop := ∀ s : Stream, s.Onward (p s).2

theorem Onwards.bind {p : Parser α} {f : α → Parser β} (h : Onwards p)
    (then_ : ∀ a, Onwards (f a)) : Onwards (p >>= f) :=
  fun s => (h s).trans (then_ (p s).1 (p s).2)

theorem Onwards.agreeing {p : Parser α} (h : Onwards p) {w : Nat} : Agreeing w p p :=
  fun s _ => ⟨h s, rfl⟩

theorem Onwards.pure (a : α) : Onwards (pure a) := Stream.Onward.refl

theorem AgreeAt.bind {p p' : Parser α} {f f' : α → Parser β} {s : Stream} (h : AgreeAt p p' s)
    (then_ : ∀ a, AgreeAt (f a) (f' a) (p s).2) : AgreeAt (p >>= f) (p' >>= f') s := by
  refine ⟨h.1.trans (then_ _).1, ?_⟩
  change f (p s).1 (p s).2 = f' (p' s).1 (p' s).2
  rw [← h.2]
  exact (then_ _).2

theorem AgreeAt.pure (a : α) (s : Stream) : AgreeAt (pure a) (pure a) s := ⟨.refl s, rfl⟩

theorem AgreeAt.look {f : Stream → α} {q q' : α → Parser β} {s : Stream}
    (h : AgreeAt (q (f s)) (q' (f s)) s) : AgreeAt (Parser.look f >>= q) (Parser.look f >>= q') s :=
  h

namespace Agreeing

variable {w : Nat} {p p' : Parser α} {f f' : α → Parser β}

theorem pure (a : α) : Agreeing w (pure a) (pure a) := (Onwards.pure a).agreeing

theorem bind (h : Agreeing w p p') (then_ : ∀ a, Agreeing w (f a) (f' a)) :
    Agreeing w (p >>= f) (p' >>= f') := fun s light =>
  (h s light).bind fun a => then_ a _ ((h s light).1.weight_le.trans_lt light)

theorem map (h : Agreeing w p p') (f : α → β) : Agreeing w (f <$> p) (f <$> p') := fun s light =>
  ⟨(h s light).1, congrArg (fun r : α × Stream => (f r.1, r.2)) (h s light).2⟩

/-- What follows a part that is the same in both. -/
theorem after (h : Onwards p) (then_ : ∀ a, Agreeing w (f a) (f' a)) :
    Agreeing w (p >>= f) (p >>= f') := h.agreeing.bind then_

theorem mono {v : Nat} (h : Agreeing w p p') (le : v ≤ w) : Agreeing v p p' :=
  fun s light => h s (light.trans_le le)

end Agreeing

/-! ## Parsers that read a node -/

def MovesAt (p : Parser α) (s : Stream) : Prop := s.pos < (p s).2.pos

structure Starting (w : Nat) (p p' : Parser α) : Prop where
  agreeing : Agreeing w p p'
  moves : ∀ s, s.weight < w → s.rest ≠ [] → MovesAt p s

theorem MovesAt.bind {p : Parser α} {f : α → Parser β} {s : Stream} (h : MovesAt p s)
    (then_ : ∀ a, (p s).2.Onward (f a (p s).2).2) : MovesAt (p >>= f) s :=
  h.trans_le (then_ (p s).1).pos_le

namespace Starting

variable {w : Nat} {p p' : Parser α} {f f' : α → Parser β}

theorem bind (h : Starting w p p') (then_ : ∀ a, Agreeing w (f a) (f' a)) :
    Starting w (p >>= f) (p' >>= f') := by
  refine ⟨h.agreeing.bind then_, fun s light some_ => (h.moves s light some_).bind fun a => ?_⟩
  exact (then_ a _ ((h.agreeing s light).1.weight_le.trans_lt light)).1

theorem map (h : Starting w p p') (f : α → β) : Starting w (f <$> p) (f <$> p') :=
  ⟨h.agreeing.map f, h.moves⟩

theorem look {f : Stream → α} {q q' : α → Parser β} (h : ∀ a, Starting w (q a) (q' a)) :
    Starting w (Parser.look f >>= q) (Parser.look f >>= q') :=
  ⟨fun s light => (h (f s)).agreeing s light, fun s light => (h (f s)).moves s light⟩

end Starting

namespace Parser

variable {w : Nat}

theorem look_onwards (f : Stream → α) : Onwards (look f) := Stream.Onward.refl

theorem raise_onwards (code : IssueCode) (span : Span) : Onwards (raise code span) :=
  fun _ => ⟨List.suffix_refl _, rfl⟩

theorem missing_onwards (code : IssueCode) : Onwards (missing code) :=
  fun _ => ⟨List.suffix_refl _, rfl⟩

theorem identOf_onwards (t : Token) (sign : Nat) : Onwards (identOf t sign) :=
  fun _ => ⟨List.suffix_refl _, rfl⟩

/-- `o` finds nothing, or reads a node that gives what it finds. -/
def Picks (o : Parser (Option α)) (R : α → Node → Prop) : Prop :=
  ∀ s, o s = (none, s) ∨ ∃ a n ns, s.rest = n :: ns ∧ R a n ∧ o s = (some a, s.advance n ns)

theorem Picks.onwards {o : Parser (Option α)} {R : α → Node → Prop} (h : Picks o R) :
    Onwards o := by
  intro s
  rcases h s with run | ⟨a, n, ns, rest, -, run⟩
  · rw [run]
    exact .refl s
  · rw [run]
    exact .advance rest

theorem next_picks : Picks next fun m n => m = n := by
  intro s
  unfold next
  split
  · rename_i n ns rest
    exact .inr ⟨n, n, ns, rest, rfl, rfl⟩
  · exact .inl rfl

theorem acceptAny_picks (set : TokenKind → Bool) :
    Picks (acceptAny set) fun t n => n = .token t := by
  intro s
  unfold acceptAny
  split
  · rename_i t ns rest
    split
    · exact .inr ⟨t, _, ns, rest, rfl, rfl⟩
    · exact .inl rfl
  · exact .inl rfl

theorem acceptGroup_picks (opener : TokenKind) :
    Picks (acceptGroup opener) fun g n => n = .group g := by
  intro s
  unfold acceptGroup
  split
  · rename_i g ns rest
    split
    · exact .inr ⟨g, _, ns, rest, rfl, rfl⟩
    · exact .inl rfl
  · exact .inl rfl

theorem next_onwards : Onwards next := next_picks.onwards

theorem acceptAny_onwards (set : TokenKind → Bool) : Onwards (acceptAny set) :=
  (acceptAny_picks set).onwards

theorem accept_onwards (kind : TokenKind) : Onwards (accept kind) := acceptAny_onwards _

theorem expect_onwards (kind : TokenKind) (code : IssueCode) : Onwards (expect kind code) := by
  refine (accept_onwards kind).bind fun found => ?_
  cases found with
  | some t => exact .pure t
  | none => exact (missing_onwards code).bind fun _ => .pure _

theorem ident_onwards (code : IssueCode) : Onwards (ident code) := by
  refine (accept_onwards _).bind fun found => ?_
  cases found with
  | some t => exact identOf_onwards t 0
  | none =>
    refine (acceptAny_onwards _).bind fun found => ?_
    cases found with
    | some t => exact (raise_onwards _ _).bind fun _ => identOf_onwards t 0
    | none => exact (missing_onwards code).bind fun _ => .pure _

theorem finish_onwards : Onwards finish := by
  intro s
  unfold finish
  split
  · exact .refl s
  · rename_i n ns rest
    exact ⟨List.nil_suffix, by simp [rest]⟩

theorem skip_onward (set : TokenKind → Bool) (ns : List Node) (s : Stream) (rest : s.rest = ns) :
    s.Onward (Stream.skip set ns s) := by
  induction ns generalizing s with
  | nil => exact .refl s
  | cons n ns ih =>
    rw [Stream.skip]
    split
    · exact .refl s
    · have first : s.Onward { s.advance n ns with unread := s.unread.push n } :=
        ⟨(Stream.Onward.advance rest).rest, (Stream.Onward.advance rest).pos⟩
      exact first.trans (ih _ rfl)

theorem skipUntil_onwards (set : TokenKind → Bool) : Onwards (skipUntil set) :=
  fun s => skip_onward set s.rest s rfl

theorem separator_onwards (before : Nat) : Onwards (separator before) := by
  refine (look_onwards _).bind fun done => ?_
  split
  · exact .pure ()
  · refine (accept_onwards _).bind fun found => ?_
    cases found with
    | some _ => exact .pure ()
    | none =>
      have rest : Onwards (do skipUntil (· == .comma); let _ ← accept .comma) :=
        (skipUntil_onwards _).bind fun _ => (accept_onwards _).bind fun _ => .pure ()
      refine (look_onwards _).bind fun pos => ?_
      dsimp only
      split
      · exact (missing_onwards _).bind fun _ => rest
      · exact rest

/-- What is read leaves fewer tokens to what follows. -/
theorem Picks.agreeing {o : Parser (Option α)} {R : α → Node → Prop} (h : Picks o R)
    {q q' : Option α → Parser β}
    (yes : ∀ a n, R a n → n.tokens.length ≤ w → Agreeing w (q (some a)) (q' (some a)))
    (no : Agreeing (w + 1) (q none) (q' none)) :
    Agreeing (w + 1) (o >>= q) (o >>= q') := by
  intro s light
  unfold AgreeAt
  rw [run_bind, run_bind]
  rcases h s with run | ⟨a, n, ns, rest, gives, run⟩
  · rw [run]
    exact no s light
  · rw [run]
    have size := Stream.weight_advance rest
    have some_ := n.tokens_pos
    obtain ⟨onward, same⟩ := yes a n gives (by omega) (s.advance n ns) (by omega)
    exact ⟨(Stream.Onward.advance rest).trans onward, same⟩

theorem Picks.within {o : Parser (Option α)} {R : α → Node → Prop} (h : Picks o R)
    {q q' : Option α → Parser β}
    (yes : ∀ a n, R a n → n.tokens.length < w → Agreeing w (q (some a)) (q' (some a)))
    (no : Agreeing w (q none) (q' none)) : Agreeing w (o >>= q) (o >>= q') := by
  cases w with
  | zero => exact fun s light => absurd light (Nat.not_lt_zero _)
  | succ w =>
    exact h.agreeing (fun a n gives size => (yes a n gives (by omega)).mono (Nat.le_succ w)) no

theorem accept_agreeing {kind : TokenKind} {q q' : Option Token → Parser β}
    (yes : ∀ t, Agreeing w (q (some t)) (q' (some t)))
    (no : Agreeing (w + 1) (q none) (q' none)) :
    Agreeing (w + 1) (accept kind >>= q) (accept kind >>= q') :=
  (acceptAny_picks _).agreeing (fun t _ _ _ => yes t) no

theorem tokens_length_group (g : Group) : (Node.group g).tokens.length = g.weight + 2 := by
  simp [Node.tokens_group, Group.weight]

theorem acceptGroup_agreeing {opener : TokenKind} {q q' : Option Group → Parser β}
    (yes : ∀ g : Group, g.weight + 1 < w → Agreeing w (q (some g)) (q' (some g)))
    (no : Agreeing (w + 1) (q none) (q' none)) :
    Agreeing (w + 1) (acceptGroup opener >>= q) (acceptGroup opener >>= q') := by
  refine (acceptGroup_picks opener).agreeing (fun g n same size => yes g ?_) no
  rw [same, tokens_length_group] at size
  omega

theorem acceptGroup_within {opener : TokenKind} {q q' : Option Group → Parser β}
    (yes : ∀ g : Group, g.weight + 1 < w → Agreeing w (q (some g)) (q' (some g)))
    (no : Agreeing w (q none) (q' none)) :
    Agreeing w (acceptGroup opener >>= q) (acceptGroup opener >>= q') := by
  refine (acceptGroup_picks opener).within (fun g n same size => yes g ?_) no
  rw [same, tokens_length_group] at size
  omega

theorem moves_of_run {o : Parser α} {s : Stream} {a : α} {n : Node} {ns : List Node}
    (run : o s = (a, s.advance n ns)) : MovesAt o s := by
  unfold MovesAt
  rw [run]
  exact Nat.lt_succ_self _

theorem next_starting : Starting w next next := by
  refine ⟨next_onwards.agreeing, fun s _ some_ => ?_⟩
  obtain ⟨n, ns, rest⟩ := List.exists_cons_of_ne_nil some_
  have run : next s = (some n, s.advance n ns) := by simp [next, rest]
  exact moves_of_run run

/-- A node that is read leaves fewer tokens to what follows. -/
theorem read_startAt {o : Parser α} {q q' : α → Parser β} {s : Stream} {a : α} {n : Node}
    {ns : List Node} (light : s.weight < w + 1) (rest : s.rest = n :: ns)
    (run : o s = (a, s.advance n ns)) (h : Agreeing w (q a) (q' a)) :
    AgreeAt (o >>= q) (o >>= q') s ∧ MovesAt (o >>= q) s := by
  have size := Stream.weight_advance rest
  have some_ := n.tokens_pos
  obtain ⟨onward, same⟩ := h (s.advance n ns) (by omega)
  unfold AgreeAt MovesAt
  rw [run_bind, run_bind, run]
  exact ⟨⟨(Stream.Onward.advance rest).trans onward, same⟩,
    (Nat.lt_succ_self s.pos).trans_le onward.pos_le⟩

theorem next_startAt {q q' : Option Node → Parser β} {s : Stream} {n : Node} {ns : List Node}
    (light : s.weight < w + 1) (rest : s.rest = n :: ns)
    (h : Agreeing w (q (some n)) (q' (some n))) :
    AgreeAt (next >>= q) (next >>= q') s ∧ MovesAt (next >>= q) s :=
  read_startAt light rest (by simp [next, rest]) h

/-- What is found is read; if nothing is, what follows has to read a node. -/
theorem Picks.opens {o : Parser (Option α)} {R : α → Node → Prop} (h : Picks o R)
    {q q' : Option α → Parser β} {s : Stream} {C : Prop} (light : s.weight < w + 1)
    (yes : ∀ a n, R a n → n.tokens.length ≤ w → Agreeing w (q (some a)) (q' (some a)))
    (no : o s = (none, s) → AgreeAt (q none) (q' none) s ∧ (C → MovesAt (q none) s)) :
    AgreeAt (o >>= q) (o >>= q') s ∧ (C → MovesAt (o >>= q) s) := by
  rcases h s with run | ⟨a, n, ns, rest, gives, run⟩
  · unfold AgreeAt MovesAt
    rw [run_bind, run_bind, run]
    exact no run
  · have size := Stream.weight_advance rest
    exact (read_startAt light rest run (yes a n gives (by omega))).imp_right fun moves _ => moves

/-- What follows a part that reads a node under a condition. -/
theorem bind_startAt {p p' : Parser α} {f f' : α → Parser β} {s : Stream} {C : Prop}
    (light : s.weight < w) (h : AgreeAt p p' s ∧ (C → MovesAt p s))
    (then_ : ∀ a, Agreeing w (f a) (f' a)) :
    AgreeAt (p >>= f) (p' >>= f') s ∧ (C → MovesAt (p >>= f) s) := by
  have left (a : α) := then_ a _ (h.1.1.weight_le.trans_lt light)
  exact ⟨h.1.bind left, fun holds => (h.2 holds).bind fun a => (left a).1⟩

theorem Picks.starting {o : Parser (Option α)} {R : α → Node → Prop} (h : Picks o R)
    {q q' : Option α → Parser β}
    (yes : ∀ a n, R a n → n.tokens.length ≤ w → Agreeing w (q (some a)) (q' (some a)))
    (no : Starting (w + 1) (q none) (q' none)) : Starting (w + 1) (o >>= q) (o >>= q') := by
  have both (s : Stream) (light : s.weight < w + 1) := h.opens light yes (C := s.rest ≠ [])
    fun _ => ⟨no.agreeing s light, no.moves s light⟩
  exact ⟨fun s light => (both s light).1, fun s light => (both s light).2⟩

theorem look_startAt {f : Stream → α} {q q' : α → Parser β} {s : Stream} {C : Prop}
    (h : AgreeAt (q (f s)) (q' (f s)) s ∧ (C → MovesAt (q (f s)) s)) :
    AgreeAt (look f >>= q) (look f >>= q') s ∧ (C → MovesAt (look f >>= q) s) := h

/-- A token that may be here. -/
theorem accept_opens {kind : TokenKind} {q q' : Option Token → Parser β} {s : Stream} {C : Prop}
    (light : s.weight < w + 1) (yes : ∀ t, Agreeing w (q (some t)) (q' (some t)))
    (no : s.atToken kind = false → AgreeAt (q none) (q' none) s ∧ (C → MovesAt (q none) s)) :
    AgreeAt (accept kind >>= q) (accept kind >>= q') s ∧ (C → MovesAt (accept kind >>= q) s) := by
  refine (acceptAny_picks _).opens light (fun t _ _ _ => yes t) fun run => no ?_
  rw [← Bool.not_eq_true]
  intro found
  obtain ⟨t, ns, rest, rfl⟩ := Stream.rest_of_atToken found
  simp only [acceptAny, rest, beq_self_eq_true, if_true] at run
  cases run

/-- A token that is here. -/
theorem accept_startAt {kind : TokenKind} {q q' : Option Token → Parser β} {s : Stream}
    (light : s.weight < w + 1) (yes : ∀ t, Agreeing w (q (some t)) (q' (some t)))
    (no : Agreeing (w + 1) (q none) (q' none)) :
    AgreeAt (accept kind >>= q) (accept kind >>= q') s ∧
      (s.atToken kind = true → MovesAt (accept kind >>= q) s) :=
  accept_opens light yes fun absent => ⟨no s light, fun found => by simp [absent] at found⟩

/-- What lies in a group is read by a stream of its own. -/
theorem inside_agreeing {g : Group} {p p' : Parser α} {v : Nat} (light : g.weight < w)
    (h : Agreeing w p p') : Agreeing v (inside g p) (inside g p') := by
  intro s _
  refine ⟨⟨List.suffix_refl _, rfl⟩, ?_⟩
  have same := (h
    { rest := g.contents
      stop := Span.point g.closer.span.chunk g.closer.span.start
      last := g.opener.span
      issues := s.issues
      names := s.names
      unread := s.unread } light).2
  simp only [inside, same]

theorem items_agreeing {item item' : Parser α} (h : Agreeing w item item') (rest : Bool) (n : Nat) :
    Agreeing w (items rest item n) (items rest item' n) := by
  induction n with
  | zero => exact .pure _
  | succ n ih =>
    refine .after (look_onwards _) fun done => ?_
    split
    · exact .pure _
    · refine .after (accept_onwards _) fun found => ?_
      cases found with
      | some dots =>
        dsimp only
        split
        · exact ((accept_onwards _).bind fun _ => finish_onwards.bind fun _ => .pure _).agreeing
        · exact .after (raise_onwards _ _) fun _ => .after (accept_onwards _) fun _ => ih
      | none =>
        refine .after (look_onwards _) fun before => .bind h fun a => ?_
        exact .after (separator_onwards _) fun _ => .bind ih fun _ => .pure _

theorem commaList_agreeing {g : Group} {item item' : Parser α} {v : Nat} (light : g.weight < w)
    (h : Agreeing w item item') (empty : Option IssueCode) (rest : Bool) :
    Agreeing v (commaList g empty rest item) (commaList g empty rest item') := by
  refine inside_agreeing light (.bind (items_agreeing h rest _) fun r => Onwards.agreeing ?_)
  cases empty with
  | none => exact .pure _
  | some code =>
    dsimp only
    split
    · exact (missing_onwards code).bind fun _ => .pure _
    · exact .pure _

end Parser
end Ember

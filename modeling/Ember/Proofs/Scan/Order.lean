import Ember.Proofs.Scan.Step

/-!
# The order of tokens

Every token but a marked operator starts where all tokens before it have ended. A marked operator
starts at its marker. The marker waits through characters that start no lexeme, and these are
tokens already when the operator comes: then the operator starts before they do. So the tokens of
a text stand in order exactly if each marked operator is written as its marker with the operator
joined to it.
-/

set_option autoImplicit false

namespace Ember

/-- Every token starts where the ones before it have ended, or later. -/
def InOrder (ts : List Token) : Prop := ts.Pairwise fun t u => t.span.stop ≤ u.span.start

instance (ts : List Token) : Decidable (InOrder ts) := inferInstanceAs (Decidable (ts.Pairwise _))

/-- A marked operator is written as the marker and the operator. -/
def Token.IsSpelled (t : Token) : Prop := ∀ o, t.kind = .marked o → t.text = "`" ++ o.spelling

theorem Token.isSpelled_of_plain {t : Token} (plain : t.kind.isMarked = false) : t.IsSpelled := by
  intro o kind
  rw [kind] at plain
  cases plain

theorem Tiled.start_le {start stop : Nat} {ts : List Token} (h : Tiled start stop ts) :
    start ≤ stop := by
  induction ts generalizing start with
  | nil => exact (show start = stop from h).le
  | cons t ts ih =>
    obtain ⟨_, some_, _, rest⟩ := h
    exact some_.le.trans (ih rest)

theorem Tiled.mem {start stop : Nat} {ts : List Token} (h : Tiled start stop ts) {t : Token}
    (member : t ∈ ts) : start ≤ t.span.start ∧ t.span.start < t.span.stop ∧ t.span.stop ≤ stop ∧
      t.kind.isMarked = false := by
  induction ts generalizing start with
  | nil => cases member
  | cons u ts ih =>
    obtain ⟨first, some_, plain, rest⟩ := h
    rcases List.mem_cons.mp member with rfl | later
    · exact ⟨first.ge, first ▸ some_, rest.start_le, plain⟩
    · obtain ⟨after, facts⟩ := ih rest later
      exact ⟨some_.le.trans after, facts⟩

theorem Tiled.inOrder {start stop : Nat} {ts : List Token} (h : Tiled start stop ts) :
    InOrder ts := by
  induction ts generalizing start with
  | nil => exact .nil
  | cons t ts ih =>
    obtain ⟨_, _, _, rest⟩ := h
    exact .cons (fun u member => (rest.mem member).1) (ih rest)

/-! ## Tokens before an offset -/

/-- Tokens that end before `stop`. Only a marked operator may start before another one has ended. -/
structure Placed (stop : Nat) (ts : List Token) : Prop where
  inside : ∀ t ∈ ts, t.span.start < t.span.stop ∧ t.span.stop ≤ stop
  plain : ts.Pairwise fun t u => u.kind.isMarked = false → t.span.stop ≤ u.span.start

namespace Placed

variable {a start stop : Nat} {ts us : List Token}

/-- Tokens that follow end to end keep the order as it is. -/
theorem inOrder_append (h : Placed a ts) (le : a ≤ start) (tiled : Tiled start stop us) :
    InOrder (ts ++ us) ↔ InOrder ts := by
  refine List.pairwise_append.trans ⟨And.left, fun order => ⟨order, tiled.inOrder, ?_⟩⟩
  intro t member u later
  exact (h.inside t member).2.trans (le.trans (tiled.mem later).1)

theorem append (h : Placed a ts) (le : a ≤ start) (tiled : Tiled start stop us) :
    Placed stop (ts ++ us) := by
  refine ⟨fun t member => ?_, List.pairwise_append.mpr ⟨h.plain, ?_, ?_⟩⟩
  · rcases List.mem_append.mp member with early | late
    · obtain ⟨some_, before⟩ := h.inside t early
      exact ⟨some_, before.trans (le.trans tiled.start_le)⟩
    · obtain ⟨_, some_, before, _⟩ := tiled.mem late
      exact ⟨some_, before⟩
  · refine List.Pairwise.imp ?_ tiled.inOrder
    intro t u order _
    exact order
  · intro t early u late _
    exact (h.inside t early).2.trans (le.trans (tiled.mem late).1)

theorem append_marked (h : Placed a ts) (le : a ≤ stop) {t : Token}
    (marked : t.kind.isMarked = true) (some_ : t.span.start < t.span.stop)
    (before : t.span.stop ≤ stop) : Placed stop (ts ++ [t]) := by
  refine ⟨fun u member => ?_, List.pairwise_append.mpr ⟨h.plain, List.pairwise_singleton _ _, ?_⟩⟩
  · rcases List.mem_append.mp member with early | late
    · exact ⟨(h.inside u early).1, (h.inside u early).2.trans le⟩
    · obtain rfl := List.mem_singleton.mp late
      exact ⟨some_, before⟩
  · intro u _ v late plain
    obtain rfl := List.mem_singleton.mp late
    rw [marked] at plain
    cases plain

end Placed

theorem isSpelled_append {start stop : Nat} {us : List Token} (tiled : Tiled start stop us)
    (ts : List Token) : (∀ t ∈ ts ++ us, t.IsSpelled) ↔ ∀ t ∈ ts, t.IsSpelled := by
  refine ⟨fun all t member => all t (List.mem_append_left _ member), fun all t member => ?_⟩
  rcases List.mem_append.mp member with early | late
  · exact all t early
  · exact Token.isSpelled_of_plain (tiled.mem late).2.2.2

namespace Scan

structure Ordered (done : List Char) (s : Scan) : Prop where
  placed : Placed (byteLength done) s.written
  spelled : s.chunk ≠ noChunk → (InOrder s.written ↔ ∀ t ∈ s.written, t.IsSpelled)
  known : s.chunk ≠ noChunk → (∀ i ∈ s.issues, i.code ≠ .unknownCharacter) → InOrder s.written

/-- A marker that waits stands after `before`. The tokens after it are unknown characters, and if
there are none, an operator can only be joined to the marker itself. -/
structure Waiting (s : Scan) (p : Span) (before : List Char) (earlier later : List Token) :
    Prop where
  span : p = ⟨s.chunk, byteLength before, byteLength before + 1⟩
  tokens : s.written = earlier ++ later
  ended : ∀ t ∈ earlier, t.span.stop ≤ byteLength before
  begun : ∀ t ∈ later, byteLength before < t.span.start
  joined : later = [] → ∀ stop, s.lastEnd = some stop → stop = byteLength before + 1
  unknown : later ≠ [] → ∃ i ∈ s.issues, i.code = .unknownCharacter

def Waits (done : List Char) (s : Scan) : Prop := ∀ p, s.marker = some p →
  ∃ before mid earlier later, done = before ++ '`' :: mid ∧ Waiting s p before earlier later

variable {s s' : Scan} {done text : List Char}

/-- Tokens that follow end to end keep what holds. -/
theorem Ordered.append {start : Nat} {ts : List Token} {m : Option Span} (h : Ordered done s)
    (adds : Adds { s with marker := m } ts s') (le : byteLength done ≤ start)
    (tiled : Tiled start (byteLength (done ++ text)) ts) : Ordered (done ++ text) s' := by
  have written : s'.written = s.written ++ ts := adds.written
  have chunk : s'.chunk = s.chunk := adds.chunk
  refine ⟨?_, fun place => ?_, fun place known => ?_⟩
  · rw [written]
    exact h.placed.append le tiled
  · rw [written, h.placed.inOrder_append le tiled, isSpelled_append tiled]
    exact h.spelled (chunk ▸ place)
  · rw [written, h.placed.inOrder_append le tiled]
    exact h.known (chunk ▸ place) fun i member => known i (adds.issues i member)

/-- A piece without tokens keeps what holds. -/
theorem Ordered.skip {m : Option Span} (h : Ordered done s)
    (adds : Adds { s with marker := m } [] s') : Ordered (done ++ text) s' :=
  h.append adds (by simp) rfl

namespace Waiting

variable {p : Span} {before mid : List Char} {earlier later : List Token}

theorem byteLength_marked (before mid : List Char) :
    byteLength (before ++ '`' :: mid) = byteLength before + 1 + byteLength mid := by
  have sign : ('`' : Char).utf8Size = 1 := by decide
  rw [byteLength_append, byteLength_cons, sign, Nat.add_assoc]

/-- A marked operator goes from its marker to the end of the operator. -/
theorem merge (h : Waiting s p before earlier later) (place : s.chunk ≠ noChunk) {stop : Nat}
    (le : byteLength (before ++ '`' :: mid) ≤ stop) :
    p.merge ⟨s.chunk, byteLength (before ++ '`' :: mid), stop⟩ =
      ⟨s.chunk, byteLength before, stop⟩ := by
  rw [byteLength_marked] at le
  rw [h.span]
  simp only [Span.merge, Span.isVirtual, beq_eq_false_iff_ne.mpr place, byteLength_marked,
    bne_self_eq_false, Bool.or_false, Bool.false_eq_true, if_false, Span.mk.injEq, true_and]
  omega

/-- Whatever the chunk, it lies in what has been read. -/
theorem merge_inside (h : Waiting s p before earlier later) {span : Span} {stop : Nat}
    (lt : byteLength (before ++ '`' :: mid) < stop)
    (is : span = p.merge ⟨s.chunk, byteLength (before ++ '`' :: mid), stop⟩) :
    span.start < span.stop ∧ span.stop ≤ stop := by
  by_cases place : s.chunk = noChunk
  · have same : p.merge ⟨s.chunk, byteLength (before ++ '`' :: mid), stop⟩ =
        ⟨s.chunk, byteLength (before ++ '`' :: mid), stop⟩ := by
      rw [h.span]
      simp [Span.merge, Span.isVirtual, place]
    rw [is, same]
    exact ⟨lt, le_rfl⟩
  · rw [is, h.merge place lt.le]
    rw [byteLength_marked] at lt
    exact ⟨by dsimp only; omega, le_rfl⟩

/-- Between a marker and an operator joined to a token stands nothing, or unknown characters. -/
theorem later_eq_nil_iff (h : Waiting s p before earlier later)
    (placed : Placed (byteLength (before ++ '`' :: mid)) s.written)
    (glue : s.lastEnd = some (byteLength (before ++ '`' :: mid))) : later = [] ↔ mid = [] := by
  constructor
  · intro none_
    have here := h.joined none_ _ glue
    rw [byteLength_marked] at here
    by_contra some_
    have := byteLength_pos some_
    omega
  · rintro rfl
    rw [List.eq_nil_iff_forall_not_mem]
    intro t member
    have after := h.begun t member
    have inside := placed.inside t (by simp [h.tokens, member])
    rw [byteLength_marked, byteLength_nil] at inside
    omega

/-- A token that starts at the marker is in order if no token stands after the marker. -/
theorem inOrder_append_iff (h : Waiting s p before earlier later)
    (inside : ∀ t ∈ s.written, t.span.start < t.span.stop) {t : Token}
    (start : t.span.start = byteLength before) :
    InOrder (s.written ++ [t]) ↔ InOrder s.written ∧ later = [] := by
  refine List.pairwise_append.trans (and_congr_right fun _ => ?_)
  simp only [List.mem_singleton, forall_eq, List.pairwise_singleton, true_and, start]
  refine ⟨fun all => List.eq_nil_iff_forall_not_mem.mpr fun u member => ?_, ?_⟩
  · have here : u ∈ s.written := by simp [h.tokens, member]
    have := h.begun u member
    have := inside u here
    have := all u here
    omega
  · rintro rfl u member
    rw [h.tokens, List.append_nil] at member
    exact h.ended u member

end Waiting

/-- The text of a marked operator is spelled right if nothing stands between its parts. -/
theorem isSpelled_iff {source before mid rest : List Char} {o : Operator} {t : Token}
    (parts : source = before ++ '`' :: mid ++ o.spelling.toList ++ rest) (kind : t.kind = .marked o)
    (start : t.span.start = byteLength before)
    (stop : t.span.stop = byteLength (before ++ '`' :: mid ++ o.spelling.toList))
    (shown : t.text = textBetween source t.span.start t.span.stop) :
    t.IsSpelled ↔ mid = [] := by
  have slice := sliceBytes_append before ('`' :: mid ++ o.spelling.toList) rest
  rw [← List.append_assoc before] at slice
  have text : t.text = String.ofList ('`' :: mid ++ o.spelling.toList) := by
    rw [shown, start, stop, parts, textBetween, slice, Option.getD_some]
  constructor
  · intro spelled
    have same := congrArg String.toList (text.symm.trans (spelled o kind))
    simpa using same
  · rintro rfl o' kind'
    obtain rfl : o = o' := by simpa [kind] using kind'
    rw [text, ← String.toList_inj]
    simp

/-- An operator that spends the marker keeps what holds. -/
theorem Ordered.marked {source rest : List Char} {p : Span} {o : Operator} {t : Token}
    (h : Ordered done s) (waits : Waits done s) (parts : source = done ++ text ++ rest)
    (some_ : text ≠ []) (marker : s.marker = some p) (glue : s.lastEnd = some (byteLength done))
    (spelled : text = o.spelling.toList) (kind : t.kind = .marked o)
    (span : t.span = p.merge ⟨s.chunk, byteLength done, byteLength done + byteLength text⟩)
    (shown : t.text = textBetween source t.span.start t.span.stop)
    (adds : Adds { s with marker := none } [t] s') : Ordered (done ++ text) s' := by
  obtain ⟨before, mid, earlier, later, rfl, waiting⟩ := waits p marker
  have written : s'.written = s.written ++ [t] := adds.written
  have chunk : s'.chunk = s.chunk := adds.chunk
  have size := byteLength_pos some_
  rw [← byteLength_append] at span
  have inside := waiting.merge_inside (by rw [byteLength_append _ text]; omega) span
  have order (place : s'.chunk ≠ noChunk) : InOrder s'.written ↔ InOrder s.written ∧ later = [] := by
    rw [written]
    refine waiting.inOrder_append_iff (fun u member => (h.placed.inside u member).1) ?_
    rw [span, waiting.merge (chunk ▸ place) (by rw [byteLength_append _ text]; omega)]
  refine ⟨?_, fun place => ?_, fun place known => ?_⟩
  · rw [written]
    exact h.placed.append_marked (by simp) (by rw [kind]; rfl) inside.1 inside.2
  · have apart : t.IsSpelled ↔ mid = [] := by
      subst spelled
      rw [waiting.merge (chunk ▸ place) (by rw [byteLength_append _ o.spelling.toList]; omega)]
        at span
      exact isSpelled_iff parts kind (by rw [span]) (by rw [span]) shown
    rw [order place, h.spelled (chunk ▸ place), waiting.later_eq_nil_iff h.placed glue, ← apart,
      written]
    simp [or_imp, forall_and]
  · have none_ : later = [] := by
      by_contra some_
      obtain ⟨i, member, code⟩ := waiting.unknown some_
      exact known i (adds.issues i member) code
    refine (order place).mpr ⟨?_, none_⟩
    exact h.known (chunk ▸ place) fun i member => known i (adds.issues i member)

/-- What a marker waits for is not changed by a piece that leaves it waiting. -/
theorem Waiting.append {p : Span} {before : List Char} {earlier later ts : List Token}
    (h : Waiting s p before earlier later) (adds : Adds s ts s')
    (begun : ∀ t ∈ ts, byteLength before < t.span.start)
    (joined : ts = [] → s'.lastEnd = s.lastEnd ∨ s'.lastEnd = none)
    (unknown : ts ≠ [] → ∃ i ∈ s'.issues, i.code = .unknownCharacter) :
    Waiting s' p before earlier (later ++ ts) where
  span := by rw [adds.chunk, h.span]
  tokens := by rw [adds.written, h.tokens, List.append_assoc]
  ended := h.ended
  begun t member := (List.mem_append.mp member).elim (h.begun t) (begun t)
  joined none_ stop ends := by
    obtain ⟨rfl, rfl⟩ := List.append_eq_nil_iff.mp none_
    rcases joined rfl with same | lost
    · exact h.joined rfl stop (same ▸ ends)
    · simp [lost] at ends
  unknown some_ := by
    by_cases some' : ts = []
    · obtain ⟨i, member, code⟩ := h.unknown (by simpa [some'] using some_)
      exact ⟨i, adds.issues i member, code⟩
    · exact unknown some'

/-- Every piece of the text keeps what holds of the order of tokens. -/
theorem Takes.ordered {source rest : List Char} (parts : source = done ++ text ++ rest)
    (some_ : text ≠ []) (h : Ordered done s) (waits : Waits done s)
    (takes : Takes source (byteLength done) text rest s s') :
    Ordered (done ++ text) s' ∧ Waits (done ++ text) s' := by
  have idle {ts : List Token} (adds : Adds { s with marker := none } ts s') :
      Waits (done ++ text) s' := fun p waits => by simp [adds.marker] at waits
  cases takes with
  | skip _ _ _ adds glue =>
    refine ⟨h.skip adds, fun p marker => ?_⟩
    obtain ⟨before, mid, earlier, later, rfl, waiting⟩ := waits p (adds.marker ▸ marker)
    refine ⟨before, mid ++ text, earlier, _, by simp, waiting.append adds ?_ (fun _ => glue) ?_⟩
    · simp
    · simp
  | mark sign _ adds _ glue =>
    refine ⟨h.skip adds, fun p marker => ?_⟩
    obtain rfl : _ = p := Option.some.inj (adds.marker.symm.trans marker)
    have written : s'.written = s.written ++ [] := adds.written
    have size : byteLength text = 1 := by rw [sign]; decide
    refine ⟨done, [], s.written, [], by rw [sign], ?_, written, ?_, by simp, ?_, by simp⟩
    · rw [size, adds.chunk]
    · exact fun t member => (h.placed.inside t member).2
    · intro _ stop ends
      rw [glue, size] at ends
      exact (Option.some.inj ends).symm
  | unknown t _ adds kind span reported =>
    have tiled : Tiled (byteLength done) (byteLength (done ++ text)) [t] := by
      have size := byteLength_pos some_
      rw [byteLength_append]
      exact ⟨by rw [span], by rw [span]; dsimp only; omega, by rw [kind]; rfl, by rw [span]; rfl⟩
    refine ⟨h.append adds le_rfl tiled, fun p marker => ?_⟩
    obtain ⟨before, mid, earlier, later, rfl, waiting⟩ := waits p (adds.marker ▸ marker)
    refine ⟨before, mid ++ text, earlier, _, by simp, waiting.append adds ?_ (by simp) ?_⟩
    · intro u member
      have after := (tiled.mem member).1
      rw [Waiting.byteLength_marked] at after
      omega
    · exact fun _ => ⟨_, reported, rfl⟩
  | marked p o t marker glue spelled kind span shown adds =>
    exact ⟨h.marked waits parts some_ marker glue spelled kind span shown adds, idle adds⟩
  | tiled ts tiled adds =>
    rw [← byteLength_append] at tiled
    exact ⟨h.append adds le_rfl tiled, idle adds⟩
  | dropped adds => exact ⟨h.skip adds, idle adds⟩

/-- Wherever a scan comes, its tokens are as `Ordered` says, and a marker as `Waits` says. -/
theorem At.waits {chunk : Nat} {source rest : List Char} {pos : Nat}
    (here : At chunk source rest pos s) : ∃ done, source = done ++ rest ∧ pos = byteLength done ∧
      Ordered done s ∧ Waits done s := by
  have start : Ordered [] { chunk } ∧ Waits [] { chunk } := by
    refine ⟨⟨⟨?_, .nil⟩, fun _ => ?_, fun _ _ => .nil⟩, by simp [Waits]⟩
    · simp [written, Frame.writtenInAll]
    · simp [written, Frame.writtenInAll, InOrder]
  obtain ⟨done, parts, place, _, _, _, holds⟩ :=
    here.invariant (P := fun done s => Ordered done s ∧ Waits done s) start
      fun _ _ _ _ _ parts some_ _ _ holds takes => takes.ordered parts some_ holds.1 holds.2
  exact ⟨done, parts, place, holds⟩

theorem At.ordered {chunk : Nat} {source rest : List Char} {pos : Nat}
    (here : At chunk source rest pos s) : ∃ done, source = done ++ rest ∧ Ordered done s := by
  obtain ⟨done, parts, _, ordered, _⟩ := here.waits
  exact ⟨done, parts, ordered⟩

end Scan

def TokenTree.realTokens (tree : TokenTree) : List Token := tree.tokens.filter (!·.isVirtual)

theorem Token.shown_span (t : Token) : t.shown.span = t.span := by
  unfold shown
  split <;> rfl

theorem Token.shown_isMarked (t : Token) : t.shown.kind.isMarked = t.kind.isMarked := by
  unfold shown
  split
  · simp [*, TokenKind.isMarked]
  · rfl

theorem Token.shown_isSpelled (t : Token) : t.shown.IsSpelled ↔ t.IsSpelled := by
  unfold shown
  split
  · simp [*, IsSpelled]
  · rfl

theorem Node.written_eq (ns : List Node) :
    Node.written ns = ((tokensOfList ns).filter (!·.isVirtual)).map Token.shown := by
  rw [Node.written]
  induction tokensOfList ns with
  | nil => rfl
  | cons t ts ih => cases real : t.isVirtual <;> simp [Token.written, real, ih]

theorem inOrder_map_shown (ts : List Token) : InOrder (ts.map Token.shown) ↔ InOrder ts := by
  simp only [InOrder, List.pairwise_map, Token.shown_span]

namespace TokenTree

/-- A tree has what its scan has written, once all frames are closed. -/
theorem written_eq {tree : TokenTree} {s : Scan} (nodes : tree.nodes = s.root.toList)
    (empty : s.frames = []) : s.written = tree.realTokens.map Token.shown := by
  rw [realTokens, tokens, ← Node.written_eq, nodes, Scan.written, empty, Frame.writtenInAll,
    List.append_nil]

/-- A whole text is a scan that has read all of it. -/
theorem ofText_ordered (chunk : Nat) (text : String) : ∃ s : Scan, s.chunk = chunk ∧
    s.Ordered text.toList ∧ s.written = (ofText chunk text).1.realTokens.map Token.shown ∧
      ∀ i ∈ s.issues, i ∈ (ofText chunk text).2 := by
  obtain ⟨pos, s, s', here, adds, empty, _, nodes, issues⟩ := ofText_spec chunk text
  obtain ⟨_, _, _, _, same, _⟩ := here.invariant (P := fun _ _ => True) trivial (by simp)
  obtain ⟨done, parts, ordered⟩ := here.ordered
  rw [List.append_nil] at parts
  refine ⟨s, same, parts ▸ ordered, ?_, fun i member => ?_⟩
  · rw [← List.append_nil s.written, ← adds.written, written_eq nodes empty]
  · rw [issues]
    exact Array.mem_toList_iff.mpr (adds.issues i member)

/-- No token is empty. They stand in order, and none overlaps another, exactly if every marked
operator is spelled as its marker and the operator; and that is so if every character is known. -/
theorem inOrder_realTokens_iff (chunk : Nat) (text : String) (place : chunk ≠ noChunk) :
    (∀ t ∈ (ofText chunk text).1.realTokens, t.span.start < t.span.stop) ∧
    (InOrder (ofText chunk text).1.realTokens ↔
      ∀ t ∈ (ofText chunk text).1.realTokens, t.IsSpelled) ∧
    ((∀ i ∈ (ofText chunk text).2, i.code ≠ .unknownCharacter) →
      InOrder (ofText chunk text).1.realTokens) := by
  obtain ⟨s, rfl, ordered, written, issues⟩ := ofText_ordered chunk text
  have order : InOrder s.written ↔ InOrder (ofText s.chunk text).1.realTokens := by
    rw [written, inOrder_map_shown]
  refine ⟨fun t member => ?_, ?_, fun known => ?_⟩
  · have inside := ordered.placed.inside t.shown (by rw [written]; exact List.mem_map_of_mem member)
    rw [Token.shown_span] at inside
    exact inside.1
  · rw [← order, ordered.spelled place, written]
    simp only [List.forall_mem_map, Token.shown_isSpelled]
  · exact order.mp (ordered.known place fun i member => known i (issues i member))

theorem inOrder_realTokens_marked_sum : (0 ≠ noChunk) ∧
    (∀ i ∈ (ofText 0 "f<a>(x) `+ :b // sum").2, i.code ≠ .unknownCharacter) ∧
      InOrder (ofText 0 "f<a>(x) `+ :b // sum").1.realTokens := by
  have known : ∀ i ∈ (ofText 0 "f<a>(x) `+ :b // sum").2, i.code ≠ .unknownCharacter := by
    decide +kernel
  exact ⟨by decide, known, (inOrder_realTokens_iff 0 _ (by decide)).2.2 known⟩

/-- An unknown character between a marker and its operator: the operator starts before it. -/
theorem exists_not_inOrder : ∃ text, ¬ InOrder (ofText 0 text).1.realTokens :=
  ⟨"`?+", by decide +kernel⟩

end TokenTree
end Ember

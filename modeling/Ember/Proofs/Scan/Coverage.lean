import Ember.Proofs.Scan.Order

/-!
# Nothing of a text is lost

Every byte that a scan has read lies in a token, or in an issue that drops it, or was skipped
between tokens, or in the marker that waits. A marker waits until an operator takes it into its
token or until it is reported, so at the end of the text the last case is gone.
-/

set_option autoImplicit false

namespace Ember

def Span.Covers (s : Span) (offset : Nat) : Prop := s.start ≤ offset ∧ offset < s.stop

theorem Tiled.covers {start stop offset : Nat} {ts : List Token} (h : Tiled start stop ts)
    (lower : start ≤ offset) (upper : offset < stop) : ∃ t ∈ ts, t.span.Covers offset := by
  induction ts generalizing start with
  | nil =>
    have : start = stop := h
    omega
  | cons t ts ih =>
    obtain ⟨first, _, _, rest⟩ := h
    by_cases inside : offset < t.span.stop
    · exact ⟨t, List.mem_cons_self, first ▸ lower, inside⟩
    · obtain ⟨u, member, covers⟩ := ih rest (Nat.le_of_not_lt inside)
      exact ⟨u, List.mem_cons_of_mem _ member, covers⟩

/-- Two spans of one chunk are covered by their merge. -/
theorem Span.Covers.merge {s t : Span} {offset : Nat} (place : s.chunk ≠ noChunk)
    (same : t.chunk = s.chunk) (h : s.Covers offset ∨ t.Covers offset) :
    (s.merge t).Covers offset := by
  have whole : s.merge t = ⟨s.chunk, min s.start t.start, max s.stop t.stop⟩ := by
    simp [Span.merge, Span.isVirtual, same, place]
  rw [whole]
  rcases h with ⟨lower, upper⟩ | ⟨lower, upper⟩
  · exact ⟨min_le_of_left_le lower, lt_max_of_lt_left upper⟩
  · exact ⟨min_le_of_right_le lower, lt_max_of_lt_right upper⟩

/-- Issues that drop what they cover. -/
def IssueCode.Drops (c : IssueCode) : Prop :=
  c = .mismatchedClosingParen ∨ c = .markerWithoutOperator

namespace Scan

/-- The byte at `offset` lies in blanks or in a comment, and the scan comes to them between
tokens: it is not in foreign text there. -/
def Skipped (chunk : Nat) (source : List Char) (offset : Nat) : Prop :=
  ∃ before text after s, source = before ++ text ++ after ∧
    At chunk source (text ++ after) (byteLength before) s ∧ s.inForeign = false ∧
    Trivia text after ∧ byteLength before ≤ offset ∧ offset < byteLength (before ++ text)

/-- The byte at `offset` is in a token, in an issue that drops it, or skipped. -/
def Keeps (chunk : Nat) (source : List Char) (s : Scan) (offset : Nat) : Prop :=
  (∃ t ∈ s.written, t.span.Covers offset) ∨
    (∃ i ∈ s.issues, i.code.Drops ∧ i.span.Covers offset) ∨ Skipped chunk source offset

/-- What the scan has read so far is kept, or it is the marker. -/
structure Covered (chunk : Nat) (source done : List Char) (s : Scan) : Prop where
  kept : ∀ offset < byteLength done,
    Keeps chunk source s offset ∨ ∃ p, s.marker = some p ∧ p.Covers offset
  marker : ∀ p, s.marker = some p → p.chunk = chunk

variable {chunk : Nat} {source done text : List Char} {s s' : Scan}

theorem Keeps.adds {m : Option Span} {ts : List Token} {offset : Nat}
    (h : Keeps chunk source s offset) (adds : Adds { s with marker := m } ts s') :
    Keeps chunk source s' offset := by
  have written : s'.written = s.written ++ ts := adds.written
  rcases h with ⟨t, member, covers⟩ | ⟨i, member, covers⟩ | skipped
  · exact .inl ⟨t, by simp [written, member], covers⟩
  · exact .inr (.inl ⟨i, adds.issues i member, covers⟩)
  · exact .inr (.inr skipped)

/-- A marker that is reported is kept. -/
theorem Covered.spent {m : Option Span} {ts : List Token} (h : Covered chunk source done s)
    (adds : Adds { s with marker := m } ts s') (spent : Spent s s') :
    ∀ offset < byteLength done, Keeps chunk source s' offset := by
  intro offset before
  rcases h.kept offset before with kept | ⟨p, marker, covers⟩
  · exact kept.adds adds
  · exact .inr (.inl ⟨_, spent p marker, .inr rfl, covers⟩)

/-- A marker that waits on stays as it is. -/
theorem Covered.waits {ts : List Token} (h : Covered chunk source done s) (adds : Adds s ts s') :
    (∀ offset < byteLength done,
      Keeps chunk source s' offset ∨ ∃ p, s'.marker = some p ∧ p.Covers offset) ∧
    ∀ p, s'.marker = some p → p.chunk = chunk := by
  rw [adds.marker]
  refine ⟨fun offset before => (h.kept offset before).imp_left fun kept => ?_, h.marker⟩
  exact kept.adds adds

/-- A piece is covered if all before it is and it is itself. -/
theorem Covered.append
    (old : ∀ offset < byteLength done,
      Keeps chunk source s offset ∨ ∃ p, s.marker = some p ∧ p.Covers offset)
    (new : ∀ offset, byteLength done ≤ offset → offset < byteLength (done ++ text) →
      Keeps chunk source s offset ∨ ∃ p, s.marker = some p ∧ p.Covers offset)
    (marker : ∀ p, s.marker = some p → p.chunk = chunk) :
    Covered chunk source (done ++ text) s := by
  refine ⟨fun offset before => ?_, marker⟩
  by_cases early : offset < byteLength done
  · exact old offset early
  · exact new offset (Nat.le_of_not_lt early) before

/-- Every piece of the text is covered by what it does. -/
theorem Takes.covered {rest : List Char} (place : chunk ≠ noChunk) (same : s.chunk = chunk)
    (parts : source = done ++ text ++ rest)
    (here : At chunk source (text ++ rest) (byteLength done) s) (h : Covered chunk source done s)
    (takes : Takes source (byteLength done) text rest s s') :
    Covered chunk source (done ++ text) s' := by
  have idle {ts : List Token} (adds : Adds { s with marker := none } ts s') (p : Span)
      (waits : s'.marker = some p) : p.chunk = chunk := by simp [adds.marker] at waits
  cases takes with
  | skip trivia outside _ adds =>
    obtain ⟨old, marker⟩ := h.waits adds
    refine .append old (fun offset lower upper => .inl (.inr (.inr ?_))) marker
    exact ⟨done, text, rest, s, parts, here, outside, trivia, lower, upper⟩
  | mark _ _ adds spent =>
    refine .append (fun offset before => .inl (h.spent adds spent offset before)) ?_ ?_
    · intro offset lower upper
      rw [byteLength_append] at upper
      exact .inr ⟨_, adds.marker, lower, upper⟩
    · intro p marker
      rw [adds.marker] at marker
      obtain rfl := Option.some.inj marker
      exact same
  | unknown t _ adds _ span =>
    obtain ⟨old, marker⟩ := h.waits adds
    refine .append old (fun offset lower upper => .inl (.inl ⟨t, ?_, ?_⟩)) marker
    · simp [adds.written]
    · rw [byteLength_append] at upper
      rw [span]
      exact ⟨lower, upper⟩
  | marked p o t waits _ _ _ span _ adds =>
    have written : s'.written = s.written ++ [t] := adds.written
    have chunk' := h.marker p waits
    have member : t ∈ s'.written := by simp [written]
    refine .append (fun offset before => .inl ?_) (fun offset lower upper => .inl ?_) (idle adds)
    · rcases h.kept offset before with kept | ⟨q, marker, covers⟩
      · exact kept.adds adds
      · obtain rfl := Option.some.inj (waits.symm.trans marker)
        refine .inl ⟨t, member, ?_⟩
        rw [span]
        exact .merge (chunk' ▸ place) (same.trans chunk'.symm) (.inl covers)
    · refine .inl ⟨t, member, ?_⟩
      rw [byteLength_append] at upper
      rw [span]
      exact .merge (chunk' ▸ place) (same.trans chunk'.symm) (.inr ⟨lower, upper⟩)
  | tiled ts tiled adds spent =>
    have written : s'.written = s.written ++ ts := adds.written
    refine .append (fun offset before => .inl (h.spent adds spent offset before)) ?_ (idle adds)
    intro offset lower upper
    rw [byteLength_append] at upper
    obtain ⟨t, member, covers⟩ := tiled.covers lower upper
    exact .inl (.inl ⟨t, by simp [written, member], covers⟩)
  | dropped adds spent reported =>
    refine .append (fun offset before => .inl (h.spent adds spent offset before)) ?_ (idle adds)
    intro offset lower upper
    rw [byteLength_append] at upper
    exact .inl (.inr (.inl ⟨_, reported, .inl rfl, lower, upper⟩))

end Scan

namespace TokenTree

/-- Every byte of a text lies in a token, or in an issue that drops it, or was skipped between
tokens. -/
theorem covers_or_skipped (chunk : Nat) (text : String) (place : chunk ≠ noChunk) (offset : Nat)
    (inside : offset < byteLength text.toList) :
    (∃ t ∈ (ofText chunk text).1.realTokens, t.span.Covers offset) ∨
    (∃ i ∈ (ofText chunk text).2, i.code.Drops ∧ i.span.Covers offset) ∨
    Scan.Skipped chunk text.toList offset := by
  obtain ⟨pos, s, s', here, adds, empty, spent, nodes, issues⟩ := ofText_spec chunk text
  have start : Scan.Covered chunk text.toList [] { chunk } := ⟨by simp, by simp⟩
  obtain ⟨done, parts, _, _, _, _, covered⟩ := here.invariant
    (P := fun done s => Scan.Covered chunk text.toList done s) start
    fun _ _ _ _ _ parts _ here same holds takes => takes.covered place same parts here holds
  rw [List.append_nil] at parts
  subst parts
  have kept := covered.spent adds spent offset inside
  rw [Scan.Keeps, written_eq nodes empty] at kept
  rcases kept with ⟨_, member, covers⟩ | ⟨i, member, covers⟩ | skipped
  · obtain ⟨t, found, rfl⟩ := List.mem_map.mp member
    exact .inl ⟨t, found, t.shown_span ▸ covers⟩
  · exact .inr (.inl ⟨i, issues ▸ Array.mem_toList_iff.mpr member, covers⟩)
  · exact .inr (.inr skipped)

/-- A bracket that belongs to nothing, after a comment. -/
theorem covers_or_skipped_closer : 0 ≠ noChunk ∧ 7 < byteLength "a // ?
)`".toList ∧
    ((∃ t ∈ (ofText 0 "a // ?
)`").1.realTokens, t.span.Covers 7) ∨
      (∃ i ∈ (ofText 0 "a // ?
)`").2, i.code.Drops ∧ i.span.Covers 7) ∨
      Scan.Skipped 0 "a // ?
)`".toList 7) := by
  have inside : 7 < byteLength "a // ?
)`".toList := by decide +kernel
  exact ⟨by decide, inside, covers_or_skipped 0 _ (by decide) 7 inside⟩

end TokenTree
end Ember

import Ember.Proofs.Scan.Brackets

/-!
# Spans nest as the brackets do

`Bounded` says of a list of nodes that all its tokens lie between two offsets, and that what a pair
of brackets holds lies between the brackets. `Fenced` says the same of a stack of open frames: the
bracket of each frame comes after the bracket of the frame around it, and what it holds comes after
its own. A frame that closes, or is abandoned, becomes a node of the frame around it and stays
within the bounds of that frame. A marker that waits lies in the innermost frame, so the operator
that takes it into its token does too.
-/

set_option autoImplicit false

namespace Ember

/-! ## Spans between two offsets -/

structure Span.Within (s : Span) (chunk lo hi : Nat) : Prop where
  same : s.chunk = chunk
  lower : lo ≤ s.start
  ordered : s.start ≤ s.stop
  upper : s.stop ≤ hi

namespace Span.Within

variable {s t : Span} {chunk lo hi : Nat}

theorem mono {lo' hi' : Nat} (h : s.Within chunk lo hi) (lower : lo' ≤ lo) (upper : hi ≤ hi') :
    s.Within chunk lo' hi' :=
  ⟨h.same, lower.trans h.lower, h.ordered, h.upper.trans upper⟩

theorem point {offset : Nat} (lower : lo ≤ offset) (upper : offset ≤ hi) :
    (Span.point chunk offset).Within chunk lo hi :=
  ⟨rfl, lower, Nat.le_refl _, upper⟩

theorem merge (first : s.Within chunk lo hi) (second : t.Within chunk lo hi) :
    (s.merge t).Within chunk lo hi := by
  unfold Span.merge
  split
  · exact second
  · split
    · exact first
    · have := first.ordered
      have := second.ordered
      exact ⟨first.same, le_min first.lower second.lower, by dsimp only; omega,
        max_le first.upper second.upper⟩

end Span.Within

/-! ## Nodes between two offsets -/

namespace Node

mutual

def nodes : Node → List Node
  | .token t => [.token t]
  | .group ⟨opener, closer, contents⟩ => .group ⟨opener, closer, contents⟩ :: nodesOfList contents

def nodesOfList : List Node → List Node
  | [] => []
  | n :: ns => n.nodes ++ nodesOfList ns

end

mutual

/-- A node has no other tokens than the node that it is inside. -/
theorem tokens_of_mem_nodes : ∀ (m : Node), ∀ n ∈ m.nodes, ∀ t ∈ n.tokens, t ∈ m.tokens
  | .token _, n, member, t, inside => by
    obtain rfl := List.mem_singleton.mp member
    exact inside
  | .group ⟨opener, closer, contents⟩, n, member, t, inside => by
    rcases List.mem_cons.mp member with rfl | deeper
    · exact inside
    · have found := tokensOfList_of_mem_nodes contents n deeper t inside
      simp [tokens, found]

theorem tokensOfList_of_mem_nodes :
    ∀ (ms : List Node), ∀ n ∈ nodesOfList ms, ∀ t ∈ n.tokens, t ∈ tokensOfList ms
  | [], n, member, _, _ => by simp [nodesOfList] at member
  | m :: ms, n, member, t, inside => by
    rw [tokensOfList, List.mem_append]
    rcases List.mem_append.mp member with here | later
    · exact .inl (tokens_of_mem_nodes m n here t inside)
    · exact .inr (tokensOfList_of_mem_nodes ms n later t inside)

end

/-- A node lies where its tokens lie. -/
theorem span_within {chunk lo hi : Nat} (n : Node)
    (h : ∀ t ∈ n.tokens, t.span.Within chunk lo hi) : n.span.Within chunk lo hi := by
  cases n with
  | token t => exact h t (List.mem_singleton_self t)
  | group g =>
    rw [tokens_group] at h
    exact (h g.opener (by simp)).merge (h g.closer (by simp))

end Node

/-- All tokens lie between the two offsets, and those inside of brackets between the brackets. -/
structure Bounded (chunk lo hi : Nat) (ns : List Node) : Prop where
  tokens : ∀ t ∈ Node.tokensOfList ns, t.span.Within chunk lo hi
  groups : ∀ g ∈ Node.groupsOfList ns, ∀ t ∈ Node.tokensOfList g.contents,
    t.span.Within chunk g.opener.span.stop g.closer.span.start

namespace Bounded

variable {chunk lo hi : Nat} {ms ns : List Node}

theorem nil : Bounded chunk lo hi [] :=
  ⟨by simp [Node.tokensOfList], by simp [Node.groupsOfList]⟩

theorem mono {lo' hi' : Nat} (h : Bounded chunk lo hi ns) (lower : lo' ≤ lo) (upper : hi ≤ hi') :
    Bounded chunk lo' hi' ns :=
  ⟨fun t member => (h.tokens t member).mono lower upper, h.groups⟩

theorem append (first : Bounded chunk lo hi ms) (second : Bounded chunk lo hi ns) :
    Bounded chunk lo hi (ms ++ ns) := by
  constructor
  · intro t member
    rw [Node.tokensOfList_append, List.mem_append] at member
    exact member.elim (first.tokens t) (second.tokens t)
  · intro g member
    rw [Node.groupsOfList_append, List.mem_append] at member
    exact member.elim (first.groups g) (second.groups g)

theorem token {t : Token} (h : t.span.Within chunk lo hi) : Bounded chunk lo hi [.token t] := by
  constructor
  · intro u member
    obtain rfl : u = t := by simpa [Node.tokensOfList, Node.tokens] using member
    exact h
  · simp [Node.groupsOfList, Node.groups]

/-- A pair of brackets around nodes that lie between them. -/
theorem group {g : Group} (opener : g.opener.span.Within chunk lo hi)
    (closer : g.closer.span.Within chunk g.opener.span.stop hi)
    (inside : Bounded chunk g.opener.span.stop g.closer.span.start g.contents) :
    Bounded chunk lo hi [.group g] := by
  have after : lo ≤ g.opener.span.stop := opener.lower.trans opener.ordered
  have before : g.closer.span.start ≤ hi := closer.ordered.trans closer.upper
  constructor
  · intro t member
    simp only [Node.tokensOfList, Node.tokens_group, List.append_nil, List.mem_append,
      List.mem_cons, List.not_mem_nil, or_false] at member
    rcases member with (rfl | deeper) | rfl
    · exact opener
    · exact (inside.tokens t deeper).mono after before
    · exact closer.mono after (Nat.le_refl _)
  · intro e member
    simp only [Node.groupsOfList, Node.groups_group, List.append_nil, List.mem_cons] at member
    rcases member with rfl | deeper
    · exact inside.tokens
    · exact inside.groups e deeper

/-- A node inside of brackets lies in the span between them. -/
theorem innerSpan_contains (h : Bounded chunk lo hi ns) {g : Group}
    (held : g ∈ Node.groupsOfList ns) (placed : g.opener.span.chunk = chunk) {n : Node}
    (inside : n ∈ Node.nodesOfList g.contents) : g.innerSpan.contains n.span = true := by
  have within : n.span.Within chunk g.opener.span.stop g.closer.span.start := by
    apply n.span_within
    intro t member
    exact h.groups g held t (Node.tokensOfList_of_mem_nodes _ n inside t member)
  have upper : n.span.stop ≤ max g.closer.span.start g.opener.span.stop :=
    le_max_of_le_left within.upper
  simp [Span.contains, Group.innerSpan, placed, within.same, within.lower, upper]

end Bounded

/-! ## Frames -/

namespace Frame

/-- Where what the innermost frame holds can begin. -/
def floor : List Frame → Nat
  | [] => 0
  | f :: _ => f.opener.span.stop

/-- The bracket of each frame comes after that of the frame around it, and what a frame holds comes
after its bracket. -/
def Fenced (chunk hi : Nat) : List Frame → Prop
  | [] => True
  | f :: fs => f.opener.span.Within chunk (floor fs) hi ∧
    Bounded chunk f.opener.span.stop hi f.contents.toList ∧ Fenced chunk hi fs

variable {chunk hi : Nat} {f : Frame} {fs : List Frame}

theorem Fenced.mono {hi' : Nat} (h : Fenced chunk hi fs) (upper : hi ≤ hi') :
    Fenced chunk hi' fs := by
  induction fs with
  | nil => trivial
  | cons f fs ih =>
    obtain ⟨opener, contents, outer⟩ := h
    exact ⟨opener.mono (Nat.le_refl _) upper, contents.mono (Nat.le_refl _) upper, ih outer⟩

theorem Fenced.floor_le (h : Fenced chunk hi fs) : floor fs ≤ hi := by
  cases fs with
  | nil => exact Nat.zero_le hi
  | cons f fs => exact h.1.upper

/-- An inner frame begins no earlier than the frame around it. -/
theorem Fenced.floor_tail_le (h : Fenced chunk hi (f :: fs)) : floor fs ≤ floor (f :: fs) :=
  h.1.lower.trans h.1.ordered

theorem Fenced.append (h : Fenced chunk hi (f :: fs)) {ns : Array Node}
    (nodes : Bounded chunk (floor (f :: fs)) hi ns.toList) :
    Fenced chunk hi (f.append ns :: fs) := by
  refine ⟨h.1, ?_, h.2.2⟩
  rw [append_contents, Array.toList_append]
  exact h.2.1.append nodes

/-- A frame that is closed at its end is a node of the frame around it. -/
theorem Fenced.close {stop : Nat} (h : Fenced chunk hi (f :: fs)) {closer : Token}
    (place : closer.span.Within chunk hi stop) :
    Bounded chunk (floor fs) stop [f.close closer] := by
  obtain ⟨opener, contents, _⟩ := h
  have grows : hi ≤ stop := place.lower.trans (place.ordered.trans place.upper)
  apply Bounded.group
  · exact opener.mono (Nat.le_refl _) grows
  · exact place.mono opener.upper (Nat.le_refl _)
  · exact contents.mono (Nat.le_refl _) place.lower

/-- What an abandoned frame leaves lies in the frame around it. Only a frame that is no candidate
gets a closer, and that stands at the end. -/
theorem Fenced.abandon (h : Fenced chunk hi (f :: fs)) {place : Span}
    (ends : f.isCandidate = false → place.Within chunk hi hi) :
    Bounded chunk (floor fs) hi (f.abandon place).1.toList := by
  have closed (kind : TokenKind) (other : f.isCandidate = false) :
      Bounded chunk (floor fs) hi [f.close (Token.missing kind place)] :=
    h.close (show (Token.missing kind place).span.Within chunk hi hi from ends other)
  unfold Frame.abandon
  split
  · rw [Array.toList_append]
    apply Bounded.append
    · exact .token h.1
    · exact h.2.1.mono h.floor_tail_le (Nat.le_refl _)
  · rename_i kind
    exact closed _ (by simp [isCandidate, kind])
  · rename_i kind
    exact closed _ (by simp [isCandidate, kind])

/-- Frames that are abandoned leave a stack that is fenced, and begin no later. -/
theorem Fenced.unwind {stays : Frame → Bool} {place : Span} (ns : Array Node)
    (issues : Array Issue) (h : Fenced chunk hi fs)
    (nodes : Bounded chunk (floor fs) hi ns.toList)
    (ends : ∀ f, stays f = false → f.isCandidate = false → place.Within chunk hi hi) :
    Fenced chunk hi (Ember.unwind stays place ns issues fs).frames ∧
      Bounded chunk 0 hi (Ember.unwind stays place ns issues fs).fallen.toList ∧
      floor (Ember.unwind stays place ns issues fs).frames ≤ floor fs := by
  induction fs generalizing ns issues with
  | nil => exact ⟨trivial, nodes, Nat.le_refl _⟩
  | cons f fs ih =>
    have here := h.append nodes
    rw [Ember.unwind]
    by_cases stay : stays (f.append ns) = true
    · rw [if_pos stay]
      exact ⟨here, .nil, Nat.le_refl _⟩
    · rw [if_neg stay]
      have left := here.abandon (ends (f.append ns) (by simpa using stay))
      obtain ⟨frames, fallen, lower⟩ := ih _ (issues ++ ((f.append ns).abandon place).2) h.2.2 left
      exact ⟨frames, fallen, lower.trans h.floor_tail_le⟩

end Frame

/-! ## The whole scan -/

namespace Scan

/-- What a scan has so far lies before `hi`, each node within the bounds of its frame. -/
structure Fenced (chunk hi : Nat) (marker : Option Span) (s : Scan) : Prop where
  same : s.chunk = chunk
  waits : s.marker = marker
  root : Bounded chunk 0 hi s.root.toList
  frames : Frame.Fenced chunk hi s.frames

variable {chunk hi : Nat} {m : Option Span} {s : Scan}

namespace Fenced

theorem mono {hi' : Nat} (h : s.Fenced chunk hi m) (upper : hi ≤ hi') : s.Fenced chunk hi' m :=
  ⟨h.same, h.waits, h.root.mono (Nat.le_refl _) upper, h.frames.mono upper⟩

theorem raise (h : s.Fenced chunk hi m) (code : IssueCode) (span : Span) :
    (s.raise code span).Fenced chunk hi m := ⟨h.same, h.waits, h.root, h.frames⟩

theorem remember (h : s.Fenced chunk hi m) (lastEnd : Option Nat) (prev : Option TokenKind)
    (arm : Arm) : Fenced chunk hi m { s with lastEnd, prev, arm } :=
  ⟨h.same, h.waits, h.root, h.frames⟩

theorem mark (h : s.Fenced chunk hi m) (marker : Option Span) :
    Fenced chunk hi marker { s with marker } := ⟨h.same, rfl, h.root, h.frames⟩

theorem push (h : s.Fenced chunk hi m) {n : Node}
    (node : Bounded chunk (Frame.floor s.frames) hi [n]) : (s.push n).Fenced chunk hi m := by
  unfold Scan.push
  split
  · rename_i none_
    refine ⟨h.same, h.waits, ?_, h.frames⟩
    rw [Array.toList_push]
    exact h.root.append (node.mono (Nat.zero_le _) (Nat.le_refl _))
  · rename_i f fs top
    have frames : Frame.Fenced chunk hi (f :: fs) := top ▸ h.frames
    refine ⟨h.same, h.waits, h.root, frames.append ?_⟩
    rw [← top]
    exact node

theorem unwindTo (h : s.Fenced chunk hi m) {stays : Frame → Bool} {place : Span}
    (ends : ∀ f, stays f = false → f.isCandidate = false → place.Within chunk hi hi) :
    (s.unwindTo stays place).Fenced chunk hi m ∧
      Frame.floor (s.unwindTo stays place).frames ≤ Frame.floor s.frames := by
  obtain ⟨frames, fallen, lower⟩ := h.frames.unwind #[] #[] .nil ends
  refine ⟨⟨h.same, h.waits, ?_, frames⟩, lower⟩
  rw [Scan.unwindTo, Array.toList_append]
  exact h.root.append fallen

theorem demote (h : s.Fenced chunk hi m) : s.demote.Fenced chunk hi m ∧
    Frame.floor s.demote.frames ≤ Frame.floor s.frames := by
  apply h.unwindTo
  intro f leaves other
  simp [other] at leaves

/-- A token goes into the innermost frame, or into one further out. -/
theorem emit (h : s.Fenced chunk hi m) {t : Token}
    (place : t.span.Within chunk (Frame.floor s.frames) hi) : (s.emit t).Fenced chunk hi m ∧
      Frame.floor (s.emit t).frames ≤ Frame.floor s.frames := by
  have pushed {s' : Scan} (h : s'.Fenced chunk hi m)
      (lower : Frame.floor s'.frames ≤ Frame.floor s.frames) :
      (s'.push (.token t)).Fenced chunk hi m ∧
        Frame.floor (s'.push (.token t)).frames ≤ Frame.floor s.frames := by
    refine ⟨h.push (.token (place.mono lower (Nat.le_refl _))), ?_⟩
    unfold Scan.push
    split
    · exact lower
    · rename_i top
      exact (top ▸ lower :)
  unfold Scan.emit
  by_cases fits : allowedInTypeArgs t.kind = true
  · rw [if_pos fits]
    obtain ⟨fenced, lower⟩ := pushed h (Nat.le_refl _)
    exact ⟨fenced.remember _ _ _, lower⟩
  · rw [if_neg fits]
    obtain ⟨demoted, lower⟩ := h.demote
    obtain ⟨fenced, lower⟩ := pushed demoted lower
    exact ⟨fenced.remember _ _ _, lower⟩

theorem openFrame (h : s.Fenced chunk hi m) {opener : Token}
    (place : opener.span.Within chunk (Frame.floor s.frames) hi) (kind : FrameKind) :
    (s.openFrame kind opener).Fenced chunk hi m :=
  ⟨h.same, h.waits, h.root, place, .nil, h.frames⟩

/-- A closing bracket stands after all that its frame holds. -/
theorem closeFrame {stop : Nat} (h : s.Fenced chunk hi m) {closer : Token}
    (place : closer.span.Within chunk hi stop) : (s.closeFrame closer).Fenced chunk stop m := by
  have grows : hi ≤ stop := place.lower.trans (place.ordered.trans place.upper)
  unfold Scan.closeFrame
  split
  · exact h.mono grows
  · rename_i f fs top
    have frames : Frame.Fenced chunk hi (f :: fs) := top ▸ h.frames
    have outer : Fenced chunk stop m { s with frames := fs } :=
      ⟨h.same, h.waits, h.root.mono (Nat.le_refl _) grows, frames.2.2.mono grows⟩
    exact (outer.push (frames.close place)).remember _ _ _

end Fenced

/-! ### One lexeme -/

section Token

variable {t : Token} {stop : Nat} (h : s.Fenced chunk hi m) (place : t.span.Within chunk hi stop)

include h place

theorem Fenced.emit_next {kind : TokenKind} : (s.emit { t with kind }).Fenced chunk stop m := by
  have grows : hi ≤ stop := place.lower.trans (place.ordered.trans place.upper)
  exact ((h.mono grows).emit (t := { t with kind })
    (place.mono h.frames.floor_le (Nat.le_refl _))).1

theorem Fenced.word : (s.word t).Fenced chunk stop m := by
  unfold Scan.word
  extract_lets s' kind arm
  have raised : s'.Fenced chunk hi m := by
    unfold s'
    split
    all_goals first
      | exact h.raise _ _
      | exact h
  exact (raised.emit_next place).remember _ _ _

/-- A colon and a word share the span that they were split from. -/
theorem Fenced.colonWord (long : t.span.start + 1 ≤ t.span.stop) :
    (s.colonWord t).Fenced chunk stop m := by
  have both {colon word : Token} (first : colon.span.Within chunk hi (t.span.start + 1))
      (second : word.span.Within chunk (t.span.start + 1) stop) :
      ((s.emit colon).emit word).Fenced chunk stop m :=
    (h.emit_next first).emit_next second
  unfold Scan.colonWord
  split
  · apply both
    · exact ⟨place.same, place.lower, Nat.le_succ _, Nat.le_refl _⟩
    · exact ⟨place.same, Nat.le_refl _, long, place.upper⟩
  · exact h.emit_next place

theorem Fenced.strToken : (s.strToken t).Fenced chunk stop m := by
  have raised (faults : List (Nat × Nat)) : Fenced chunk hi m
      (faults.foldl (fun s f => s.raise .invalidEscape ⟨s.chunk, f.1, f.2⟩) s) := by
    induction faults generalizing s with
    | nil => exact h
    | cons f faults ih => exact ih (h.raise _ _)
  exact (raised _).emit_next place

/-- A closing bracket stands after all that its frame holds, and so do the brackets that were
missed before it. -/
theorem Fenced.close : (s.close t).Fenced chunk stop m := by
  have grows : hi ≤ stop := place.lower.trans (place.ordered.trans place.upper)
  have demoted := h.demote.1
  unfold Scan.close
  dsimp only
  split
  · have here : s.demote.Fenced chunk t.span.start m := demoted.mono place.lower
    apply (here.unwindTo _).1.closeFrame
    · exact ⟨place.same, Nat.le_refl _, place.ordered, place.upper⟩
    · intro f _ _
      rw [demoted.same]
      exact .point (Nat.le_refl _) (Nat.le_refl _)
  · exact (demoted.raise _ _).mono grows

/-- A bracket opens inside of the innermost frame. -/
theorem Fenced.openNext (kind : FrameKind) (opens : TokenKind) :
    (s.openFrame kind { t with kind := opens }).Fenced chunk stop m := by
  have grows : hi ≤ stop := place.lower.trans (place.ordered.trans place.upper)
  apply (h.mono grows).openFrame
  exact place.mono h.frames.floor_le (Nat.le_refl _)

theorem Fenced.fixedToken : (s.fixedToken t).Fenced chunk stop m := by
  have disarmed := h.remember s.lastEnd s.prev .off
  unfold Scan.fixedToken
  split
  case h_1 | h_2 | h_3 => exact disarmed.openNext place _ _
  case h_4 | h_5 | h_6 => exact h.close place
  case h_7 =>
    split
    · exact disarmed.openNext place _ _
    · exact h.emit_next place
  case h_8 =>
    split
    · exact h.closeFrame place
    · exact h.emit_next place
  case h_9 => exact h.emit_next place

theorem Fenced.plain {l : Lexeme} (long : l = .colonWord → t.span.start + 1 ≤ t.span.stop) :
    (s.plain l t).Fenced chunk stop m := by
  have grows : hi ≤ stop := place.lower.trans (place.ordered.trans place.upper)
  cases l with
  | blank | comment | marker => exact h.mono grows
  | word => exact h.word place
  | colonWord => exact h.colonWord place (long rfl)
  | builtin | label | param | hex | int | float => exact h.emit_next place
  | str => exact h.strToken place
  | openStr => exact (h.raise _ _).strToken place
  | bareSign => exact (h.raise _ _).emit_next place
  | fixed kind => exact h.fixedToken (t := { t with kind }) place

end Token

/-! ### One piece of the text -/

/-- What holds of a scan that has come to `hi`: a marker that waits lies in the innermost frame. -/
structure Nests (chunk hi : Nat) (s : Scan) : Prop where
  fenced : s.Fenced chunk hi s.marker
  marker : ∀ p, s.marker = some p → p.Within chunk (Frame.floor s.frames) hi

/-- Where no marker waits the nodes are all. -/
theorem Fenced.nests (h : s.Fenced chunk hi none) : s.Nests chunk hi := by
  constructor
  · exact h.waits.symm ▸ h
  · simp [h.waits]

theorem Nests.mono {stop : Nat} (h : s.Nests chunk hi) (upper : hi ≤ stop) : s.Nests chunk stop :=
  ⟨h.fenced.mono upper, fun p waits => (h.marker p waits).mono (Nat.le_refl _) upper⟩

theorem Nests.remember (h : s.Nests chunk hi) (lastEnd : Option Nat) :
    Nests chunk hi { s with lastEnd } := ⟨h.fenced.remember _ _ _, h.marker⟩

/-- A lexeme in its place. The marker begins in the innermost frame, so does the operator that
takes it. -/
theorem Nests.lexeme {source : List Char} {stop : Nat} {l : Lexeme} {t : Token}
    (h : s.Nests chunk hi) (place : t.span.Within chunk hi stop)
    (long : l = .colonWord → t.span.start + 1 ≤ t.span.stop) :
    (s.lexeme source l t).Nests chunk stop := by
  have grows : hi ≤ stop := place.lower.trans (place.ordered.trans place.upper)
  have inside := place.mono h.fenced.frames.floor_le (Nat.le_refl _)
  by_cases mark : l = .marker
  · subst mark
    have marked : Nests chunk stop { s with marker := some t.span } := by
      refine ⟨(h.fenced.mono grows).mark _, ?_⟩
      rintro p ⟨⟩
      exact inside
    unfold Scan.lexeme
    split
    · exact ⟨(marked.fenced.raise _ _ :), marked.marker⟩
    · exact marked
    · contradiction
    · contradiction
  · cases waits : s.marker with
    | none =>
      rw [lexeme_unmarked waits mark]
      have fenced := waits ▸ h.fenced
      exact (fenced.plain place long).nests
    | some p =>
      have lost := h.fenced.mark none
      rcases @lexeme_marked s source l t p waits mark with
        ⟨o, u, _, _, _, _, span, _, same⟩ | same
      · rw [same]
        apply Fenced.nests
        apply ((lost.mono grows).emit _).1
        rw [span]
        exact ((h.marker p waits).mono (Nat.le_refl _) grows).merge inside
      · rw [same]
        exact ((lost.raise _ _).plain place long).nests

/-- Foreign text goes into its frame, and so does a group that opens in it. -/
theorem Fenced.foreignText (h : s.Fenced chunk hi none) (text : List Char) (stop : ForeignEnd) :
    (s.foreignText hi text stop).Nests chunk (hi + byteLength (text ++ stop.sign)) := by
  have textEnd : hi ≤ hi + byteLength text := Nat.le_add_right _ _
  have part : Fenced chunk (hi + byteLength text) none (if text.isEmpty then s else s.push (.token
      { kind := .sourceText, span := ⟨s.chunk, hi, hi + byteLength text⟩,
        text := String.ofList text })) := by
    split
    · exact h.mono textEnd
    · apply (h.mono textEnd).push
      exact .token ⟨h.same, h.frames.floor_le, textEnd, Nat.le_refl _⟩
  rw [byteLength_append, ← Nat.add_assoc]
  unfold Scan.foreignText
  extract_lets _ s'
  have here : s'.Fenced chunk (hi + byteLength text) none := part
  cases stop with
  | unfinished => exact here.nests
  | closed =>
    refine ((here.closeFrame ?_).remember _ _ _).nests
    exact ⟨here.same, Nat.le_refl _, Nat.le_succ _, Nat.le_refl _⟩
  | interp depth =>
    have opened {frames : List Frame} (fenced : Frame.Fenced chunk (hi + byteLength text) frames)
        {opener : Token}
        (span : opener.span = ⟨s'.chunk, hi + byteLength text, hi + byteLength text + 2⟩) :
        Fenced chunk (hi + byteLength text + 2) none
          (Scan.openFrame { s' with frames } .group opener) := by
      have deeper : Fenced chunk (hi + byteLength text) none { s' with frames } :=
        ⟨here.same, here.waits, here.root, fenced⟩
      apply (deeper.mono (Nat.le_add_right _ 2)).openFrame
      rw [span]
      exact ⟨here.same, fenced.floor_le, Nat.le_add_right _ 2, Nat.le_refl _⟩
    refine ((opened ?_ rfl).remember _ _ _).nests
    have frames := here.frames
    cases top : s'.frames with
    | nil => trivial
    | cons f fs => exact (top ▸ frames :)

/-- Each piece of the text keeps the nodes nested. -/
theorem Nests.take {source cs : List Char} (h : s.Nests chunk hi)
    (idle : s.inForeign = true → s.marker = none) :
    (s.take source hi (cs.take (s.next cs).size) (s.next cs)).Nests chunk
      (hi + byteLength (cs.take (s.next cs).size)) := by
  have grows (text : List Char) : hi ≤ hi + byteLength text := Nat.le_add_right _ _
  have place (text : List Char) :
      (Span.mk s.chunk hi (hi + byteLength text)).Within chunk hi (hi + byteLength text) :=
    ⟨h.fenced.same, Nat.le_refl _, grows text, Nat.le_refl _⟩
  unfold next
  split
  · rename_i depth opener contents fs top
    have inside : s.inForeign = true := by simp [inForeign, top, Frame.isForeign]
    rw [Scan.take, List.take_take, Nat.min_eq_left (by rw [Piece.size_foreign]; omega),
      Piece.size_foreign, foreign_text]
    have fenced : s.Fenced chunk hi none := idle inside ▸ h.fenced
    exact fenced.foreignText _ _
  · split
    · rename_i l n found
      have size : l.measure cs = n + 1 := (Lexeme.longest_some found).1
      have positive : 0 < l.measure cs := by omega
      rw [Piece.size, ← size]
      by_cases blank : l = .blank
      · subst blank
        exact h.mono (grows _)
      · by_cases comment : l = .comment
        · subst comment
          exact (h.mono (grows _)).remember none
        · rw [take_lexeme ⟨blank, comment⟩]
          apply (h.remember _).lexeme (place _)
          rintro rfl
          obtain ⟨word, some_, text⟩ := Lexeme.signed_text positive
          have := byteLength_pos some_
          have colon : (':' : Char).utf8Size = 1 := by decide
          rw [Lexeme.measure, text, byteLength_cons]
          dsimp only
          omega
    · have inside := (place (cs.take 1)).mono h.fenced.frames.floor_le (Nat.le_refl _)
      have raised := ((h.fenced.mono (grows (cs.take 1))).remember
        (some (hi + byteLength (cs.take 1))) s.prev s.arm).raise .unknownCharacter
        ⟨s.chunk, hi, hi + byteLength (cs.take 1)⟩
      -- An unknown character leaves the marker waiting, and no frame opens with it.
      obtain ⟨fenced, lower⟩ := raised.emit (t :=
        { kind := .unknown, span := ⟨s.chunk, hi, hi + byteLength (cs.take 1)⟩,
          text := String.ofList (cs.take 1), glued := s.lastEnd == some hi }) inside
      refine ⟨fenced.waits.symm ▸ fenced, fun p waits => ?_⟩
      exact (h.marker p (fenced.waits.symm.trans waits)).mono lower (grows _)

/-- Wherever a scan can come, the nodes are nested. -/
theorem At.nests {source rest : List Char} {pos : Nat} (here : At chunk source rest pos s) :
    s.Nests chunk pos := by
  induction here with
  | start => exact Fenced.nests ⟨rfl, rfl, .nil, trivial⟩
  | step here some_ ih =>
    obtain ⟨_, _, _, _, _, idle, _⟩ := here.invariant (P := fun _ _ => True) trivial (by simp)
    exact ih.take idle

/-- What is still open at the end of the text is closed there. -/
theorem Nests.finish (h : s.Nests chunk hi) :
    Bounded chunk 0 hi (s.finish (Span.point chunk hi)).1.nodes := by
  have ended {s' : Scan} (fenced : s'.Fenced chunk hi s.marker) :
      Bounded chunk 0 hi (s'.unwindTo (fun _ => false) (Span.point chunk hi)).root.toList := by
    apply (fenced.unwindTo _).1.root
    intro _ _ _
    exact .point (Nat.le_refl _) (Nat.le_refl _)
  unfold Scan.finish
  cases s.marker with
  | none => exact ended h.fenced
  | some p => exact ended (h.fenced.raise _ _)

end Scan

namespace TokenTree

theorem ofText_bounded (chunk : Nat) (text : String) :
    Bounded chunk 0 (byteLength text.toList) (ofText chunk text).1.nodes := by
  have begun : Scan.At chunk text.toList text.toList 0 { chunk } := .start
  obtain ⟨pos, here⟩ := begun.run
  obtain ⟨done, parts, length, _⟩ := here.invariant (P := fun _ _ => True) trivial (by simp)
  rw [List.append_nil] at parts
  have nested := here.nests
  rw [length, ← parts] at nested
  exact nested.finish

/-- Every token lies in the text, and every node that brackets enclose, at any depth, lies in the
span between them. -/
theorem spans_nested (chunk : Nat) (text : String) :
    (∀ t ∈ (ofText chunk text).1.tokens, t.span.chunk = chunk ∧ t.span.start ≤ t.span.stop ∧
      t.span.stop ≤ byteLength text.toList) ∧
    ∀ g ∈ Node.groupsOfList (ofText chunk text).1.nodes, ∀ n ∈ Node.nodesOfList g.contents,
      g.innerSpan.contains n.span = true := by
  have bounded := ofText_bounded chunk text
  constructor
  · intro t member
    have within := bounded.tokens t member
    exact ⟨within.same, within.ordered, within.upper⟩
  · intro g held n inside
    have opener : g.opener ∈ Node.tokensOfList (ofText chunk text).1.nodes :=
      (Node.openersOfList_sublist _).subset (List.mem_map_of_mem held)
    exact bounded.innerSpan_contains held (bounded.tokens _ opener).same inside

end TokenTree
end Ember

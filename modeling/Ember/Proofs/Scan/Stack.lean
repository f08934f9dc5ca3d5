import Mathlib
import Ember.Token.Scan

/-!
# What the stack of open brackets keeps

Two views of a scan are kept through all that happens to its frames. `Scan.Sound` says what is true
of every token and of every pair of brackets so far. `Scan.written` lists the tokens of the text in
their order, whichever frames they stand in. Frames that close, fall back to an operator or are
abandoned move nodes from one level of the stack to another; they never change what was written,
and what they add to the tree is sound.
-/

set_option autoImplicit false

namespace Ember

/-- No bracket of any kind. -/
def TokenKind.IsLeaf (k : TokenKind) : Prop := k.isOpenBracket = false ∧ k.isCloseBracket = false

instance (k : TokenKind) : Decidable k.IsLeaf := inferInstanceAs (Decidable (_ ∧ _))

theorem TokenKind.IsLeaf.ne_langle {k : TokenKind} (leaf : k.IsLeaf) : k ≠ .langle := by
  rintro rfl
  simp [TokenKind.IsLeaf, TokenKind.isOpenBracket] at leaf

theorem TokenKind.ne_langle_of_closing {k c : TokenKind} (h : k.closing? = some c) :
    c ≠ .langle := by
  rintro rfl
  cases k <;> simp [TokenKind.closing?] at h

/-- Reported of a bracket that the text never closes. -/
def IssueCode.IsUnclosed (c : IssueCode) : Prop :=
  c = .mismatchedOpeningParen ∨ c = .unterminatedSourceBlock

instance (c : IssueCode) : Decidable c.IsUnclosed := inferInstanceAs (Decidable (_ ∨ _))

/-- An opening bracket at this place was reported as never closed. -/
def Reported (issues : Array Issue) (span : Span) : Prop :=
  ∃ i ∈ issues, i.code.IsUnclosed ∧ i.span = span

theorem Reported.mono {issues more : Array Issue} {span : Span} (h : Reported issues span)
    (grows : ∀ i ∈ issues, i ∈ more) : Reported more span := by
  obtain ⟨i, member, unclosed⟩ := h
  exact ⟨i, grows i member, unclosed⟩

/-! ## Parts of a tree -/

namespace Node

mutual

def groups : Node → List Group
  | .token _ => []
  | .group ⟨opener, closer, contents⟩ => ⟨opener, closer, contents⟩ :: groupsOfList contents

def groupsOfList : List Node → List Group
  | [] => []
  | n :: ns => n.groups ++ groupsOfList ns

end

mutual

def leaves : Node → List Token
  | .token t => [t]
  | .group ⟨_, _, contents⟩ => leavesOfList contents

def leavesOfList : List Node → List Token
  | [] => []
  | n :: ns => n.leaves ++ leavesOfList ns

end

theorem tokens_group (g : Group) :
    (Node.group g).tokens = g.opener :: tokensOfList g.contents ++ [g.closer] := by
  cases g
  rfl

theorem groups_group (g : Group) : (Node.group g).groups = g :: groupsOfList g.contents := by
  cases g
  rfl

theorem leaves_group (g : Group) : (Node.group g).leaves = leavesOfList g.contents := by
  cases g
  rfl

theorem tokensOfList_append (ms ns : List Node) :
    tokensOfList (ms ++ ns) = tokensOfList ms ++ tokensOfList ns := by
  induction ms with
  | nil => rfl
  | cons m ms ih => simp [tokensOfList, ih]

theorem groupsOfList_append (ms ns : List Node) :
    groupsOfList (ms ++ ns) = groupsOfList ms ++ groupsOfList ns := by
  induction ms with
  | nil => rfl
  | cons m ms ih => simp [groupsOfList, ih]

theorem leavesOfList_append (ms ns : List Node) :
    leavesOfList (ms ++ ns) = leavesOfList ms ++ leavesOfList ns := by
  induction ms with
  | nil => rfl
  | cons m ms ih => simp [leavesOfList, ih]

end Node

/-- The token as the text has it: `<` is the operator, whether or not it opens type arguments. -/
def Token.shown (t : Token) : Token := if t.kind = .langle then { t with kind := .op .lt } else t

/-- What the text has of a token: nothing if it is virtual. -/
def Token.written (t : Token) : List Token := if t.isVirtual then [] else [t.shown]

theorem Token.written_of_ne {t : Token} (real : t.isVirtual = false) (kind : t.kind ≠ .langle) :
    t.written = [t] := by
  simp [written, shown, real, kind]

theorem Token.written_operator {t : Token} (kind : t.kind = .langle) :
    Token.written { t with kind := .op .lt } = t.written := by
  simp [written, shown, kind]

theorem Token.written_missing (kind : TokenKind) (span : Span) :
    (Token.missing kind span).written = [] := rfl

def Node.written (ns : List Node) : List Token := (Node.tokensOfList ns).flatMap Token.written

namespace Node

@[simp]
theorem written_nil : written [] = [] := rfl

@[simp]
theorem written_append (ms ns : List Node) : written (ms ++ ns) = written ms ++ written ns := by
  simp [written, tokensOfList_append]

theorem written_token (t : Token) : written [.token t] = t.written := by
  simp [written, tokensOfList, tokens]

theorem written_group (g : Group) :
    written [.group g] = g.opener.written ++ written g.contents ++ g.closer.written := by
  simp [written, tokensOfList, tokens_group]

end Node

def Frame.written (f : Frame) : List Token := f.opener.written ++ Node.written f.contents.toList

/-- What open frames hold, in the order of the text: the innermost frame comes last. -/
def Frame.writtenInAll : List Frame → List Token
  | [] => []
  | f :: fs => writtenInAll fs ++ f.written

def Scan.written (s : Scan) : List Token :=
  Node.written s.root.toList ++ Frame.writtenInAll s.frames

/-! ## What is true of a pair of brackets -/

structure Group.Sound (issues : Array Issue) (g : Group) : Prop where
  matched : g.opener.kind.closing? = some g.closer.kind
  real : g.opener.isVirtual = false
  reported : g.closer.isVirtual = true → Reported issues g.opener.span
  closed : g.opener.kind = .langle → g.closer.isVirtual = false
  arguments : g.opener.kind = .langle →
    ∀ t, Node.token t ∈ g.contents → Scan.allowedInTypeArgs t.kind = true

structure Matched (issues : Array Issue) (ns : List Node) : Prop where
  leaves : ∀ t ∈ Node.leavesOfList ns, t.kind.IsLeaf
  real : ∀ t ∈ Node.leavesOfList ns, t.isVirtual = false
  groups : ∀ g ∈ Node.groupsOfList ns, g.Sound issues

namespace Matched

variable {issues more : Array Issue}

theorem nil : Matched issues [] :=
  ⟨by simp [Node.leavesOfList], by simp [Node.leavesOfList], by simp [Node.groupsOfList]⟩

theorem append {ms ns : List Node} (first : Matched issues ms) (second : Matched issues ns) :
    Matched issues (ms ++ ns) := by
  refine ⟨fun t member => ?_, fun t member => ?_, fun g member => ?_⟩
  · rw [Node.leavesOfList_append] at member
    exact (List.mem_append.mp member).elim (first.leaves t) (second.leaves t)
  · rw [Node.leavesOfList_append] at member
    exact (List.mem_append.mp member).elim (first.real t) (second.real t)
  · rw [Node.groupsOfList_append] at member
    exact (List.mem_append.mp member).elim (first.groups g) (second.groups g)

theorem token {t : Token} (leaf : t.kind.IsLeaf) (real : t.isVirtual = false) :
    Matched issues [.token t] := by
  have only : Node.leavesOfList [.token t] = [t] := rfl
  refine ⟨?_, ?_, by simp [Node.groupsOfList, Node.groups]⟩
  · rw [only, List.forall_mem_singleton]
    exact leaf
  · rw [only, List.forall_mem_singleton]
    exact real

theorem group {g : Group} (sound : g.Sound issues) (inside : Matched issues g.contents) :
    Matched issues [.group g] := by
  have same : Node.leavesOfList [.group g] = Node.leavesOfList g.contents := by
    simp [Node.leavesOfList, Node.leaves_group]
  refine ⟨same ▸ inside.leaves, same ▸ inside.real, fun h member => ?_⟩
  simp only [Node.groupsOfList, Node.groups_group, List.append_nil, List.mem_cons] at member
  rcases member with rfl | deeper
  · exact sound
  · exact inside.groups h deeper

theorem mono {ns : List Node} (h : Matched issues ns) (grows : ∀ i ∈ issues, i ∈ more) :
    Matched more ns := by
  refine ⟨h.leaves, h.real, fun g member => ?_⟩
  obtain ⟨matched, real, reported, closed, arguments⟩ := h.groups g member
  exact ⟨matched, real, fun missing => (reported missing).mono grows, closed, arguments⟩

end Matched

namespace Frame

/-- The opening bracket belongs to the kind of the frame. -/
def Fits (f : Frame) : Prop :=
  match f.kind with
  | .candidate => f.opener.kind = .langle
  | .source _ => f.opener.kind = .lbrace
  | .group => f.opener.kind ≠ .langle ∧ ∃ k, f.opener.kind.closing? = some k

def isForeign (f : Frame) : Bool :=
  match f.kind with
  | .source _ => true
  | _ => false

@[simp]
theorem append_kind (f : Frame) (ns : Array Node) : (f.append ns).kind = f.kind := rfl

@[simp]
theorem append_opener (f : Frame) (ns : Array Node) : (f.append ns).opener = f.opener := rfl

@[simp]
theorem append_contents (f : Frame) (ns : Array Node) :
    (f.append ns).contents = f.contents ++ ns := rfl

@[simp]
theorem append_isCandidate (f : Frame) (ns : Array Node) :
    (f.append ns).isCandidate = f.isCandidate := rfl

@[simp]
theorem append_isForeign (f : Frame) (ns : Array Node) :
    (f.append ns).isForeign = f.isForeign := rfl

theorem append_written (f : Frame) (ns : Array Node) :
    (f.append ns).written = f.written ++ Node.written ns.toList := by
  simp [written]

theorem isCandidate_iff (f : Frame) : f.isCandidate = true ↔ f.kind = .candidate := by
  simp [isCandidate]

theorem isForeign_iff (f : Frame) : f.isForeign = true ↔ ∃ depth, f.kind = .source depth := by
  unfold isForeign
  cases f.kind <;> simp

theorem Fits.append {f : Frame} (h : f.Fits) (ns : Array Node) : (f.append ns).Fits := h

/-- A frame that is no candidate does not open type arguments. -/
theorem Fits.opener_ne {f : Frame} (h : f.Fits) (other : f.isCandidate = false) :
    f.opener.kind ≠ .langle := by
  unfold Fits at h
  split at h
  · rename_i kind
    simp [isCandidate, kind] at other
  · simp [h]
  · exact h.1

/-- An abandoned frame leaves in the text what it held. -/
theorem Fits.abandon_written {f : Frame} (h : f.Fits) (place : Span) :
    Node.written (f.abandon place).1.toList = f.written := by
  unfold abandon
  split
  · rename_i kind
    have angle : f.opener.kind = .langle := by simpa [Fits, kind] using h
    rw [Array.toList_append, Node.written_append, Node.written_token,
      Token.written_operator angle, written]
  · simp [Frame.close, Node.written_group, written, Token.written_missing]
  · simp [Frame.close, Node.written_group, written, Token.written_missing]

structure Sound (issues : Array Issue) (f : Frame) : Prop where
  fits : f.Fits
  real : f.opener.isVirtual = false
  arguments : f.isCandidate = true →
    ∀ t, Node.token t ∈ f.contents.toList → Scan.allowedInTypeArgs t.kind = true
  level : Matched issues f.contents.toList

variable {issues more : Array Issue}

theorem Sound.mono {f : Frame} (h : f.Sound issues) (grows : ∀ i ∈ issues, i ∈ more) :
    f.Sound more :=
  ⟨h.fits, h.real, h.arguments, h.level.mono grows⟩

/-- Nodes may be added to a frame that is no candidate. -/
theorem Sound.append {f : Frame} (h : f.Sound issues) (other : f.isCandidate = false)
    {ns : Array Node} (level : Matched issues ns.toList) : (f.append ns).Sound issues := by
  refine ⟨h.fits.append ns, h.real, fun candidate => ?_, ?_⟩
  · rw [append_isCandidate, other] at candidate
    cases candidate
  · rw [append_contents, Array.toList_append]
    exact h.level.append level

/-- What an abandoned frame leaves is sound, given what it reports. -/
theorem Fits.abandon_level {f : Frame} (h : f.Fits) (real : f.opener.isVirtual = false)
    (level : Matched issues f.contents.toList) (place : Span) :
    Matched (issues ++ (f.abandon place).2) (f.abandon place).1.toList := by
  have grows (more : Array Issue) : ∀ i ∈ issues, i ∈ issues ++ more := by
    intro i member
    simp [member]
  have paired {kind : TokenKind} (matched : f.opener.kind.closing? = some kind)
      (other : f.isCandidate = false) {code : IssueCode} (unclosed : code.IsUnclosed) :
      Matched (issues ++ #[⟨code, f.opener.span⟩]) [f.close (Token.missing kind place)] := by
    have angle : f.opener.kind ≠ .langle := h.opener_ne other
    refine .group ⟨matched, real, fun _ => ?_, fun open_ => absurd open_ angle,
      fun open_ => absurd open_ angle⟩ (level.mono (grows _))
    exact ⟨⟨code, f.opener.span⟩, by simp, unclosed, rfl⟩
  unfold abandon
  split
  · rw [Array.toList_append]
    exact .append (.token ⟨rfl, rfl⟩ real) (level.mono (grows _))
  · rename_i kind
    have opens : f.opener.kind ≠ .langle ∧ ∃ k, f.opener.kind.closing? = some k := by
      simpa [Fits, kind] using h
    obtain ⟨closer, matched⟩ := opens.2
    rw [matched]
    exact paired matched (by simp [isCandidate, kind]) (.inl rfl)
  · rename_i kind
    have brace : f.opener.kind = .lbrace := by simpa [Fits, kind] using h
    exact paired (by rw [brace]; rfl) (by simp [isCandidate, kind]) (.inr rfl)

end Frame

/-! ## Unwinding -/

section Unwind

variable (stays : Frame → Bool) (place : Span)

theorem unwind_written (fs : List Frame) (ns : Array Node) (issues : Array Issue)
    (fits : ∀ f ∈ fs, f.Fits) :
    Node.written (unwind stays place ns issues fs).fallen.toList ++
        Frame.writtenInAll (unwind stays place ns issues fs).frames =
      Frame.writtenInAll fs ++ Node.written ns.toList := by
  induction fs generalizing ns issues with
  | nil => simp [unwind, Frame.writtenInAll]
  | cons f fs ih =>
    rw [unwind]
    split
    · simp [Frame.writtenInAll, Frame.append_written]
    · rw [ih _ _ fun g member => fits g (by simp [member]),
        ((fits f (by simp)).append ns).abandon_written, Frame.append_written]
      simp [Frame.writtenInAll]

/-- What is left after frames were abandoned is sound, given what was reported. -/
theorem unwind_sound {stays : Frame → Bool} {base : Array Issue}
    (settled : ∀ f, stays f = true → f.isCandidate = false)
    (fs : List Frame) (ns : Array Node) (issues : Array Issue)
    (frames : ∀ f ∈ fs, f.Sound (base ++ issues)) (level : Matched (base ++ issues) ns.toList) :
    Matched (base ++ (unwind stays place ns issues fs).issues)
        (unwind stays place ns issues fs).fallen.toList ∧
      ∀ f ∈ (unwind stays place ns issues fs).frames,
        f.Sound (base ++ (unwind stays place ns issues fs).issues) := by
  induction fs generalizing ns issues with
  | nil => exact ⟨level, by simp [unwind]⟩
  | cons f fs ih =>
    have first : f.Sound (base ++ issues) := frames f (by simp)
    rw [unwind]
    split
    · rename_i stay
      refine ⟨.nil, fun g member => ?_⟩
      rcases List.mem_cons.mp member with rfl | rest
      · exact first.append (by simpa using settled _ stay) level
      · exact frames g (by simp [rest])
    · have inside : Matched (base ++ issues) (f.append ns).contents.toList := by
        rw [Frame.append_contents, Array.toList_append]
        exact first.level.append level
      have left := (first.fits.append ns).abandon_level first.real inside place
      rw [Array.append_assoc] at left
      refine ih _ _ (fun g member => (frames g (by simp [member])).mono ?_) left
      intro i known
      simp only [Array.mem_append] at known ⊢
      tauto

def Held (g : Group) (ns : List Node) (fs : List Frame) : Prop :=
  g ∈ Node.groupsOfList ns ∨ ∃ f ∈ fs, g ∈ Node.groupsOfList f.contents.toList

theorem Frame.mem_abandon {f : Frame} {g : Group}
    (member : g ∈ Node.groupsOfList f.contents.toList) :
    g ∈ Node.groupsOfList (f.abandon place).1.toList := by
  unfold abandon
  split
  · rw [Array.toList_append, Node.groupsOfList_append]
    exact List.mem_append_right _ member
  · simp [Frame.close, Node.groupsOfList, Node.groups_group, member]
  · simp [Frame.close, Node.groupsOfList, Node.groups_group, member]

theorem Frame.abandon_reports {place : Span} {f : Frame} {i : Issue}
    (new : i ∈ (f.abandon place).2) : ∃ g ∈ Node.groupsOfList (f.abandon place).1.toList,
      g.closer.isVirtual = true ∧ g.opener.span = i.span := by
  have made (kind : TokenKind) : ∃ g ∈ Node.groupsOfList [f.close (Token.missing kind place)],
      g.closer.isVirtual = true ∧ g.opener.span = f.opener.span :=
    ⟨⟨f.opener, Token.missing kind place, f.contents.toList⟩,
      by simp [Frame.close, Node.groupsOfList, Node.groups_group], rfl, rfl⟩
  unfold abandon at new ⊢
  split at new
  · simp at new
  · rename_i kind
    cases Array.mem_singleton.mp new
    exact made _
  · rename_i kind
    cases Array.mem_singleton.mp new
    exact made _

theorem Held.unwind {g : Group} {fs : List Frame} {ns : Array Node} (issues : Array Issue)
    (h : Held g ns.toList fs) : Held g (unwind stays place ns issues fs).fallen.toList
      (unwind stays place ns issues fs).frames := by
  induction fs generalizing ns issues with
  | nil => exact h
  | cons f fs ih =>
    -- The nodes at hand and those of the first frame come together, the other frames stay.
    have moved : g ∈ Node.groupsOfList (f.append ns).contents.toList ∨
        ∃ e ∈ fs, g ∈ Node.groupsOfList e.contents.toList := by
      rw [Frame.append_contents, Array.toList_append, Node.groupsOfList_append, List.mem_append]
      rcases h with here | ⟨e, member, there⟩
      · exact .inl (.inr here)
      · rcases List.mem_cons.mp member with rfl | rest
        · exact .inl (.inl there)
        · exact .inr ⟨e, rest, there⟩
    rw [Ember.unwind]
    split
    · rcases moved with here | ⟨e, member, there⟩
      · exact .inr ⟨_, by simp, here⟩
      · exact .inr ⟨e, by simp [member], there⟩
    · refine ih _ ?_
      rcases moved with here | there
      · exact .inl (Frame.mem_abandon place here)
      · exact .inr there

/-- Each report of unwinding names the opener of a pair with a virtual closer. -/
theorem unwind_reports {i : Issue} (fs : List Frame) (ns : Array Node) (issues : Array Issue)
    (member : i ∈ (unwind stays place ns issues fs).issues) : i ∈ issues ∨
      ∃ g, Held g (unwind stays place ns issues fs).fallen.toList
          (unwind stays place ns issues fs).frames ∧
        g.closer.isVirtual = true ∧ g.opener.span = i.span := by
  induction fs generalizing ns issues with
  | nil => exact .inl member
  | cons f fs ih =>
    rw [unwind] at member ⊢
    split at member
    · rename_i stay
      exact .inl member
    · rename_i leaves
      rw [if_neg leaves]
      rcases ih _ _ member with before | found
      · rcases Array.mem_append.mp before with known | new
        · exact .inl known
        · refine .inr ?_
          obtain ⟨g, made, missing, same⟩ := Frame.abandon_reports new
          exact ⟨g, Held.unwind stays place _ (.inl made), missing, same⟩
      · exact .inr found

/-- Unwinding keeps the outer frames, and what it keeps ends with a frame that stays. -/
theorem unwind_frames (fs : List Frame) (ns : Array Node) (issues : Array Issue) :
    (unwind stays place ns issues fs).frames = [] ∨
      ∃ f more rest, (unwind stays place ns issues fs).frames = f.append more :: rest ∧
        f :: rest <:+ fs ∧ stays (f.append more) = true := by
  induction fs generalizing ns issues with
  | nil => exact .inl rfl
  | cons f fs ih =>
    rw [unwind]
    split
    · rename_i stay
      exact .inr ⟨f, ns, fs, rfl, List.suffix_refl _, stay⟩
    · rcases ih _ _ with none_ | ⟨e, more, rest, same, outer, stay⟩
      · exact .inl none_
      · exact .inr ⟨e, more, rest, same, outer.trans (List.suffix_cons f fs), stay⟩

theorem unwind_frames_ne_nil {stays : Frame → Bool} {f : Frame} {fs : List Frame} (member : f ∈ fs)
    (stay : ∀ ns, stays (f.append ns) = true) (ns : Array Node) (issues : Array Issue) :
    (unwind stays place ns issues fs).frames ≠ [] := by
  induction fs generalizing ns issues with
  | nil => simp at member
  | cons e fs ih =>
    rw [unwind]
    split
    · simp
    · rename_i leaves
      rcases List.mem_cons.mp member with rfl | rest
      · exact absurd (stay ns) leaves
      · exact ih rest _ _

end Unwind

/-! ## The whole scan -/

namespace Scan

def Holds (s : Scan) (g : Group) : Prop := Held g s.root.toList s.frames

def inForeign (s : Scan) : Bool := s.frames.head?.any Frame.isForeign

/-- Directly inside foreign text there are only ordinary frames. -/
def Nested (fs : List Frame) : Prop :=
  fs.IsChain fun inner outer => outer.isForeign = true → inner.kind = .group

theorem Nested.append {f : Frame} {fs : List Frame} (h : Nested (f :: fs)) (ns : Array Node) :
    Nested (f.append ns :: fs) := by
  cases fs with
  | nil => exact .singleton _
  | cons e fs =>
    obtain ⟨first, rest⟩ := List.isChain_cons_cons.mp h
    exact .cons_cons first rest

theorem Nested.suffix {fs outer : List Frame} (h : Nested fs) (kept : outer <:+ fs) :
    Nested outer := List.IsChain.suffix h kept

structure Settled (s : Scan) : Prop where
  root : Matched s.issues s.root.toList
  frames : ∀ f ∈ s.frames, f.Sound s.issues
  nested : Nested s.frames

structure Sound (s : Scan) : Prop extends Settled s where
  reports : ∀ i ∈ s.issues, i.code.IsUnclosed →
    ∃ g, s.Holds g ∧ g.closer.isVirtual = true ∧ g.opener.span = i.span

/-- `s'` comes from `s` by writing these tokens. -/
structure Adds (s : Scan) (ts : List Token) (s' : Scan) : Prop where
  sound : s'.Sound
  written : s'.written = s.written ++ ts
  issues : ∀ i ∈ s.issues, i ∈ s'.issues
  marker : s'.marker = s.marker
  chunk : s'.chunk = s.chunk

theorem Adds.refl {s : Scan} (sound : s.Sound) : Adds s [] s :=
  ⟨sound, by simp, fun _ member => member, rfl, rfl⟩

theorem Adds.trans {s s' s'' : Scan} {ts us : List Token} (first : Adds s ts s')
    (second : Adds s' us s'') : Adds s (ts ++ us) s'' := by
  refine ⟨second.sound, ?_, fun i member => second.issues i (first.issues i member),
    second.marker.trans first.marker, second.chunk.trans first.chunk⟩
  rw [second.written, first.written, List.append_assoc]

variable {s : Scan}

/-- What the scan remembers of the token before is of no account. -/
theorem Adds.remember {s' : Scan} {ts : List Token} (h : Adds s ts s') (lastEnd : Option Nat)
    (prev : Option TokenKind) (arm : Arm) : Adds s ts { s' with lastEnd, prev, arm } :=
  ⟨⟨⟨h.sound.root, h.sound.frames, h.sound.nested⟩, h.sound.reports⟩, h.written, h.issues,
    h.marker, h.chunk⟩

theorem raise_adds (sound : s.Sound) {code : IssueCode} (other : ¬ code.IsUnclosed) (span : Span) :
    Adds s [] (s.raise code span) := by
  have grows : ∀ i ∈ s.issues, i ∈ (s.raise code span).issues := by
    intro i member
    simp [raise, member]
  refine ⟨⟨⟨sound.root.mono grows, fun f member => (sound.frames f member).mono grows,
    sound.nested⟩, ?_⟩, by simp [raise, written], grows, rfl, rfl⟩
  intro i member unclosed
  rcases Array.mem_push.mp member with known | rfl
  · exact sound.reports i known unclosed
  · exact absurd unclosed other

theorem mem_raise (code : IssueCode) (span : Span) :
    (⟨code, span⟩ : Issue) ∈ (s.raise code span).issues := by
  simp [raise]

/-! ### Nodes -/

theorem push_written (s : Scan) (n : Node) :
    (s.push n).written = s.written ++ Node.written [n] := by
  unfold push
  split
  · rename_i none_
    simp [written, none_, Frame.writtenInAll]
  · rename_i f fs some_
    simp [written, some_, Frame.writtenInAll, Frame.append_written]

theorem Holds.push {g : Group} (h : s.Holds g) (n : Node) : (s.push n).Holds g := by
  unfold Scan.push
  split
  · rename_i none_
    rcases h with here | ⟨f, member, _⟩
    · refine .inl ?_
      rw [Array.toList_push, Node.groupsOfList_append]
      exact List.mem_append_left _ here
    · simp [none_] at member
  · rename_i f fs some_
    rcases h with here | ⟨e, member, there⟩
    · exact .inl here
    · rcases List.mem_cons.mp (some_ ▸ member) with rfl | rest
      · refine .inr ⟨_, List.mem_cons_self, ?_⟩
        rw [Frame.append_contents, Array.toList_append, Node.groupsOfList_append]
        exact List.mem_append_left _ there
      · exact .inr ⟨e, List.mem_cons_of_mem _ rest, there⟩

theorem holds_push {g : Group} {n : Node} (member : g ∈ n.groups) : (s.push n).Holds g := by
  unfold push
  split
  · refine .inl ?_
    simp [Node.groupsOfList_append, Node.groupsOfList, member]
  · refine .inr ⟨_, List.mem_cons_self, ?_⟩
    simp [Node.groupsOfList_append, Node.groupsOfList, member]

/-- A node may be added to the innermost frame, unless it is a token that a list of type arguments
cannot hold and the frame is a candidate. -/
theorem Settled.push (h : s.Settled) {n : Node} (level : Matched s.issues [n])
    (fits : s.atCandidate = true → ∀ t, n = .token t → allowedInTypeArgs t.kind = true) :
    (s.push n).Settled := by
  unfold Scan.push
  split
  · refine ⟨?_, h.frames, h.nested⟩
    rw [Array.toList_push]
    exact h.root.append level
  · rename_i f fs some_
    have first : f.Sound s.issues := h.frames f (by simp [some_])
    have candidate : s.atCandidate = f.isCandidate := by simp [atCandidate, some_]
    refine ⟨h.root, fun e member => ?_, Nested.append (some_ ▸ h.nested) _⟩
    rcases List.mem_cons.mp member with rfl | rest
    · refine ⟨first.fits.append _, first.real, fun open_ t inside => ?_, ?_⟩
      · simp only [Frame.append_contents, Array.toList_append, List.mem_append,
          List.mem_singleton] at inside
        rcases inside with old | new
        · exact first.arguments open_ t old
        · exact fits (candidate.trans open_) t new.symm
      · rw [Frame.append_contents, Array.toList_append]
        exact first.level.append level
    · exact h.frames e (by simp [some_, rest])

theorem push_same (s : Scan) (n : Node) : (s.push n).issues = s.issues ∧
    (s.push n).marker = s.marker ∧ (s.push n).chunk = s.chunk := by
  unfold push
  split <;> exact ⟨rfl, rfl, rfl⟩

theorem push_adds (sound : s.Sound) {n : Node} (level : Matched s.issues [n])
    (fits : s.atCandidate = true → ∀ t, n = .token t → allowedInTypeArgs t.kind = true) :
    Adds s (Node.written [n]) (s.push n) := by
  obtain ⟨issues, marker, chunk⟩ := push_same s n
  refine ⟨⟨sound.toSettled.push level fits, ?_⟩, push_written s n, ?_, marker, chunk⟩
  · intro i member unclosed
    obtain ⟨g, held, missing⟩ := sound.reports i (issues ▸ member) unclosed
    exact ⟨g, held.push n, missing⟩
  · rw [issues]
    exact fun _ member => member

/-! ### Frames that are abandoned -/

theorem holds_unwindTo {g : Group} {stays : Frame → Bool} {place : Span}
    (h : Held g (unwind stays place #[] #[] s.frames).fallen.toList
      (unwind stays place #[] #[] s.frames).frames) : (s.unwindTo stays place).Holds g := by
  rcases h with here | there
  · refine .inl ?_
    simp only [unwindTo, Array.toList_append, Node.groupsOfList_append]
    exact List.mem_append_right _ here
  · exact .inr there

theorem Holds.unwindTo {g : Group} (h : s.Holds g) (stays : Frame → Bool) (place : Span) :
    (s.unwindTo stays place).Holds g := by
  rcases h with here | there
  · refine .inl ?_
    simp only [Scan.unwindTo, Array.toList_append, Node.groupsOfList_append]
    exact List.mem_append_left _ here
  · exact holds_unwindTo (Held.unwind stays place #[] (.inr there))

/-- Frames may be abandoned up to one that is no candidate. -/
theorem unwindTo_adds (sound : s.Sound) {stays : Frame → Bool}
    (settled : ∀ f, stays f = true → f.isCandidate = false) (place : Span) :
    Adds s [] (s.unwindTo stays place) := by
  have known : s.issues ++ #[] = s.issues := Array.append_empty
  have grows : ∀ i ∈ s.issues, i ∈ (s.unwindTo stays place).issues := by
    intro i member
    simp [unwindTo, member]
  obtain ⟨fallen, kept⟩ := unwind_sound place settled s.frames #[] #[]
    (by rw [known]; exact sound.frames) .nil
  refine ⟨⟨⟨?_, kept, ?_⟩, ?_⟩, ?_, grows, rfl, rfl⟩
  · simp only [unwindTo, Array.toList_append]
    exact (sound.root.mono grows).append fallen
  · rcases unwind_frames stays place s.frames #[] #[] with
      none_ | ⟨f, more, rest, same, outer, _⟩
    · rw [unwindTo, none_]
      exact .nil
    · rw [unwindTo, same]
      exact (sound.nested.suffix outer).append more
  · intro i member unclosed
    rcases Array.mem_append.mp member with old | new
    · obtain ⟨g, held, missing⟩ := sound.reports i old unclosed
      exact ⟨g, held.unwindTo stays place, missing⟩
    · rcases unwind_reports stays place s.frames #[] #[] new with none_ | ⟨g, held, missing⟩
      · simp at none_
      · exact ⟨g, holds_unwindTo held, missing⟩
  · have same := unwind_written stays place s.frames #[] #[] fun f member =>
      (sound.frames f member).fits
    simp only [unwindTo, written, Array.toList_append, Node.written_append, List.append_assoc,
      same]
    simp

theorem demote_adds (sound : s.Sound) : Adds s [] s.demote :=
  unwindTo_adds sound (by simp) Span.virtual

theorem demote_atCandidate (s : Scan) : s.demote.atCandidate = false := by
  rcases unwind_frames (fun f => !f.isCandidate) Span.virtual s.frames #[] #[] with
    none_ | ⟨f, more, rest, same, _, stay⟩
  · simp [atCandidate, demote, unwindTo, none_]
  · simpa [atCandidate, demote, unwindTo, same] using stay

/-- Under a candidate there is no foreign text. -/
theorem unwind_candidates_foreign {fs : List Frame} (nested : Nested fs)
    (outside : fs.head?.any Frame.isForeign = false) (ns : Array Node) (issues : Array Issue) :
    (unwind (fun f => !f.isCandidate) Span.virtual ns issues fs).frames.head?.any
      Frame.isForeign = false := by
  induction fs generalizing ns issues with
  | nil => rfl
  | cons f fs ih =>
    rw [unwind]
    split
    · exact outside
    · rename_i leaves
      have candidate : f.kind = .candidate := by simpa [Frame.isCandidate_iff] using leaves
      refine ih (nested.suffix (List.suffix_cons f fs)) ?_ _ _
      cases fs with
      | nil => rfl
      | cons e fs =>
        have below := (List.isChain_cons_cons.mp nested).1
        simpa [candidate] using below

theorem demote_inForeign (sound : s.Sound) (outside : s.inForeign = false) :
    s.demote.inForeign = false := unwind_candidates_foreign sound.nested outside #[] #[]

/-! ### Tokens and brackets -/

theorem push_token_adds (sound : s.Sound) {t : Token} (real : t.isVirtual = false)
    (leaf : t.kind.IsLeaf) (fits : s.atCandidate = true → allowedInTypeArgs t.kind = true) :
    Adds s [t] (s.push (.token t)) := by
  have adds : Adds s (Node.written [.token t]) (s.push (.token t)) := by
    refine push_adds sound (.token leaf real) ?_
    rintro candidate u ⟨⟩
    exact fits candidate
  rwa [Node.written_token, Token.written_of_ne real leaf.ne_langle] at adds

theorem emit_adds (sound : s.Sound) {t : Token} (real : t.isVirtual = false)
    (leaf : t.kind.IsLeaf) : Adds s [t] (s.emit t) := by
  unfold emit
  by_cases fits : allowedInTypeArgs t.kind = true
  · rw [if_pos fits]
    exact (push_token_adds sound real leaf fun _ => fits).remember _ _ _
  · rw [if_neg fits]
    have demoted := demote_adds sound
    have pushed := push_token_adds demoted.sound real leaf (by simp [demote_atCandidate])
    exact (demoted.trans pushed).remember _ _ _

theorem emit_inForeign (sound : s.Sound) (outside : s.inForeign = false) (t : Token) :
    (s.emit t).inForeign = false := by
  have pushed {s' : Scan} (outside : s'.inForeign = false) (n : Node) :
      (s'.push n).inForeign = false := by
    unfold push
    split
    · exact outside
    · rename_i some_
      simpa [inForeign, some_] using outside
  unfold emit
  by_cases fits : allowedInTypeArgs t.kind = true
  · rw [if_pos fits]
    exact pushed outside _
  · rw [if_neg fits]
    exact pushed (demote_inForeign sound outside) _

theorem openFrame_adds (sound : s.Sound) (kind : FrameKind) (opener : Token)
    (fits : Frame.Fits { kind, opener }) (real : opener.isVirtual = false)
    (nested : s.inForeign = true → kind = .group) :
    Adds s opener.written (s.openFrame kind opener) := by
  refine ⟨⟨⟨sound.root, fun f member => ?_, ?_⟩, fun i member unclosed => ?_⟩, ?_,
    fun _ member => member, rfl, rfl⟩
  · rcases List.mem_cons.mp member with rfl | rest
    · exact ⟨fits, real, by simp, .nil⟩
    · exact sound.frames f rest
  · have below := sound.nested
    unfold inForeign at nested
    unfold openFrame
    cases frames : s.frames with
    | nil => exact .singleton _
    | cons e fs =>
      rw [frames] at below nested
      exact .cons_cons nested below
  · obtain ⟨g, held, missing⟩ := sound.reports i member unclosed
    refine ⟨g, ?_, missing⟩
    rcases held with here | ⟨f, member, there⟩
    · exact .inl here
    · exact .inr ⟨f, List.mem_cons_of_mem _ member, there⟩
  · simp [openFrame, written, Frame.writtenInAll, Frame.written]

/-- The innermost frame may be closed by the bracket that belongs to it. -/
theorem closeFrame_adds (sound : s.Sound) {f : Frame} {fs : List Frame} (closer : Token)
    (top : s.frames = f :: fs) (real : closer.isVirtual = false)
    (matched : f.opener.kind.closing? = some closer.kind) :
    Adds s [closer] (s.closeFrame closer) := by
  have first : f.Sound s.issues := sound.frames f (by simp [top])
  have pair : Matched s.issues [f.close closer] := by
    refine .group ⟨matched, first.real, by simp [real], fun _ => real, fun open_ => ?_⟩ first.level
    refine first.arguments ?_
    by_contra other
    exact first.fits.opener_ne (by simpa using other) open_
  have below : Settled { s with frames := fs } := by
    refine ⟨sound.root, fun e member => sound.frames e (by simp [top, member]), ?_⟩
    exact sound.nested.suffix (top ▸ List.suffix_cons f fs)
  obtain ⟨issues, marker, chunk⟩ := push_same { s with frames := fs } (f.close closer)
  have adds : Adds s [closer] (Scan.push { s with frames := fs } (f.close closer)) := by
    refine ⟨⟨below.push pair (by simp [Frame.close]), fun i member unclosed => ?_⟩, ?_, ?_, marker,
      chunk⟩
    · obtain ⟨g, held, missing⟩ := sound.reports i (issues ▸ member) unclosed
      refine ⟨g, ?_, missing⟩
      have kept (h : Holds { s with frames := fs } g) := h.push (f.close closer)
      rcases held with here | ⟨e, member, there⟩
      · exact kept (.inl here)
      · rcases List.mem_cons.mp (top ▸ member) with rfl | rest
        · refine holds_push ?_
          rw [Frame.close, Node.groups_group]
          exact List.mem_cons_of_mem _ there
        · exact kept (.inr ⟨e, rest, there⟩)
    · rw [push_written, Frame.close, Node.written_group,
        Token.written_of_ne real (TokenKind.ne_langle_of_closing matched)]
      simp [written, top, Frame.writtenInAll, Frame.written]
    · rw [issues]
      exact fun _ member => member
  unfold closeFrame
  rw [top]
  exact adds.remember _ _ _

/-- A closing bracket is written, or reported where it belongs to no frame. -/
theorem close_adds (sound : s.Sound) {closer : Token} (real : closer.isVirtual = false) :
    Adds s [closer] (s.close closer) ∨
      Adds s [] (s.close closer) ∧
        (⟨.mismatchedClosingParen, closer.span⟩ : Issue) ∈ (s.close closer).issues := by
  have demoted := demote_adds sound
  unfold close
  by_cases found : s.demote.frames.any (·.closedBy closer.kind) = true
  · left
    rw [if_pos found]
    obtain ⟨f, member, belongs⟩ := List.any_eq_true.mp found
    have settled : ∀ f : Frame, f.closedBy closer.kind = true → f.isCandidate = false := by
      intro f closes
      simp only [Frame.closedBy, Bool.and_eq_true, Bool.not_eq_true'] at closes
      exact closes.1
    have unwound := unwindTo_adds demoted.sound settled
      (Span.point s.demote.chunk closer.span.start)
    refine demoted.trans (unwound.trans ?_)
    rcases unwind_frames (·.closedBy closer.kind) (Span.point s.demote.chunk closer.span.start)
      s.demote.frames #[] #[] with none_ | ⟨e, more, rest, top, _, stay⟩
    · exact absurd none_ (unwind_frames_ne_nil _ member (fun _ => belongs) _ _)
    · refine closeFrame_adds unwound.sound closer top real ?_
      simp only [Frame.closedBy, Bool.and_eq_true, beq_iff_eq] at stay
      exact stay.2
  · right
    rw [if_neg found]
    exact ⟨demoted.trans (raise_adds demoted.sound (by decide) _), mem_raise _ _⟩

end Scan
end Ember

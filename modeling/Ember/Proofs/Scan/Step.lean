import Ember.Proofs.Lexemes
import Ember.Proofs.Scan.Stack

/-!
# What one piece of the text does to a scan

`Takes` lists all that can happen: the piece is skipped, sets a marker, is an unknown character, is
an operator that spends the marker, is covered by tokens that stand end to end, or is a closing
bracket that belongs to nothing. `At` says where a scan can come, and `At.invariant` is the rule
for what holds at all these places.
-/

set_option autoImplicit false

namespace Ember

/-- Tokens that stand end to end from `start` to `stop`, and no marked operator among them. -/
def Tiled : Nat → Nat → List Token → Prop
  | start, stop, [] => start = stop
  | start, stop, t :: ts =>
    t.span.start = start ∧ start < t.span.stop ∧ t.kind.isMarked = false ∧ Tiled t.span.stop stop ts

theorem Tiled.single {t : Token} (some_ : t.span.start < t.span.stop)
    (plain : t.kind.isMarked = false) : Tiled t.span.start t.span.stop [t] :=
  ⟨rfl, some_, plain, rfl⟩

theorem Tiled.append {a b c : Nat} {ts us : List Token} (first : Tiled a b ts)
    (second : Tiled b c us) : Tiled a c (ts ++ us) := by
  induction ts generalizing a with
  | nil => exact (show a = b from first) ▸ second
  | cons t ts ih =>
    obtain ⟨start, some_, plain, rest⟩ := first
    exact ⟨start, some_, plain, ih rest⟩

/-- An opening bracket keeps its place in the text. -/
theorem Token.written_tiled {t : Token} (real : t.isVirtual = false)
    (some_ : t.span.start < t.span.stop) (plain : t.kind.isMarked = false) :
    Tiled t.span.start t.span.stop t.written := by
  rw [Token.written, if_neg (by simp [real]), Token.shown]
  split
  · exact ⟨rfl, some_, rfl, rfl⟩
  · exact .single some_ plain

theorem Lexeme.isMarked_of_mem_fixedKinds : ∀ k ∈ Lexeme.fixedKinds, k.isMarked = false := by decide

/-- A kind with one spelling is a bracket that groups tokens, or no bracket at all. -/
theorem Lexeme.isLeaf_of_mem_fixedKinds : ∀ k ∈ Lexeme.fixedKinds,
    k ∈ [TokenKind.lparen, .lbracket, .lbrace, .rparen, .rbracket, .rbrace] ∨ k.IsLeaf := by decide

namespace Scan

variable {s : Scan}

/-! ## One lexeme -/

/-- The text of `t` is in the tokens that were added, or it is a closing bracket that was
reported. -/
def Consumes (s : Scan) (t : Token) (s' : Scan) : Prop :=
  (∃ ts, Adds s ts s' ∧ Tiled t.span.start t.span.stop ts) ∨
    Adds s [] s' ∧ (⟨.mismatchedClosingParen, t.span⟩ : Issue) ∈ s'.issues

theorem Adds.consumes {s' s'' : Scan} {t : Token} (first : Adds s [] s')
    (second : Consumes s' t s'') : Consumes s t s'' := by
  rcases second with ⟨ts, adds, tiled⟩ | ⟨adds, reported⟩
  · exact .inl ⟨ts, first.trans adds, tiled⟩
  · exact .inr ⟨first.trans adds, reported⟩

theorem Consumes.remember {s' : Scan} {t : Token} (h : Consumes s t s') (lastEnd : Option Nat)
    (prev : Option TokenKind) (arm : Arm) : Consumes s t { s' with lastEnd, prev, arm } := by
  rcases h with ⟨ts, adds, tiled⟩ | ⟨adds, reported⟩
  · exact .inl ⟨ts, adds.remember lastEnd prev arm, tiled⟩
  · exact .inr ⟨adds.remember lastEnd prev arm, reported⟩

/-- Raising issues of unknown escapes writes nothing. -/
theorem raiseAll_adds (sound : s.Sound) {code : IssueCode} (other : ¬ code.IsUnclosed)
    (faults : List (Nat × Nat)) :
    Adds s [] (faults.foldl (fun s f => s.raise code ⟨s.chunk, f.1, f.2⟩) s) := by
  induction faults generalizing s with
  | nil => exact .refl sound
  | cons f faults ih =>
    have raised : Adds s [] (s.raise code ⟨s.chunk, f.1, f.2⟩) := raise_adds sound other _
    exact raised.trans (ih raised.sound)

theorem disarm_adds (sound : s.Sound) : Adds s [] { s with arm := .off } :=
  (Adds.refl sound).remember _ _ .off

section Token

variable {t : Token} (sound : s.Sound) (real : t.isVirtual = false)
  (some_ : t.span.start < t.span.stop)

include sound real some_

/-- A token is written under another kind than it came with. -/
theorem emit_consumes {kind : TokenKind} (leaf : kind.IsLeaf) (plain : kind.isMarked = false) :
    Consumes s t (s.emit { t with kind }) :=
  .inl ⟨_, emit_adds sound real leaf, rfl, some_, plain, rfl⟩

theorem word_consumes : Consumes s t (s.word t) := by
  unfold word
  extract_lets s' kind arm
  have adds : Adds s [] s' := by
    unfold s'
    split
    all_goals first
      | exact raise_adds sound (by decide) _
      | exact .refl sound
  have leaf : kind.IsLeaf ∧ kind.isMarked = false := by
    unfold kind
    split
    · decide
    · split
      · exact ⟨⟨rfl, rfl⟩, rfl⟩
      · decide
  exact (adds.consumes (emit_consumes adds.sound real some_ leaf.1 leaf.2)).remember _ _ _

/-- A colon and a word cover what they were split from. -/
theorem colonWord_consumes (long : t.span.start + 1 < t.span.stop) :
    Consumes s t (s.colonWord t) := by
  have both {colon word : Token} (first : colon.isVirtual = false ∧ colon.kind = .colon ∧
      colon.span.start = t.span.start ∧ colon.span.stop = t.span.start + 1)
      (second : word.isVirtual = false ∧ word.kind.IsLeaf ∧ word.kind.isMarked = false ∧
        word.span.start = t.span.start + 1 ∧ word.span.stop = t.span.stop) :
      Consumes s t ((s.emit colon).emit word) := by
    obtain ⟨real, kind, start, stop⟩ := first
    obtain ⟨real', leaf', plain', start', stop'⟩ := second
    have adds := emit_adds sound real (by rw [kind]; decide)
    refine .inl ⟨_, adds.trans (emit_adds adds.sound real' leaf'), ?_⟩
    exact ⟨start, by omega, by rw [kind]; rfl, by omega, by omega, plain', stop'⟩
  unfold colonWord
  split
  · refine both ⟨rfl, rfl, rfl, rfl⟩ ⟨rfl, ?_, ?_, rfl, rfl⟩
    · split <;> exact ⟨rfl, rfl⟩
    · split <;> rfl
  · exact emit_consumes sound real some_ (by decide) rfl

theorem strToken_consumes : Consumes s t (s.strToken t) := by
  have raised := raiseAll_adds sound (show ¬ IssueCode.invalidEscape.IsUnclosed by decide)
    (Escape.unknownEscapes (t.span.start + 1) (utf8 (Escape.body t.text.toList)))
  exact raised.consumes (emit_consumes raised.sound real some_ (by decide) rfl)

theorem close_consumes (plain : t.kind.isMarked = false) : Consumes s t (s.close t) := by
  rcases close_adds sound real with adds | dropped
  · exact .inl ⟨_, adds, .single some_ plain⟩
  · exact .inr dropped

theorem openFrame_consumes {kind : FrameKind} {opens : TokenKind}
    (fits : Frame.Fits { kind, opener := { t with kind := opens } })
    (plain : opens.isMarked = false) (nested : s.inForeign = true → kind = .group) :
    Consumes s t (s.openFrame kind { t with kind := opens }) :=
  .inl ⟨_, openFrame_adds sound _ _ fits real nested,
    Token.written_tiled (t := { t with kind := opens }) real some_ plain⟩

theorem openBracket_consumes (outside : s.inForeign = false) {opens : TokenKind}
    (bracket : opens = .lparen ∨ opens = .lbracket ∨ opens = .lbrace) :
    Consumes s t (s.openBracket { t with kind := opens }) := by
  have disarmed := disarm_adds sound
  have opened {kind : FrameKind} (fits : Frame.Fits { kind, opener := { t with kind := opens } }) :
      Consumes s t (openFrame { s with arm := .off } kind { t with kind := opens }) := by
    refine disarmed.consumes (openFrame_consumes disarmed.sound real some_ fits ?_ fun inside => ?_)
    · rcases bracket with rfl | rfl | rfl <;> rfl
    · exact absurd (outside.symm.trans inside) (by decide)
  unfold openBracket
  extract_lets foreign
  by_cases brace : foreign
  · rw [if_pos brace]
    exact opened brace.1
  · rw [if_neg brace]
    refine opened ?_
    rcases bracket with rfl | rfl | rfl <;> exact ⟨by simp, _, rfl⟩

/-- A `>` closes the candidate that is open, if one is. -/
theorem closeAngle_consumes (candidate : s.atCandidate = true) :
    Consumes s t (s.closeFrame { t with kind := .rangle }) := by
  unfold atCandidate at candidate
  split at candidate
  · rename_i f fs top
    have angle : f.opener.kind = .langle := by
      have fits := (sound.frames f (by simp [top])).fits
      simpa [Frame.Fits, (Frame.isCandidate_iff f).mp candidate] using fits
    refine .inl ⟨_, closeFrame_adds sound _ top real (by rw [angle]; rfl), ?_⟩
    exact ⟨rfl, some_, rfl, rfl⟩
  · cases candidate

theorem fixedToken_consumes (outside : s.inForeign = false) {kind : TokenKind}
    (fixed : kind ∈ Lexeme.fixedKinds) : Consumes s t (s.fixedToken { t with kind }) := by
  have plain := Lexeme.isMarked_of_mem_fixedKinds kind fixed
  unfold fixedToken
  split <;> rename_i is
  case h_1 => exact openBracket_consumes sound real some_ outside (.inl is)
  case h_2 => exact openBracket_consumes sound real some_ outside (.inr (.inl is))
  case h_3 => exact openBracket_consumes sound real some_ outside (.inr (.inr is))
  case h_4 => exact close_consumes (t := { t with kind }) sound real some_ plain
  case h_5 => exact close_consumes (t := { t with kind }) sound real some_ plain
  case h_6 => exact close_consumes (t := { t with kind }) sound real some_ plain
  case h_7 =>
    split
    · have disarmed := disarm_adds sound
      refine disarmed.consumes
        (openFrame_consumes disarmed.sound real some_ rfl rfl fun inside => ?_)
      exact absurd (outside.symm.trans inside) (by decide)
    · exact emit_consumes sound real some_ (by rw [show kind = _ from is]; decide) plain
  case h_8 =>
    split
    · rename_i candidate
      exact closeAngle_consumes sound real some_ candidate
    · exact emit_consumes sound real some_ (by rw [show kind = _ from is]; decide) plain
  case h_9 =>
    rcases Lexeme.isLeaf_of_mem_fixedKinds kind fixed with bracket | leaf
    · simp only [List.mem_cons, List.not_mem_nil, or_false] at bracket
      tauto
    · exact emit_consumes sound real some_ leaf plain

/-- A lexeme that is neither skipped nor a marker ends up in tokens or in a report. -/
theorem plain_consumes (outside : s.inForeign = false) {l : Lexeme}
    (visible : l ≠ .blank ∧ l ≠ .comment ∧ l ≠ .marker)
    (fixed : ∀ kind, l = .fixed kind → kind ∈ Lexeme.fixedKinds)
    (long : l = .colonWord → t.span.start + 1 < t.span.stop) : Consumes s t (s.plain l t) := by
  have named {kind : TokenKind} (leaf : kind.IsLeaf ∧ kind.isMarked = false) :
      Consumes s t (s.emit { t with kind }) := emit_consumes sound real some_ leaf.1 leaf.2
  cases l with
  | blank | comment | marker => simp at visible
  | word => exact word_consumes sound real some_
  | colonWord => exact colonWord_consumes sound real some_ (long rfl)
  | builtin | label | param | hex | int | float => exact named (by decide)
  | str => exact strToken_consumes sound real some_
  | openStr =>
    have raised := raise_adds sound
      (show ¬ IssueCode.unterminatedString.IsUnclosed by decide) t.span
    exact raised.consumes (strToken_consumes raised.sound real some_)
  | bareSign =>
    have raised := raise_adds sound
      (show ¬ IssueCode.emptyPrefixedName.IsUnclosed by decide) t.span
    exact raised.consumes (emit_consumes raised.sound real some_ (by decide) rfl)
  | fixed kind => exact fixedToken_consumes sound real some_ outside (fixed kind rfl)

end Token

/-! ## One piece of the text -/

/-- What stands between tokens: blanks, or a comment up to the end of its line. -/
def Trivia (text rest : List Char) : Prop :=
  (∀ c ∈ text, Lexeme.isBlank c = true) ∨
    ∃ body, text = '/' :: '/' :: body ∧ '\n' ∉ body ∧ ∀ c ∈ rest.head?, c = '\n'

/-- A marker that waits in `s` is reported in `s'`. -/
def Spent (s s' : Scan) : Prop :=
  ∀ p, s.marker = some p → (⟨.markerWithoutOperator, p⟩ : Issue) ∈ s'.issues

/-- All that a piece of the text can do. It covers `text`, starts at `pos`, and `rest` follows. -/
inductive Takes (source : List Char) (pos : Nat) (text rest : List Char) (s s' : Scan) : Prop
  | skip (trivia : Trivia text rest) (outside : s.inForeign = false)
      (outside' : s'.inForeign = false) (adds : Adds s [] s')
      (glue : s'.lastEnd = s.lastEnd ∨ s'.lastEnd = none)
  | mark (sign : text = ['`']) (outside' : s'.inForeign = false)
      (adds : Adds { s with marker := some ⟨s.chunk, pos, pos + byteLength text⟩ } [] s')
      (spent : Spent s s') (glue : s'.lastEnd = some (pos + byteLength text))
  | unknown (t : Token) (outside' : s'.inForeign = false) (adds : Adds s [t] s')
      (kind : t.kind = .unknown) (span : t.span = ⟨s.chunk, pos, pos + byteLength text⟩)
      (reported : (⟨.unknownCharacter, t.span⟩ : Issue) ∈ s'.issues)
  | marked (p : Span) (o : Operator) (t : Token) (waits : s.marker = some p)
      (glue : s.lastEnd = some pos) (spelled : text = o.spelling.toList) (kind : t.kind = .marked o)
      (span : t.span = p.merge ⟨s.chunk, pos, pos + byteLength text⟩)
      (shown : t.text = textBetween source t.span.start t.span.stop)
      (adds : Adds { s with marker := none } [t] s')
  | tiled (ts : List Token) (tiled : Tiled pos (pos + byteLength text) ts)
      (adds : Adds { s with marker := none } ts s') (spent : Spent s s')
  | dropped (adds : Adds { s with marker := none } [] s') (spent : Spent s s')
      (reported : (⟨.mismatchedClosingParen, ⟨s.chunk, pos, pos + byteLength text⟩⟩ : Issue) ∈
        s'.issues)

theorem Consumes.takes {source text rest : List Char} {pos : Nat} {s' s'' : Scan} {t : Token}
    (h : Consumes s' t s'') (span : t.span = ⟨s.chunk, pos, pos + byteLength text⟩)
    (adds : Adds { s with marker := none } [] s') (spent : Spent s s') :
    Takes source pos text rest s s'' := by
  have spent' (more : ∀ i ∈ s'.issues, i ∈ s''.issues) : Spent s s'' :=
    fun p waits => more _ (spent p waits)
  rcases h with ⟨ts, adds', tiled⟩ | ⟨adds', reported⟩
  · rw [span] at tiled
    exact .tiled ts tiled (adds.trans adds') (spent' adds'.issues)
  · rw [span] at reported
    exact .dropped (adds.trans adds') (spent' adds'.issues) reported

/-- The marker and the end of the last token are no part of the stack. -/
theorem Sound.place (sound : s.Sound) (lastEnd : Option Nat) (marker : Option Span) :
    Adds { s with marker } [] { s with lastEnd, marker } :=
  ⟨⟨⟨sound.root, sound.frames, sound.nested⟩, sound.reports⟩, by simp [written],
    fun _ member => member, rfl, rfl⟩

theorem lexeme_unmarked {source : List Char} {l : Lexeme} {t : Token} (waits : s.marker = none)
    (other : l ≠ .marker) : s.lexeme source l t = s.plain l t := by
  unfold lexeme
  split
  · exact absurd rfl other
  · exact absurd rfl other
  · simp_all
  · rfl

/-- A marker is spent by an operator joined to the token before, and lost on all else. -/
theorem lexeme_marked {source : List Char} {l : Lexeme} {t : Token} {p : Span}
    (waits : s.marker = some p) (other : l ≠ .marker) :
    (∃ o u, l = .fixed (.op o) ∧ t.glued = true ∧ u.isVirtual = false ∧ u.kind = .marked o ∧
      u.span = p.merge t.span ∧ u.text = textBetween source u.span.start u.span.stop ∧
      s.lexeme source l t = emit { s with marker := none } u) ∨
    s.lexeme source l t = (raise { s with marker := none } .markerWithoutOperator p).plain l t := by
  unfold lexeme
  split
  · exact absurd rfl other
  · exact absurd rfl other
  · rename_i pending _ found
    obtain rfl : pending = p := Option.some.inj (found.symm.trans waits)
    dsimp only
    split
    · rename_i joined marks
      left
      unfold markedBy at marks
      split at marks
      · rename_i k _
        cases k <;> simp only [TokenKind.marked?, reduceCtorEq, Option.some.injEq] at marks
        subst marks
        exact ⟨_, _, rfl, joined, rfl, rfl, rfl, rfl, rfl⟩
      · cases marks
    · exact .inr rfl
  · simp_all

/-- A lexeme in its place: the token is the whole piece. -/
theorem lexeme_takes {source text rest : List Char} {pos : Nat} {t : Token} {l : Lexeme}
    (sound : s.Sound) (outside : s.inForeign = false) (real : t.isVirtual = false)
    (span : t.span = ⟨s.chunk, pos, pos + byteLength text⟩) (some_ : text ≠ [])
    (glued : t.glued = (s.lastEnd == some pos))
    (visible : l ≠ .blank ∧ l ≠ .comment) (sign : l = .marker → text = ['`'])
    (fixed : ∀ kind, l = .fixed kind → kind ∈ Lexeme.fixedKinds ∧ text = kind.text.toList)
    (long : l = .colonWord → 1 < byteLength text) :
    Takes source pos text rest s
      (lexeme { s with lastEnd := some (pos + byteLength text) } source l t) := by
  have placed := fun m => sound.place (some (pos + byteLength text)) m
  have lost (p : Span) := raise_adds (placed none).sound
    (show ¬ IssueCode.markerWithoutOperator.IsUnclosed by decide) p
  have size : t.span.start < t.span.stop := by
    have := byteLength_pos some_
    rw [span]
    dsimp only
    omega
  have consumed {s' : Scan} (sound' : s'.Sound) (same : s'.inForeign = false)
      (other : l ≠ .marker) : Consumes s' t (s'.plain l t) := by
    refine plain_consumes sound' real size same ⟨visible.1, visible.2, other⟩
      (fun kind is => (fixed kind is).1) fun is => ?_
    have := long is
    rw [span]
    dsimp only
    omega
  by_cases other : l = .marker
  · subst other
    have sign := sign rfl
    cases waits : s.marker with
    | none =>
      refine .mark sign outside ?_ (by simp [Spent, waits]) rfl
      rw [← span]
      exact placed _
    | some p =>
      have raised := raise_adds (placed (some t.span)).sound
        (show ¬ IssueCode.markerWithoutOperator.IsUnclosed by decide) p
      refine .mark sign outside ?_ (fun q is => ?_) rfl
      · rw [← span]
        exact (placed _).trans raised
      · cases waits.symm.trans is
        exact mem_raise _ _
  · cases waits : s.marker with
    | none =>
      rw [lexeme_unmarked rfl other]
      exact (consumed (placed none).sound outside other).takes span (placed none)
        (by simp [Spent, waits])
    | some p =>
      rcases lexeme_marked (s := { s with lastEnd := some _, marker := some p }) rfl other with
        ⟨o, u, is, joined, real', kind, span', shown, same⟩ | same
      · rw [same]
        have added := emit_adds (placed none).sound real' (by rw [kind]; exact ⟨rfl, rfl⟩)
        refine .marked p o u waits ?_ (fixed _ is).2 kind (span ▸ span') shown
          ((placed none).trans added)
        rw [joined] at glued
        simpa using glued.symm
      · rw [same]
        refine (consumed (lost p).sound outside other).takes span ((placed none).trans (lost p)) ?_
        intro q is
        cases waits.symm.trans is
        exact mem_raise _ _

/-! ## Foreign text -/

def ForeignEnd.sign : ForeignEnd → List Char
  | .unfinished => []
  | .closed => ['\x7d']
  | .interp _ => ['$', '\x7b']

theorem Piece.size_foreign (n : Nat) (stop : ForeignEnd) :
    (Piece.foreign n stop).size = n + stop.sign.length := by
  cases stop <;> rfl

theorem foreign_text (depth : Nat) (cs : List Char) :
    cs.take ((foreign depth cs).1 + (foreign depth cs).2.sign.length) =
      cs.take (foreign depth cs).1 ++ (foreign depth cs).2.sign := by
  fun_induction foreign depth cs with
  | case1 => rfl
  | case2 depth rest => rfl
  | case3 rest => rfl
  | case4 depth c cs _ _ deeper rest ih =>
    rw [Nat.add_right_comm, List.take_succ_cons, List.take_succ_cons, ih, List.cons_append]

theorem foreign_pos (depth : Nat) {cs : List Char} (some_ : cs ≠ []) :
    0 < (foreign depth cs).1 + (foreign depth cs).2.sign.length := by
  fun_cases foreign depth cs with
  | case1 => exact absurd rfl some_
  | case2 => simp [ForeignEnd.sign]
  | case3 => simp [ForeignEnd.sign]
  | case4 =>
    dsimp only
    omega

/-- The count of open braces in foreign text may change. -/
theorem deepen_adds (sound : s.Sound) {f : Frame} {fs : List Frame} (top : s.frames = f :: fs)
    (inside : f.isForeign = true) (depth : Nat) :
    Adds s [] { s with frames := { f with kind := .source depth } :: fs } := by
  obtain ⟨before, kind⟩ := (Frame.isForeign_iff f).mp inside
  have first : f.Sound s.issues := sound.frames f (by simp [top])
  have brace : f.opener.kind = .lbrace := by simpa [Frame.Fits, kind] using first.fits
  refine ⟨⟨⟨sound.root, fun e member => ?_, ?_⟩, fun i member unclosed => ?_⟩, ?_,
    fun _ member => member, rfl, rfl⟩
  · rcases List.mem_cons.mp member with rfl | rest
    · exact ⟨brace, first.real, by simp [Frame.isCandidate], first.level⟩
    · exact sound.frames e (by simp [top, rest])
  · have nested : Nested (f :: fs) := top ▸ sound.nested
    cases fs with
    | nil => exact .singleton _
    | cons e fs =>
      obtain ⟨below, outer⟩ := List.isChain_cons_cons.mp nested
      refine .cons_cons (fun foreign => ?_) outer
      rw [kind] at below
      cases below foreign
  · obtain ⟨g, held, missing⟩ := sound.reports i member unclosed
    refine ⟨g, ?_, missing⟩
    rcases held with here | ⟨e, member, there⟩
    · exact .inl here
    · rcases List.mem_cons.mp (top ▸ member) with rfl | rest
      · exact .inr ⟨_, List.mem_cons_self, there⟩
      · exact .inr ⟨e, List.mem_cons_of_mem _ rest, there⟩
  · simp [written, top, Frame.writtenInAll, Frame.written]

theorem push_frames {f : Frame} {fs : List Frame} (top : s.frames = f :: fs) (n : Node) :
    (s.push n).frames = f.append #[n] :: fs := by
  simp [push, top]

/-- Foreign text goes into the frame as one token, if there is any. -/
theorem foreignPart_adds (sound : s.Sound) {f : Frame} {fs : List Frame} (top : s.frames = f :: fs)
    (inside : f.isForeign = true) (pos : Nat) (text : List Char) :
    ∃ ts s' ns, Adds s ts s' ∧ Tiled pos (pos + byteLength text) ts ∧
      s'.frames = f.append ns :: fs ∧ s' = if text.isEmpty then s else s.push (.token
        { kind := .sourceText, span := ⟨s.chunk, pos, pos + byteLength text⟩,
          text := String.ofList text }) := by
  by_cases none_ : text.isEmpty = true
  · rw [if_pos none_]
    obtain rfl := List.isEmpty_iff.mp none_
    exact ⟨[], s, #[], .refl sound, by simp [Tiled], by simp [top, Frame.append], rfl⟩
  · rw [if_neg none_]
    have candidate : s.atCandidate = false := by
      obtain ⟨depth, kind⟩ := (Frame.isForeign_iff f).mp inside
      simp [atCandidate, top, Frame.isCandidate, kind]
    have size := byteLength_pos (fun h => none_ (List.isEmpty_iff.mpr h))
    refine ⟨_, _, _, push_token_adds sound rfl ⟨rfl, rfl⟩ (by simp [candidate]), ?_,
      push_frames top _, rfl⟩
    exact ⟨rfl, Nat.lt_add_of_pos_right size, rfl, rfl⟩

theorem Adds.takes {source text rest : List Char} {pos : Nat} {s' : Scan} {ts : List Token}
    (adds : Adds s ts s') (idle : s.marker = none) (tiled : Tiled pos (pos + byteLength text) ts) :
    Takes source pos text rest s s' := by
  have same : { s with marker := none } = s := by rw [← idle]
  exact .tiled ts tiled (by rwa [same]) (by simp [Spent, idle])

/-- A stretch of foreign text and the sign after it make a token each. -/
theorem foreignText_takes {source text rest : List Char} {pos : Nat} (sound : s.Sound)
    (idle : s.marker = none) {f : Frame} {fs : List Frame} (top : s.frames = f :: fs)
    (inside : f.isForeign = true) (stop : ForeignEnd) :
    Takes source pos (text ++ stop.sign) rest s (s.foreignText pos text stop) := by
  obtain ⟨ts, s', ns, adds, tiled, top', same⟩ := foreignPart_adds sound top inside pos text
  have brace : f.opener.kind = .lbrace := by
    obtain ⟨depth, kind⟩ := (Frame.isForeign_iff f).mp inside
    simpa [Frame.Fits, kind] using (sound.frames f (by simp [top])).fits
  unfold foreignText
  dsimp only
  rw [← same]
  cases stop with
  | unfinished =>
    refine adds.takes idle ?_
    simpa [ForeignEnd.sign] using tiled
  | closed =>
    refine ((adds.trans (closeFrame_adds adds.sound _ top' rfl ?_)).remember _ _ _).takes idle ?_
    · rw [Frame.append_opener, brace]
      rfl
    · rw [byteLength_append, ← Nat.add_assoc]
      exact tiled.append ⟨rfl, Nat.lt_succ_self _, rfl, rfl⟩
  | interp depth =>
    have deeper := deepen_adds adds.sound top' inside depth
    rw [top']
    refine (((adds.trans deeper).trans (openFrame_adds deeper.sound _ _ ?_ rfl
      fun _ => rfl)).remember _ _ _).takes idle ?_
    · exact ⟨by simp, _, rfl⟩
    · rw [byteLength_append, ← Nat.add_assoc, List.append_nil]
      exact tiled.append ⟨rfl, Nat.lt_add_of_pos_right Nat.two_pos, rfl, rfl⟩

/-! ## The whole text -/

theorem next_size_pos {cs : List Char} (some_ : cs ≠ []) : 0 < (s.next cs).size := by
  unfold next
  split
  · rw [Piece.size_foreign]
    exact foreign_pos _ some_
  · split
    · exact Nat.succ_pos _
    · exact Nat.one_pos

theorem take_lexeme {source text : List Char} {pos n : Nat} {l : Lexeme}
    (visible : l ≠ .blank ∧ l ≠ .comment) :
    s.take source pos text (.lexeme (some l) n) =
      lexeme { s with lastEnd := some (pos + byteLength text) } source l
        { kind := .unknown, span := ⟨s.chunk, pos, pos + byteLength text⟩,
          text := String.ofList text, glued := s.lastEnd == some pos } := by
  cases l <;> first | rfl | simp at visible

/-- Each piece of the text does one of the things listed. -/
theorem take_takes (source : List Char) (pos : Nat) {cs : List Char} (sound : s.Sound)
    (idle : s.inForeign = true → s.marker = none) (some_ : cs ≠ []) :
    Takes source pos (cs.take (s.next cs).size) (cs.drop (s.next cs).size) s
      (s.take source pos (cs.take (s.next cs).size) (s.next cs)) := by
  have full : cs.take (s.next cs).size ≠ [] := by
    have := next_size_pos (s := s) some_
    simp [List.take_eq_nil_iff, some_]
    omega
  revert full
  unfold next
  split
  · rename_i depth opener contents fs top
    intro _
    have inside : s.inForeign = true := by simp [inForeign, top, Frame.isForeign]
    rw [take, List.take_take, Nat.min_eq_left (by rw [Piece.size_foreign]; omega),
      Piece.size_foreign, foreign_text]
    exact foreignText_takes sound (idle inside) top rfl _
  · rename_i other
    have outside : s.inForeign = false := by
      unfold inForeign
      cases frames : s.frames with
      | nil => rfl
      | cons f fs =>
        obtain ⟨kind, opener, contents⟩ := f
        cases kind with
        | source depth => exact absurd frames (other depth opener contents fs)
        | group | candidate => rfl
    split
    · rename_i l n found
      obtain ⟨size, _, fixed⟩ := Lexeme.longest_some found
      have size : l.measure cs = n + 1 := size
      have positive : 0 < l.measure cs := by omega
      intro full
      rw [Piece.size, ← size] at full ⊢
      by_cases blank : l = .blank
      · subst blank
        exact .skip (.inl (Lexeme.blank_text cs)) outside outside (.refl sound) (.inl rfl)
      · by_cases comment : l = .comment
        · subst comment
          refine .skip (.inr (Lexeme.comment_text positive)) outside outside ?_ (.inr rfl)
          exact (Adds.refl sound).remember none _ _
        · rw [take_lexeme ⟨blank, comment⟩]
          refine lexeme_takes sound outside rfl rfl full rfl ⟨blank, comment⟩ ?_ ?_ ?_
          · rintro rfl
            exact Lexeme.fixed_text positive
          · rintro kind rfl
            exact ⟨fixed kind rfl, Lexeme.fixed_text positive⟩
          · rintro rfl
            obtain ⟨word, some_, text⟩ := Lexeme.signed_text positive
            have := byteLength_pos some_
            rw [Lexeme.measure, text, byteLength_cons]
            have colon : (':' : Char).utf8Size = 1 := by decide
            omega
    · intro full
      have placed := (Adds.refl sound).remember (some (pos + byteLength (cs.take 1))) s.prev s.arm
      have raised := raise_adds placed.sound
        (show ¬ IssueCode.unknownCharacter.IsUnclosed by decide)
        ⟨s.chunk, pos, pos + byteLength (cs.take 1)⟩
      have emitted (t : Token) (real : t.isVirtual = false) (kind : t.kind = .unknown) :=
        emit_adds raised.sound real (show t.kind.IsLeaf by rw [kind]; exact ⟨rfl, rfl⟩)
      refine .unknown _ (emit_inForeign raised.sound outside _)
        ((placed.trans raised).trans (emitted _ rfl rfl)) rfl rfl ?_
      exact (emitted _ rfl rfl).issues _ (mem_raise _ _)

/-- The scan of `source` comes to `pos` in state `s`, with `rest` ahead. -/
inductive At (chunk : Nat) (source : List Char) : List Char → Nat → Scan → Prop
  | start : At chunk source source 0 { chunk }
  | step {rest : List Char} {pos : Nat} {s : Scan} (here : At chunk source rest pos s)
      (some_ : rest ≠ []) :
      At chunk source (rest.drop (s.next rest).size)
        (pos + byteLength (rest.take (s.next rest).size))
        (s.take source pos (rest.take (s.next rest).size) (s.next rest))

/-- Scanning on from any such place comes to the end. -/
theorem At.run {chunk : Nat} {source rest : List Char} {pos : Nat}
    (here : At chunk source rest pos s) :
    ∃ stop, At chunk source [] stop (run source rest pos s) := by
  fun_induction Scan.run source rest pos s with
  | case1 pos s => exact ⟨pos, here⟩
  | case2 c cs pos s piece text ih =>
    refine ih ?_
    have size : 0 < piece.size := next_size_pos (List.cons_ne_nil c cs)
    have rest : (c :: cs).drop piece.size = cs.drop (piece.size - 1) := by
      obtain ⟨n, hn⟩ := Nat.exists_eq_succ_of_ne_zero (Nat.pos_iff_ne_zero.mp size)
      rw [hn, List.drop_succ_cons, Nat.succ_sub_one]
    rw [← rest]
    exact here.step (List.cons_ne_nil c cs)

theorem start_sound (chunk : Nat) : Sound { chunk } :=
  ⟨⟨.nil, by simp, .nil⟩, by simp⟩

/-- What a piece leaves is sound, and a marker never waits in foreign text. -/
theorem Takes.sound {source text rest : List Char} {pos : Nat} {s' : Scan}
    (h : Takes source pos text rest s s') :
    s'.Sound ∧ s'.chunk = s.chunk ∧ (s'.inForeign = true → s'.marker = none) := by
  cases h with
  | skip _ _ outside adds | mark _ outside adds | unknown _ outside adds =>
    exact ⟨adds.sound, adds.chunk, by simp [outside]⟩
  | marked _ _ _ _ _ _ _ _ _ adds | tiled _ _ adds | dropped adds =>
    exact ⟨adds.sound, adds.chunk, fun _ => adds.marker⟩

/-- What holds at the start and is kept by every piece holds wherever a scan can come. -/
theorem At.invariant {chunk : Nat} {source : List Char} {P : List Char → Scan → Prop}
    (start : P [] { chunk })
    (step : ∀ done text rest s s', source = done ++ text ++ rest → text ≠ [] →
      At chunk source (text ++ rest) (byteLength done) s → s.chunk = chunk → P done s →
      Takes source (byteLength done) text rest s s' → P (done ++ text) s')
    {rest : List Char} {pos : Nat} {s : Scan} (here : At chunk source rest pos s) :
    ∃ done, source = done ++ rest ∧ pos = byteLength done ∧ s.Sound ∧ s.chunk = chunk ∧
      (s.inForeign = true → s.marker = none) ∧ P done s := by
  induction here with
  | start => exact ⟨[], rfl, rfl, start_sound chunk, rfl, fun _ => rfl, start⟩
  | @step rest pos s here some_ ih =>
    obtain ⟨done, split, rfl, sound, same, idle, holds⟩ := ih
    have whole := List.take_append_drop (s.next rest).size rest
    have text : rest.take (s.next rest).size ≠ [] := by
      have := next_size_pos (s := s) some_
      simp [List.take_eq_nil_iff, some_]
      omega
    have takes := take_takes source (byteLength done) sound idle some_
    obtain ⟨sound', same', idle'⟩ := takes.sound
    have parts : source = done ++ rest.take (s.next rest).size ++ rest.drop (s.next rest).size := by
      rw [List.append_assoc, whole, split]
    refine ⟨_, parts, by rw [byteLength_append], sound', same'.trans same, idle', ?_⟩
    exact step _ _ _ s _ parts text (by rwa [whole]) same holds takes

/-- At the end of the text a marker that still waits is reported, and no frame stays open. -/
theorem finish_spec (sound : s.Sound) (stop : Span) : ∃ s', Adds s [] s' ∧ s'.frames = [] ∧
    Spent s s' ∧ s.finish stop = (⟨s'.root.toList, stop⟩, s'.issues.toList) := by
  have closed {s' : Scan} (adds : Adds s [] s') (spent : Spent s s') : ∃ s'', Adds s [] s'' ∧
      s''.frames = [] ∧ Spent s s'' ∧ s'' = s'.unwindTo (fun _ => false) stop := by
    have unwound : Adds s' [] (s'.unwindTo (fun _ => false) stop) :=
      unwindTo_adds adds.sound (by simp) stop
    refine ⟨_, adds.trans unwound, ?_, fun p waits => unwound.issues _ (spent p waits), rfl⟩
    rcases unwind_frames (fun _ => false) stop s'.frames #[] #[] with
      none_ | ⟨_, _, _, _, _, stay⟩
    · exact none_
    · cases stay
  unfold finish
  cases waits : s.marker with
  | none =>
    obtain ⟨s', adds, empty, spent, same⟩ := closed (.refl sound) (by simp [Spent, waits])
    exact ⟨s', adds, empty, spent, by rw [same]⟩
  | some p =>
    have raised := raise_adds sound
      (show ¬ IssueCode.markerWithoutOperator.IsUnclosed by decide) p
    obtain ⟨s', adds, empty, spent, same⟩ := closed raised (fun q is => by
      cases waits.symm.trans is
      exact mem_raise _ _)
    exact ⟨s', adds, empty, spent, by rw [same]⟩

end Scan

/-- A tree of tokens is what a scan leaves that has come to the end of the text. -/
theorem TokenTree.ofText_spec (chunk : Nat) (text : String) : ∃ pos s s',
    Scan.At chunk text.toList [] pos s ∧ Scan.Adds s [] s' ∧ s'.frames = [] ∧ Scan.Spent s s' ∧
      (TokenTree.ofText chunk text).1.nodes = s'.root.toList ∧
      (TokenTree.ofText chunk text).2 = s'.issues.toList := by
  have begun : Scan.At chunk text.toList text.toList 0 { chunk } := .start
  obtain ⟨pos, here⟩ := begun.run
  obtain ⟨_, _, _, sound, _⟩ := here.invariant (P := fun _ _ => True) trivial (by simp)
  obtain ⟨s', adds, empty, spent, same⟩ := Scan.finish_spec sound _
  exact ⟨pos, _, s', here, adds, empty, spent, by rw [ofText, same], by rw [ofText, same]⟩

end Ember

import Ember.Proofs.Placeholders.Rules
import Ember.Proofs.Scan.Step

/-!
# The names of values from outside

A token for such a value is a sign with a word joined to it, wherever it comes to stand. So in a
text without issues, the name after `param` is made of letters, digits and `_`.
-/

set_option autoImplicit false

namespace Ember

/-! ## Tokens -/

/-- A token for a value from outside holds a word after its sign. -/
def Token.NamesParam (t : Token) : Prop :=
  t.kind = .param → ∀ c ∈ t.text.toList.drop 1, Lexeme.isWordRest c = true

def Node.NamesParam : Node → Prop
  | .token t => t.NamesParam
  | .group _ => True

theorem Lexeme.word_text (cs : List Char) : ∀ c ∈ cs.take (word? cs), isWordRest c = true := by
  cases cs with
  | nil => simp
  | cons d ds =>
    intro c member
    rw [word?] at member
    split at member
    · rename_i starts
      rw [Nat.add_comm, List.take_succ_cons, take_run] at member
      rcases List.mem_cons.mp member with rfl | rest
      · simp only [isWordStart, Bool.or_eq_true] at starts
        rcases starts with alpha | underscore
        · simp [isWordRest, Char.isAlphanum, alpha]
        · simp [isWordRest, underscore]
      · exact List.mem_takeWhile_imp rest
    · simp at member

theorem Lexeme.param_text (cs : List Char) :
    ∀ c ∈ (cs.take (measure .param cs)).drop 1, isWordRest c = true := by
  cases cs with
  | nil => simp
  | cons d ds =>
    intro c member
    rw [measure, signed?] at member
    split at member
    · rw [Nat.add_comm, List.take_succ_cons, List.drop_succ_cons, List.drop_zero] at member
      exact word_text ds c member
    · simp at member

namespace Scan

structure NamesParams (s : Scan) : Prop where
  root : ∀ n ∈ s.root.toList, n.NamesParam
  frames : ∀ f ∈ s.frames, ∀ n ∈ f.contents.toList, n.NamesParam

theorem ne_param_of_markedBy {l : Lexeme} {kind : TokenKind} (marked : markedBy l = some kind) :
    kind ≠ .param := by
  rintro rfl
  cases l with
  | fixed k => cases k <;> simp [markedBy, TokenKind.marked?] at marked
  | _ => simp [markedBy] at marked

variable {s : Scan}

theorem longest_of_next {cs : List Char} {l : Lexeme} {n : Nat}
    (found : s.next cs = .lexeme (some l) n) : Lexeme.longest cs = (some l, n) := by
  unfold next at found
  split at found
  · simp at found
  · split at found
    · rename_i longest
      cases found
      exact longest
    · simp at found

variable (h : s.NamesParams)

include h

namespace NamesParams

theorem push {n : Node} (named : n.NamesParam) : (s.push n).NamesParams := by
  unfold Scan.push
  split
  · refine ⟨?_, h.frames⟩
    simp only [Array.toList_push, List.forall_mem_append, List.forall_mem_singleton]
    exact ⟨h.root, named⟩
  · rename_i f fs frames
    have others (g : Frame) (member : g ∈ fs) := h.frames g (by simp [frames, member])
    refine ⟨h.root, List.forall_mem_cons.mpr ⟨?_, others⟩⟩
    simp only [Frame.append, Array.toList_append, List.forall_mem_append, List.forall_mem_singleton]
    exact ⟨h.frames f (by simp [frames]), named⟩

omit h in
theorem abandoned (f : Frame) (named : ∀ n ∈ f.contents.toList, n.NamesParam) (place : Span) :
    ∀ n ∈ (f.abandon place).1.toList, n.NamesParam := by
  unfold Frame.abandon
  split
  · simp only [Array.toList_append, List.forall_mem_append]
    refine ⟨?_, named⟩
    simp [Node.NamesParam, Token.NamesParam]
  · simp [Frame.close, Node.NamesParam]
  · simp [Frame.close, Node.NamesParam]

omit h in
theorem unwound {fs : List Frame} (frames : ∀ f ∈ fs, ∀ n ∈ f.contents.toList, n.NamesParam)
    (stays : Frame → Bool) (place : Span) {ns : Array Node} (named : ∀ n ∈ ns.toList, n.NamesParam)
    (issues : Array Issue) :
    (∀ f ∈ (unwind stays place ns issues fs).frames, ∀ n ∈ f.contents.toList, n.NamesParam) ∧
      ∀ n ∈ (unwind stays place ns issues fs).fallen.toList, n.NamesParam := by
  induction fs generalizing ns issues with
  | nil => exact ⟨by simp [unwind], named⟩
  | cons f fs ih =>
    have own : ∀ n ∈ (f.append ns).contents.toList, n.NamesParam := by
      simp only [Frame.append, Array.toList_append, List.forall_mem_append]
      exact ⟨frames f (by simp), named⟩
    have rest (g : Frame) (member : g ∈ fs) := frames g (by simp [member])
    rw [unwind]
    split
    · exact ⟨List.forall_mem_cons.mpr ⟨own, rest⟩, by simp⟩
    · exact ih rest (abandoned _ own place) _

theorem unwindTo (stays : Frame → Bool) (place : Span) : (s.unwindTo stays place).NamesParams := by
  have none : ∀ n ∈ (#[] : Array Node).toList, n.NamesParam := by simp
  obtain ⟨frames, fallen⟩ := unwound h.frames stays place none #[]
  refine ⟨?_, frames⟩
  simp only [Scan.unwindTo, Array.toList_append, List.forall_mem_append]
  exact ⟨h.root, fallen⟩

theorem raise (code : IssueCode) (span : Span) : (s.raise code span).NamesParams :=
  ⟨h.root, h.frames⟩

theorem emit {t : Token} (named : t.NamesParam) : (s.emit t).NamesParams := by
  have pushed :
      ((if allowedInTypeArgs t.kind then s else s.demote).push (.token t)).NamesParams := by
    split
    · exact h.push named
    · exact (h.unwindTo _ _).push named
  exact ⟨pushed.root, pushed.frames⟩

theorem openFrame (kind : FrameKind) (opener : Token) : (s.openFrame kind opener).NamesParams :=
  ⟨h.root, List.forall_mem_cons.mpr ⟨by simp, h.frames⟩⟩

theorem closeFrame (closer : Token) : (s.closeFrame closer).NamesParams := by
  unfold Scan.closeFrame
  split
  · exact h
  · rename_i f fs frames
    have inner : NamesParams { s with frames := fs } :=
      ⟨h.root, fun g member => h.frames g (by simp [frames, member])⟩
    have pushed := inner.push (n := f.close closer) trivial
    exact ⟨pushed.root, pushed.frames⟩

theorem close (closer : Token) : (s.close closer).NamesParams := by
  have demoted : s.demote.NamesParams := h.unwindTo _ _
  unfold Scan.close
  dsimp only
  split
  · exact (demoted.unwindTo _ _).closeFrame closer
  · exact demoted.raise _ _

/-- A token of another kind holds what it may. -/
theorem other {t : Token} (kind : t.kind ≠ .param) : (s.emit t).NamesParams :=
  h.emit fun same => absurd same kind

theorem word (t : Token) : (s.word t).NamesParams := by
  unfold Scan.word
  extract_lets s' kind arm
  have started : s'.NamesParams := by
    unfold s'
    split
    all_goals first
      | exact h.raise _ _
      | exact h
  have differs : kind ≠ .param := by
    unfold kind
    split
    · simp
    · split <;> simp
  have emitted := started.other (t := { t with kind }) differs
  exact ⟨emitted.root, emitted.frames⟩

theorem colonWord (t : Token) : (s.colonWord t).NamesParams := by
  unfold Scan.colonWord
  split
  · refine (h.other (by simp)).other ?_
    dsimp only
    split <;> simp
  · exact h.other (by simp)

theorem strToken (t : Token) : (s.strToken t).NamesParams := by
  unfold Scan.strToken
  dsimp only
  refine other ?_ (by simp)
  generalize Escape.unknownEscapes _ _ = faults
  induction faults generalizing s with
  | nil => exact h
  | cons f fs ih => exact ih (h.raise _ _)

theorem fixedToken {t : Token} (kind : t.kind ≠ .param) : (s.fixedToken t).NamesParams := by
  have disarmed : NamesParams { s with arm := .off } := ⟨h.root, h.frames⟩
  unfold Scan.fixedToken
  split
  · exact disarmed.openFrame _ _
  · exact disarmed.openFrame _ _
  · exact disarmed.openFrame _ _
  · exact h.close t
  · exact h.close t
  · exact h.close t
  · split
    · exact disarmed.openFrame _ _
    · exact h.other kind
  · split
    · exact h.closeFrame _
    · exact h.other kind
  · exact h.other kind

theorem plain {l : Lexeme} {t : Token} (fixed : ∀ k, l = .fixed k → k ≠ .param)
    (text : l = .param → ∀ c ∈ t.text.toList.drop 1, Lexeme.isWordRest c = true) :
    (s.plain l t).NamesParams := by
  cases l with
  | blank => exact h
  | comment => exact h
  | marker => exact h
  | word => exact h.word t
  | colonWord => exact h.colonWord t
  | bareSign => exact (h.raise _ _).other (by simp)
  | openStr => exact (h.raise _ _).strToken t
  | str => exact h.strToken t
  | param => exact h.emit fun _ => text rfl
  | fixed kind => exact h.fixedToken (fixed kind rfl)
  | builtin => exact h.other (by simp)
  | label => exact h.other (by simp)
  | hex => exact h.other (by simp)
  | int => exact h.other (by simp)
  | float => exact h.other (by simp)

theorem lexeme {l : Lexeme} {t : Token} (source : List Char)
    (fixed : ∀ k, l = .fixed k → k ≠ .param)
    (text : l = .param → ∀ c ∈ t.text.toList.drop 1, Lexeme.isWordRest c = true) :
    (s.lexeme source l t).NamesParams := by
  have spent : NamesParams { s with marker := none } := ⟨h.root, h.frames⟩
  unfold Scan.lexeme
  split
  · exact ⟨h.root, h.frames⟩
  · exact ⟨h.root, h.frames⟩
  · dsimp only
    split
    · rename_i marked
      exact spent.other (ne_param_of_markedBy marked)
    · exact (spent.raise _ _).plain fixed text
  · exact h.plain fixed text

theorem foreignText (pos : Nat) (text : List Char) (stop : ForeignEnd) :
    (s.foreignText pos text stop).NamesParams := by
  unfold Scan.foreignText
  dsimp only
  generalize kept : (if text.isEmpty then s else _) = s'
  have pushed : s'.NamesParams := by
    rw [← kept]
    split
    · exact h
    · exact h.push (by simp [Node.NamesParam, Token.NamesParam])
  split
  · exact pushed
  · have closed := pushed.closeFrame
      { kind := .rbrace, span := ⟨s'.chunk, pos + byteLength text, pos + byteLength text + 1⟩,
        text := "\x7d" }
    exact ⟨closed.root, closed.frames⟩
  · refine ⟨pushed.root, List.forall_mem_cons.mpr ⟨by simp, ?_⟩⟩
    split
    · rename_i f fs frames
      exact List.forall_mem_cons.mpr ⟨pushed.frames f (by simp [frames]), fun g member =>
        pushed.frames g (by simp [frames, member])⟩
    · simp

theorem take {cs : List Char} (source : List Char) (pos : Nat) :
    (s.take source pos (cs.take (s.next cs).size) (s.next cs)).NamesParams := by
  have placed (stop : Option Nat) : NamesParams { s with lastEnd := stop } := ⟨h.root, h.frames⟩
  generalize found : s.next cs = piece
  unfold Scan.take
  split
  · exact h.foreignText _ _ _
  · exact h
  · exact placed _
  · rename_i l n _ _
    dsimp only
    cases l with
    | none => exact ((placed _).raise _ _).other (by simp)
    | some l =>
      obtain ⟨measured, _, fixed⟩ := Lexeme.longest_some (longest_of_next found)
      refine (placed _).lexeme source (fun k same => ?_) fun same => ?_
      · have none : TokenKind.param ∉ Lexeme.fixedKinds := by decide
        rintro rfl
        exact none (fixed _ same)
      · subst same
        rw [Piece.size, ← measured]
        simpa using Lexeme.param_text cs

end NamesParams

omit h in
/-- Wherever a scan can come, the tokens hold words where they have to. -/
theorem At.namesParams {chunk : Nat} {source rest : List Char} {pos : Nat}
    (here : At chunk source rest pos s) : s.NamesParams := by
  induction here with
  | start => exact ⟨by simp, by simp⟩
  | step _ _ ih => exact ih.take source _

theorem NamesParams.finish (stop : Span) : ∀ n ∈ (s.finish stop).1.nodes, n.NamesParam := by
  unfold Scan.finish
  dsimp only
  split
  · exact ((h.raise _ _).unwindTo _ _).root
  · exact (h.unwindTo _ _).root

end Scan

theorem TokenTree.ofText_namesParam (chunk : Nat) (text : String) :
    ∀ n ∈ (ofText chunk text).1.nodes, n.NamesParam := by
  have begun : Scan.At chunk text.toList text.toList 0 { chunk } := .start
  obtain ⟨_, here⟩ := begun.run
  exact here.namesParams.finish _

/-! ## Items -/

section Fault

variable {α β : Type} {Q : α → Prop} {a : α}

open Classical in
/-- One for what lacks a property, so that a rule pays for it. -/
noncomputable def fault (Q : α → Prop) (a : α) : Nat := if Q a then 0 else 1

theorem fault_eq_zero_iff : fault Q a = 0 ↔ Q a := by simp [fault]

theorem fault_le_one (Q : α → Prop) (a : α) : fault Q a ≤ 1 := by
  unfold fault
  split <;> simp

theorem fault_mono {Q' : β → Prop} {b : β} (h : Q a → Q' b) : fault Q' b ≤ fault Q a := by
  by_cases holds : Q a
  · exact Nat.le_of_eq ((fault_eq_zero_iff.mpr (h holds)).trans (fault_eq_zero_iff.mpr holds).symm)
  · exact (fault_le_one Q' b).trans (Nat.le_of_eq (if_neg holds).symm)

/-- A result of which nothing is asked. -/
theorem Reads.free {debt k : Nat} {p : Parser α} {w : α → Nat} (h : Reads debt k p w) :
    Pays debt p fun _ => 0 := h.pays.mono fun _ => Nat.zero_le _

end Fault

def ItemKind.NamesParam (k : ItemKind) : Prop :=
  ∀ name ty, k = .param name ty → ∀ c ∈ name.name.toList, Lexeme.isWordRest c = true

namespace Grammar

open Ember.Parser

variable {g : Grammar} {s : Stream}

theorem useItem_namesParam : Pays 0 useItem (fault ItemKind.NamesParam) := by
  refine .skip next_accepts.pays fun _ => .skip (accept_accepts _).pays fun found => ?_
  have rest (kind : ItemKind) (other : ∀ name ty, kind ≠ .param name ty) : Pays 0 (do
      let _ ← expect .semi .expectedSemicolon
      return kind) (fault ItemKind.NamesParam) :=
    .skip (expect_reads _ _).pays fun _ => .pure (Nat.le_of_eq (fault_eq_zero_iff.mpr
      fun name ty same => absurd same (other name ty)))
  cases found with
  | some t =>
    dsimp only
    rw [pure_bind]
    exact rest _ (by simp)
  | none =>
    refine .skip (missing_free 0 _).pays fun _ => ?_
    rw [pure_bind]
    exact rest _ (by simp)

theorem constItem_namesParam (reading : g.Reading) :
    Pays 0 (constItem g) (fault ItemKind.NamesParam) := by
  refine .skip next_accepts.pays fun _ => .skip (ident_reads _).pays fun _ => ?_
  refine .skip (annotated_reads reading _).free fun _ => .skip (expect_reads _ _).pays fun _ => ?_
  refine .skip (reading.exprOr true _).free fun _ => .skip (expect_reads _ _).pays fun _ => ?_
  exact .pure (Nat.le_of_eq (fault_eq_zero_iff.mpr (by rintro _ _ ⟨⟩)))

theorem paramName_paysAt (named : ∀ n ∈ s.rest, n.NamesParam) :
    PaysAt s 0 paramName (fault fun name => ∀ c ∈ name.name.toList,
      Lexeme.isWordRest c = true) := by
  have found : ∀ t ∈ (acceptAny (fun k => k == .param || k == .ident) s).1, t.NamesParam := by
    unfold acceptAny
    split
    · rename_i t ns rest
      split
      · rintro _ ⟨⟩
        exact named (.token t) (by simp [rest])
      · simp
    · simp
  refine ((acceptAny_accepts _).pays s).bind ?_
  revert found
  cases (acceptAny _ s).1 with
  | some t =>
    intro found
    dsimp only
    split
    · rename_i kind
      refine ⟨⟨#[], Array.append_empty.symm, ?_⟩, List.suffix_rfl⟩
      exact Nat.le_of_eq (fault_eq_zero_iff.mpr (by simpa [identOf] using found t rfl kind))
    · refine Pays.also (raise_pays _ _) (fun _ => ?_) _
      exact fun s => ⟨⟨#[], Array.append_empty.symm, fault_le_one _ _⟩, List.suffix_rfl⟩
  | none => exact fun _ => Pays.also (missing_reads 0 _).pays (fun _ => .pure (fault_le_one _ _)) _

theorem paramItem_namesParam (reading : g.Reading) (named : ∀ n ∈ s.rest, n.NamesParam) :
    PaysAt s 0 (paramItem g) (fault ItemKind.NamesParam) := by
  have kept : ∀ n ∈ (next s).2.rest, n.NamesParam := fun n h =>
    named n ((next_accepts.pays s).rest.subset h)
  refine (next_accepts.pays s).bind ((paramName_paysAt kept).bind ?_)
  refine Pays.skip (expect_reads _ _).pays (fun _ => ?_) _
  refine .skip (reading.type _).free fun _ => .skip (expect_reads _ _).pays fun _ => .pure ?_
  refine fault_mono fun word _ _ same => ?_
  cases same
  exact word

theorem item_namesParam (reading : g.Reading) (named : ∀ n ∈ s.rest, n.NamesParam) :
    PaysAt s 0 (item g) (fault ItemKind.NamesParam) := by
  refine ((look_reads _).pays s).bind ?_
  change PaysAt s _ _ _
  have other {α : Type} {p : Parser α} {w : α → Nat} {f : α → ItemKind} (h : Reads 0 1 p w)
      (differs : ∀ a name ty, f a ≠ .param name ty) :
      PaysAt s 0 (f <$> p) (fault ItemKind.NamesParam) := by
    refine (h.map fun a => ?_).pays s
    rw [fault_eq_zero_iff.mpr fun name ty same => absurd same (differs a name ty)]
    exact Nat.zero_le _
  split
  · exact useItem_namesParam s
  · exact other (fnItem_reads reading) (by simp)
  · exact other (structItem_reads reading) (by simp)
  · exact other (structItem_reads reading) (by simp)
  · exact constItem_namesParam reading s
  · exact paramItem_namesParam reading named
  · exact other (assertion_reads reading) (by simp)
  · refine Pays.skip (look_reads _).pays (fun start => .skip next_accepts.pays fun n => ?_) s
    refine .also (raise_pays _ _) fun _ => .skip (skipUntil_pays _) fun _ => .pure ?_
    exact fault_le_one _ _

theorem scriptItems_namesParam (reading : g.Reading) (n : Nat)
    (named : ∀ n ∈ s.rest, n.NamesParam) : PaysAt s 0 (scriptItems g n) fun items =>
      (items.map fun i => fault ItemKind.NamesParam i.kind).sum := by
  induction n generalizing s with
  | zero =>
    rw [scriptItems]
    exact Pays.pure (by simp) s
  | succ n ih =>
    rw [scriptItems]
    refine ((look_reads _).pays s).bind ?_
    change PaysAt s _ _ _
    split
    · exact Pays.pure (by simp) s
    have first := item_namesParam reading named
    have kept : ∀ n ∈ (item g s).2.rest, n.NamesParam := fun n h => named n (first.rest.subset h)
    refine ((look_reads _).pays s).bind (first.bind (((look_reads _).pays.more _ _).bind ?_))
    exact ((ih kept).more _).bind (Pays.pure (by simp) _)

end Grammar

/-- The values from outside that a script without issues declares have words as names. -/
theorem Script.parse_namesParam {chunk : Nat} {text : String}
    (none : (Script.parse chunk text).issues = []) :
    ∀ i ∈ (Script.parse chunk text).result.items, i.kind.NamesParam := by
  have reading := Grammar.ofDepth_reading ((TokenTree.ofText chunk text).1.tokens.length + 1)
  have named : ∀ n ∈ (Stream.ofTree (TokenTree.ofText chunk text).1).rest, n.NamesParam :=
    TokenTree.ofText_namesParam chunk text
  have pays : PaysAt { Stream.ofTree (TokenTree.ofText chunk text).1 with
      issues := (TokenTree.ofText chunk text).2.toArray } 0
      (Script.parser (TokenTree.ofText chunk text).1.grammar)
      fun s => (s.items.map fun i => fault ItemKind.NamesParam i.kind).sum := by
    refine ((Parser.look_reads _).pays _).bind ?_
    refine PaysAt.bind (Grammar.scriptItems_namesParam reading _ ?_) (Pays.pure ?_ _)
    · exact named
    · exact Nat.le_refl _
  have final : (Script.parser (TokenTree.ofText chunk text).1.grammar
      { Stream.ofTree (TokenTree.ofText chunk text).1 with
        issues := (TokenTree.ofText chunk text).2.toArray }).2.issues.size = 0 :=
    List.length_eq_zero_iff.mpr none
  have faults := pays.quiet (final.trans (Nat.le_zero.mp (final ▸ pays.grows)).symm)
  intro i member
  refine fault_eq_zero_iff.mp (Nat.le_zero.mp (Nat.le_trans ?_ faults))
  exact List.single_le_sum (fun _ _ => Nat.zero_le _) _ (List.mem_map_of_mem member)

end Ember

import Ember.Proofs.Lines
import Ember.Proofs.Written.Words
import Ember.Token.Scan

/-!
# Every text has a literal

The seven characters that a backslash can give are written with one, and all others as they are.
Such a literal is read as one token without an issue, and its body stands for the text.
-/

set_option autoImplicit false

namespace Ember

namespace Escape

def spelling : Char → List Char
  | '\n' => ['\\', 'n']
  | '\t' => ['\\', 't']
  | '\r' => ['\\', 'r']
  | '\\' => ['\\', '\\']
  | '"' => ['\\', '"']
  | '\x00' => ['\\', '0']
  | '$' => ['\\', '$']
  | c => [c]

def encode (text : List Char) : List Char := text.flatMap spelling

def quote (text : List Char) : List Char := '"' :: encode text ++ ['"']

/-- A character is written as it is, or as a backslash and what that gives its meaning to. -/
theorem spelling_cases (c : Char) :
    (spelling c = [c] ∧ c ≠ '\\' ∧ c ≠ '"' ∧ c ≠ '\n') ∨
      ∃ d, spelling c = ['\\', d] ∧ meaning? d = some c ∧ d ≠ '\n' := by
  fun_cases spelling c with
  | case8 c newline _ _ backslash quote => exact .inl ⟨rfl, backslash, quote, newline⟩
  | _ => exact .inr ⟨_, rfl, rfl, by decide⟩

theorem decode_encode (text : List Char) : decode (encode text) = text := by
  induction text with
  | nil => rfl
  | cons c text ih =>
    rw [encode, List.flatMap_cons, ← encode]
    rcases spelling_cases c with ⟨plain, backslash, -, -⟩ | ⟨d, escaped, means, -⟩
    · rw [plain, List.singleton_append, decode.eq_4 _ _ (fun same => absurd same backslash)
        fun _ _ same => absurd same backslash, ih]
    · simp [escaped, decode, means, ih]

theorem meaning?_eq_none {c : Char} (beyond : 0x80 ≤ c.toNat) : meaning? c = none := by
  fun_cases meaning? c with
  | case8 => rfl
  | _ => exact absurd beyond (by decide)

theorem sizeOfLead_eq {c : Char} {lead : UInt8} {tail : List UInt8}
    (spelled : String.utf8EncodeChar c = lead :: tail) : sizeOfLead lead = tail.length + 1 := by
  revert spelled
  fun_cases String.utf8EncodeChar c
  all_goals
    rintro ⟨⟩
    simp only [sizeOfLead, UInt8.lt_iff_toNat_lt, UInt8.toNat_ofNat']
    grind

/-- The first byte of a character tells how many there are, and whether a backslash gives the
character a meaning. None of the others is a backslash. -/
theorem exists_encode_eq (c : Char) :
    ∃ lead tail, String.utf8EncodeChar c = lead :: tail ∧ sizeOfLead lead = c.utf8Size ∧
      (meaning? (.ofUInt8 lead)).isSome = (meaning? c).isSome ∧
      ∀ b ∈ tail, b ≠ '\\'.toUInt8 := by
  obtain ⟨lead, tail, spelled⟩ := List.exists_cons_of_ne_nil (String.utf8EncodeChar_ne_nil (c := c))
  have size : sizeOfLead lead = c.utf8Size := by
    rw [sizeOfLead_eq spelled, ← String.length_utf8EncodeChar, spelled, List.length_cons]
  refine ⟨lead, tail, spelled, size, ?_, ?_⟩
  all_goals rcases encode_cases c with ⟨b, one, _, stands⟩ | ⟨high, beyond⟩
  · obtain ⟨rfl, rfl⟩ : lead = b ∧ tail = [] := by simpa [one, eq_comm] using spelled
    rw [stands]
  · have leads : 0x80 ≤ (Char.ofUInt8 lead).toNat :=
      UInt8.le_iff_toNat_le.mp (beyond lead (by simp [spelled]))
    rw [meaning?_eq_none high, meaning?_eq_none leads]
  · have none : tail = [] := by simpa [one] using congrArg List.tail spelled.symm
    simp [none]
  · rintro b member rfl
    exact absurd (beyond '\\'.toUInt8 (by simp [spelled, member])) (by decide)

/-- Bytes without a backslash are passed. -/
theorem unknownEscapes_append {bs : List UInt8} (none : ∀ b ∈ bs, b ≠ '\\'.toUInt8)
    (rest : List UInt8) (pos : Nat) :
    unknownEscapes pos (bs ++ rest) = unknownEscapes (pos + bs.length) rest := by
  induction bs generalizing pos with
  | nil => rfl
  | cons b bs ih =>
    have differs : b ≠ '\\'.toUInt8 := none b (by simp)
    have passed := ih (fun c member => none c (by simp [member])) (pos + 1)
    have size : pos + (b :: bs).length = pos + 1 + bs.length := by simp; omega
    rw [size, ← passed, List.cons_append]
    cases bs ++ rest with
    | nil => simp [unknownEscapes]
    | cons c cs => rw [unknownEscapes, if_neg differs]

theorem unknownEscapes_cons {c : Char} (differs : c ≠ '\\') (cs : List Char) (pos : Nat) :
    unknownEscapes pos (utf8 (c :: cs)) = unknownEscapes (pos + c.utf8Size) (utf8 cs) := by
  rw [utf8, List.flatMap_cons, ← utf8, ← String.length_utf8EncodeChar]
  exact unknownEscapes_append (fun b => ne_of_mem_encode (by decide) differs) _ _

/-- Two bytes after a backslash there is the next character, or what is left of one to which the
backslash gives no meaning. No byte of that is a backslash, so that no escape is missed. -/
theorem unknownEscapes_escape (c : Char) (cs : List Char) (pos : Nat) :
    unknownEscapes pos (utf8 ('\\' :: c :: cs)) =
      (if (meaning? c).isSome then [] else [(pos, pos + 1 + c.utf8Size)]) ++
        unknownEscapes (pos + 1 + c.utf8Size) (utf8 cs) := by
  obtain ⟨lead, tail, spelled, first, means, after⟩ := exists_encode_eq c
  have size : tail.length + 1 = c.utf8Size := by
    rw [← String.length_utf8EncodeChar, spelled, List.length_cons]
  have bytes : utf8 ('\\' :: c :: cs) = '\\'.toUInt8 :: lead :: (tail ++ utf8 cs) := by
    rw [← List.cons_append, ← spelled]
    rfl
  rw [bytes, unknownEscapes, if_pos rfl, means, first, unknownEscapes_append after,
    show pos + 2 + tail.length = pos + 1 + c.utf8Size by omega]
  split <;> rfl

theorem unknownEscapes_encode (text : List Char) (pos : Nat) :
    unknownEscapes pos (utf8 (encode text)) = [] := by
  induction text generalizing pos with
  | nil => rfl
  | cons c text ih =>
    rw [encode, List.flatMap_cons, ← encode]
    rcases spelling_cases c with ⟨plain, backslash, -, -⟩ | ⟨d, escaped, means, -⟩
    · rw [plain, List.singleton_append, unknownEscapes_cons backslash, ih]
    · simp [escaped, unknownEscapes_escape, means, ih]

theorem body_quote (text : List Char) : body (quote text) = encode text := by
  simp [body, quote]

end Escape

namespace Lexeme

open Escape

/-- The body of a literal goes up to its closing quote, and to no quote before. -/
theorem strBody_encode (text rest : List Char) :
    strBody (encode text ++ '"' :: rest) = (encode text).length := by
  induction text with
  | nil => simp [encode, strBody]
  | cons c text ih =>
    rw [encode, List.flatMap_cons, ← encode, List.append_assoc]
    rcases spelling_cases c with ⟨plain, backslash, quote, newline⟩ | ⟨d, escaped, -, newline⟩
    · rw [plain, List.singleton_append, strBody.eq_2 _ _ fun _ _ same => absurd same backslash,
        if_neg (by simp [backslash, quote, newline]), ih, List.singleton_append, List.length_cons,
        Nat.add_comm]
    · simp [escaped, strBody, newline, ih, Nat.add_comm 2]

theorem longest_quote (text : List Char) :
    longest (quote text) = (some .str, (quote text).length) := by
  have strings : str? (quote text) = (quote text).length ∧
      openStr? (quote text) < (quote text).length := by
    simp only [quote, List.cons_append, str?, openStr?, strBody_encode, List.drop_left,
      List.length_cons, List.length_append, List.length_nil]
    exact ⟨by simp; omega, by omega⟩
  have size : measure .str (quote text) = (quote text).length := strings.1
  rw [← size]
  refine longest_eq (by simp [rules, measure]) (by rw [size]; simp [quote]) fun m other listed => ?_
  rw [size]
  by_cases rival : m = .openStr
  · rw [rival]
    exact strings.2
  · have none_ : m.starts '"' = false := by
      cases m with
      | openStr => exact absurd rfl rival
      | str => exact absurd rfl other
      | fixed kind =>
        have table : fixedKinds.all (·.text.toList.head? != some '"') = true := by decide +kernel
        have row := List.all_eq_true.mp table kind (listed kind rfl)
        simp_all [starts]
      | _ => simp [starts, isBlank, isWordStart]
    rw [quote, List.cons_append, measure_eq_zero none_]
    simp

end Lexeme

namespace TokenTree

open Escape

/-- The literal of a text is one token over all of it, without an issue, and stands for the text. -/
theorem ofText_quote (chunk : Nat) (text : String) :
    let literal := String.ofList (quote text.toList)
    let size := byteLength literal.toList
    ofText chunk literal =
        (⟨[.token { kind := .str, span := ⟨chunk, 0, size⟩, text := literal }],
          Span.point chunk size⟩, []) ∧
      String.ofList (decode (body literal.toList)) = text := by
  intro literal size
  have read : literal.toList = quote text.toList := String.toList_ofList
  refine ⟨?_, by rw [read, body_quote, decode_encode, String.ofList_toList]⟩
  have piece : Scan.next { chunk } (quote text.toList) =
      .lexeme (some .str) (quote text.toList).length := by
    rw [Scan.next, Lexeme.longest_quote]
    rfl
  have faults : unknownEscapes 1 (utf8 (body (quote text.toList))) = [] := by
    rw [body_quote, unknownEscapes_encode]
  have run : Scan.run (quote text.toList) (quote text.toList) 0 { chunk } =
      Scan.take { chunk } (quote text.toList) 0 (quote text.toList)
        (.lexeme (some .str) (quote text.toList).length) := by
    conv_lhs => rw [quote, List.cons_append]
    rw [Scan.run, ← List.cons_append, ← quote, piece]
    simp only [Scan.Piece.size, List.take_length]
    simp [quote, Scan.run]
  have taken : Scan.take { chunk } (quote text.toList) 0 (quote text.toList)
      (.lexeme (some .str) (quote text.toList).length) =
        { chunk, lastEnd := some size, prev := some .str,
          root := #[.token { kind := .str, span := ⟨chunk, 0, size⟩, text := literal }] } := by
    simp [Scan.take, Scan.lexeme, Scan.plain, Scan.strToken, Scan.emit, Scan.allowedInTypeArgs,
      Scan.demote, Scan.unwindTo, unwind, Scan.push, faults, String.toList_ofList, literal, size]
  rw [ofText, read, run, taken]
  simp [Scan.finish, Scan.unwindTo, unwind, size, read]

end TokenTree
end Ember

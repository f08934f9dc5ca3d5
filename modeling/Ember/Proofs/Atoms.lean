import Mathlib
import Ember.Code

/-!
# Texts that may stand beside any operator

What lies outside of the brackets of a text is read off character by character, with the brackets
that are still open on a stack. A text is atomic if its brackets balance and what lies outside of
them is a number or nothing, and then letters, digits, `_`, `$` and points. Code that is no bare
operation has an atomic text, whatever its parts are, if the names in it are plain.
-/

set_option autoImplicit false

namespace Ember

/-! ## Brackets -/

namespace Text

def closer? : Char → Option Char
  | '(' => some ')'
  | '[' => some ']'
  | '\x7b' => some '\x7d'
  | _ => none

def isCloser (c : Char) : Bool := c == ')' || c == ']' || c == '\x7d'

/-- The brackets still to be closed after one that closes. -/
def close? (c : Char) : List Char → Option (List Char)
  | d :: rest => if d = c then some rest else none
  | [] => none

/-- Reads a text with some brackets still to be closed. Gives those left open, and the characters
outside of all brackets; nothing if a bracket closes what is not open. -/
def outside : (stack text : List Char) → Option (List Char × List Char)
  | stack, [] => some (stack, [])
  | stack, c :: cs =>
    match closer? c with
    | some d => outside (d :: stack) cs
    | none =>
      if isCloser c then (close? c stack).bind fun rest => outside rest cs
      else (outside stack cs).map fun p => (p.1, if stack.isEmpty then c :: p.2 else p.2)

/-- The brackets of a text balance, and these characters are outside of them. -/
def Outside (text chars : List Char) : Prop := outside [] text = some ([], chars)

theorem outside_append (stack a b : List Char) :
    outside stack (a ++ b) = (outside stack a).bind fun p =>
      (outside p.1 b).map fun q => (q.1, p.2 ++ q.2) := by
  induction a generalizing stack with
  | nil => simp [outside]
  | cons c cs ih =>
    rw [List.cons_append, outside, outside]
    split
    · exact ih _
    · split
      · cases close? c stack with
        | none => rfl
        | some rest => exact ih rest
      · rw [ih]
        cases first : outside stack cs with
        | none => rfl
        | some p =>
          cases second : outside p.1 b with
          | none => simp [second]
          | some q => cases stack <;> simp [second]

theorem close?_append {c : Char} {stack rest : List Char} (h : close? c stack = some rest)
    (base : List Char) : close? c (stack ++ base) = some (rest ++ base) := by
  cases stack with
  | nil => simp [close?] at h
  | cons d ds =>
    simp only [close?, Option.ite_none_right_eq_some, Option.some.injEq] at h
    simp [close?, h.1, h.2]

/-- Inside of other brackets, nothing is outside. -/
theorem outside_under {stack left text chars base : List Char}
    (h : outside stack text = some (left, chars)) (deep : base ≠ []) :
    outside (stack ++ base) text = some (left ++ base, []) := by
  induction text generalizing stack left chars with
  | nil =>
    simp only [outside, Option.some.injEq, Prod.mk.injEq] at h
    simp [outside, h.1]
  | cons c cs ih =>
    rw [outside] at h ⊢
    split at h
    · rename_i d opens
      simpa [opens] using ih h
    · rename_i opens
      split at h
      · rename_i closes
        obtain ⟨rest, closed, h⟩ := Option.bind_eq_some_iff.mp h
        simpa [opens, closes, close?_append closed] using ih h
      · rename_i plain
        obtain ⟨p, inner, same⟩ := Option.map_eq_some_iff.mp h
        simp only [Prod.mk.injEq] at same
        have under := ih inner
        simp [plain, under, same.1, deep]

namespace Outside

variable {a b chars more : List Char}

theorem nil : Outside [] [] := rfl

theorem append (first : Outside a chars) (second : Outside b more) :
    Outside (a ++ b) (chars ++ more) := by
  unfold Outside at *
  rw [outside_append, first]
  simp [second]

/-- Brackets hide what they hold. -/
theorem bracketed (h : Outside a chars) {opener closer : Char}
    (opens : closer? opener = some closer)
    (no_opener : closer? closer = none) (closes : isCloser closer = true) :
    Outside (opener :: a ++ [closer]) [] := by
  have under : outside ([] ++ [closer]) a = some ([] ++ [closer], []) := outside_under h (by simp)
  unfold Outside
  rw [List.cons_append, outside, opens]
  simp only
  rw [outside_append]
  simp only [List.nil_append] at under
  simp [under, outside, no_opener, closes, close?]

theorem parens (h : Outside a chars) : Outside ('(' :: a ++ [')']) [] :=
  h.bracketed rfl rfl rfl

theorem squares (h : Outside a chars) : Outside ('[' :: a ++ [']']) [] :=
  h.bracketed rfl rfl rfl

theorem of_no_bracket {cs : List Char} (h : ∀ c ∈ cs, closer? c = none ∧ isCloser c = false) :
    Outside cs cs := by
  induction cs with
  | nil => rfl
  | cons c cs ih =>
    obtain ⟨opens, closes⟩ := h c (by simp)
    have rest := ih fun d member => h d (by simp [member])
    unfold Outside at *
    simp [outside, opens, closes, rest]

end Outside

/-! ## Plain and atomic texts -/

/-- What names, members and numbers are made of. -/
def isPlain (c : Char) : Bool := c.isAlphanum || c == '_' || c == '$' || c == '.'

theorem no_bracket_of_isPlain {c : Char} (plain : isPlain c = true) :
    closer? c = none ∧ isCloser c = false := by
  have others : ∀ d ∈ ['(', '[', '\x7b', ')', ']', '\x7d'], isPlain d = false := by
    simp [isPlain]
  have differ : ∀ d ∈ ['(', '[', '\x7b', ')', ']', '\x7d'], c ≠ d := by
    rintro d member rfl
    rw [others c member] at plain
    cases plain
  simp only [List.mem_cons, List.not_mem_nil, or_false, forall_eq_or_imp, forall_eq] at differ
  refine ⟨?_, by simp [isCloser, differ]⟩
  unfold closer?
  split <;> simp_all

/-- Digits, perhaps with a point in them, and an exponent. -/
def IsNumeral (cs : List Char) : Prop :=
  ∃ mantissa exponent, cs = mantissa ++ exponent ∧
    mantissa ≠ [] ∧ (∀ c ∈ mantissa, c.isDigit = true ∨ c = '.') ∧
    (exponent = [] ∨ ∃ sign digits, exponent = 'e' :: (sign ++ digits) ∧
      (sign = [] ∨ sign = ['-']) ∧ digits ≠ [] ∧ ∀ c ∈ digits, c.isDigit = true)

def Balanced (text : String) : Prop := ∃ chars, Outside text.toList chars

def Plain (text : String) : Prop :=
  ∃ chars, Outside text.toList chars ∧ ∀ c ∈ chars, isPlain c = true

/-- Outside of its brackets, a text has plain characters only, but for those of a number. -/
def Atomic (text : String) : Prop :=
  ∃ number rest, Outside text.toList (number ++ rest) ∧ (number = [] ∨ IsNumeral number) ∧
    ∀ c ∈ rest, isPlain c = true

variable {s t : String}

theorem Plain.atomic (h : Plain t) : Atomic t := by
  obtain ⟨chars, out, plain⟩ := h
  exact ⟨[], chars, out, .inl rfl, plain⟩

theorem Atomic.balanced (h : Atomic t) : Balanced t := by
  obtain ⟨number, rest, out, _⟩ := h
  exact ⟨_, out⟩

theorem Plain.balanced (h : Plain t) : Balanced t := h.atomic.balanced

theorem Balanced.append (hs : Balanced s) (ht : Balanced t) : Balanced (s ++ t) := by
  obtain ⟨_, outS⟩ := hs
  obtain ⟨_, outT⟩ := ht
  exact ⟨_, by rw [String.toList_append]; exact outS.append outT⟩

theorem Plain.append (hs : Plain s) (ht : Plain t) : Plain (s ++ t) := by
  obtain ⟨cs, outS, plainS⟩ := hs
  obtain ⟨ds, outT, plainT⟩ := ht
  refine ⟨cs ++ ds, by rw [String.toList_append]; exact outS.append outT, fun c member => ?_⟩
  exact (List.mem_append.mp member).elim (plainS c) (plainT c)

theorem Atomic.append (hs : Atomic s) (ht : Plain t) : Atomic (s ++ t) := by
  obtain ⟨number, rest, outS, numeral, plainS⟩ := hs
  obtain ⟨ds, outT, plainT⟩ := ht
  refine ⟨number, rest ++ ds, ?_, numeral, fun c member => ?_⟩
  · rw [String.toList_append, ← List.append_assoc]
    exact outS.append outT
  · exact (List.mem_append.mp member).elim (plainS c) (plainT c)

/-- A text of plain characters. -/
theorem plain_of_forall (h : ∀ c ∈ t.toList, isPlain c = true) : Plain t :=
  ⟨t.toList, .of_no_bracket fun c member => no_bracket_of_isPlain (h c member), h⟩

theorem plain_of_all (h : t.toList.all isPlain = true) : Plain t :=
  plain_of_forall (List.all_eq_true.mp h)

/-- A text without brackets. -/
theorem balanced_of_all
    (h : (t.toList.all fun c => closer? c == none && !isCloser c) = true) : Balanced t :=
  ⟨t.toList, .of_no_bracket fun c member => by simpa using List.all_eq_true.mp h c member⟩

theorem Balanced.parens (h : Balanced t) : Plain ("(" ++ t ++ ")") := by
  obtain ⟨chars, out⟩ := h
  refine ⟨[], ?_, by simp⟩
  simpa using out.parens

theorem Balanced.squares (h : Balanced t) : Plain ("[" ++ t ++ "]") := by
  obtain ⟨chars, out⟩ := h
  refine ⟨[], ?_, by simp⟩
  simpa using out.squares

theorem balanced_intercalate {ts : List String} (each : ∀ t ∈ ts, Balanced t) :
    Balanced (String.intercalate ", " ts) := by
  induction ts with
  | nil => exact ⟨[], rfl⟩
  | cons t ts ih =>
    cases ts with
    | nil => simpa using each t (by simp)
    | cons u us =>
      rw [String.intercalate_cons_cons]
      have comma : Balanced ", " := balanced_of_all (by decide)
      exact ((each t (by simp)).append comma).append (ih fun v member => each v (by simp [member]))

theorem isPlain_of_isDigit {c : Char} (digit : c.isDigit = true) : isPlain c = true := by
  simp [isPlain, Char.isAlphanum, digit]

theorem isDigit_of_mem_toString {n : Nat} {c : Char} (member : c ∈ (toString n).toList) :
    c.isDigit = true := by
  rw [Nat.toString_eq_ofList_toDigits, String.toList_ofList] at member
  exact Nat.isDigit_of_mem_toDigits (by decide) (by decide) member

theorem toString_ne_nil (n : Nat) : (toString n).toList ≠ [] := by
  rw [Nat.toString_eq_ofList_toDigits, String.toList_ofList]
  exact Nat.toDigits_ne_nil

theorem plain_toString (n : Nat) : Plain (toString n) :=
  plain_of_forall fun _ member => isPlain_of_isDigit (isDigit_of_mem_toString member)

end Text

/-! ## Numbers -/

namespace Decimal

open Text

theorem isDigit_of_mem_significant {n : Nat} {c : Char} (member : c ∈ significant n) :
    c.isDigit = true := by
  have listed := (List.dropWhile_suffix _).subset (List.mem_reverse.mp member)
  exact Nat.isDigit_of_mem_toDigits (by decide) (by decide) (List.mem_reverse.mp listed)

theorem mem_pointed {digits : List Char} {place : Int} (all : ∀ c ∈ digits, c.isDigit = true)
    {c : Char} (member : c ∈ pointed digits place) : c.isDigit = true ∨ c = '.' := by
  have zero (n : Nat) (h : c ∈ zeros n) : c.isDigit = true := by
    rw [List.eq_of_mem_replicate h]
    rfl
  have taken (n : Nat) (h : c ∈ digits.take n) := all c (List.mem_of_mem_take h)
  have dropped (n : Nat) (h : c ∈ digits.drop n) := all c (List.mem_of_mem_drop h)
  unfold pointed at member
  split_ifs at member
  · simp only [List.mem_cons, List.mem_append] at member
    rcases member with rfl | rfl | h | h
    · exact .inl rfl
    · exact .inr rfl
    · exact .inl (zero _ h)
    · exact .inl (all c h)
  · simp only [List.mem_append, List.mem_cons] at member
    rcases member with h | rfl | h
    · exact .inl (taken _ h)
    · exact .inr rfl
    · exact .inl (dropped _ h)
  · simp only [List.mem_append, List.mem_cons, List.not_mem_nil, or_false] at member
    rcases member with (h | h) | rfl | rfl
    · exact .inl (all c h)
    · exact .inl (zero _ h)
    · exact .inr rfl
    · exact .inl rfl

theorem pointed_ne_nil (digits : List Char) (place : Int) : pointed digits place ≠ [] := by
  unfold pointed
  split_ifs <;> simp

theorem toString_int (i : Int) :
    ∃ sign digits, (toString i).toList = sign ++ digits ∧ (sign = [] ∨ sign = ['-']) ∧
      digits ≠ [] ∧ ∀ c ∈ digits, c.isDigit = true := by
  cases i with
  | ofNat n =>
    exact ⟨[], (toString n).toList, rfl, .inl rfl, toString_ne_nil n,
      fun _ => isDigit_of_mem_toString⟩
  | negSucc n =>
    refine ⟨['-'], (toString (n + 1)).toList, ?_, .inr rfl, toString_ne_nil _,
      fun _ => isDigit_of_mem_toString⟩
    change ("-" ++ toString (n + 1)).toList = _
    rw [String.toList_append]
    rfl

theorem scientific_numeral {digits : List Char} (all : ∀ c ∈ digits, c.isDigit = true)
    (place : Int) : IsNumeral (scientific digits place) := by
  obtain ⟨sign, power, text, signed, some_, each⟩ := toString_int (place - 1)
  unfold scientific
  rw [text]
  refine ⟨_, 'e' :: (sign ++ power), rfl, ?_, ?_, .inr ⟨sign, power, rfl, signed, some_, each⟩⟩
  · split <;> simp
  · intro c member
    split at member
    · simp only [List.mem_singleton] at member
      exact .inl (member ▸ rfl)
    · exact .inl (all c (by simpa using member))
    · rename_i d rest
      simp only [List.mem_cons] at member
      rcases member with rfl | rfl | h
      · exact .inl (all c (by simp))
      · exact .inr rfl
      · exact .inl (all c (by simp [h]))

theorem Scaled.text_numeral (s : Scaled) : IsNumeral s.text.toList := by
  have digits (c : Char) (member : c ∈ significant s.digits) := isDigit_of_mem_significant member
  unfold Scaled.text
  dsimp only
  rw [String.toList_ofList]
  split_ifs
  · exact ⟨_, [], (List.append_nil _).symm, pointed_ne_nil _ _, fun _ => mem_pointed digits,
      .inl rfl⟩
  · exact scientific_numeral digits _

theorem Binary.text_numeral (b : Binary) : IsNumeral b.text.toList := by
  unfold Binary.text
  split_ifs
  · exact ⟨['0', '.', '0'], [], rfl, by simp, by simp, .inl rfl⟩
  · exact b.shortest.text_numeral

end Decimal

namespace Text

open Decimal

theorem IsNumeral.no_bracket {cs : List Char} (h : IsNumeral cs) :
    ∀ c ∈ cs, closer? c = none ∧ isCloser c = false := by
  have digit {c : Char} (h : c.isDigit = true) : closer? c = none ∧ isCloser c = false :=
    no_bracket_of_isPlain (isPlain_of_isDigit h)
  obtain ⟨mantissa, exponent, rfl, _, digits, scaled⟩ := h
  intro c member
  rcases List.mem_append.mp member with front | back
  · rcases digits c front with h | rfl
    · exact digit h
    · exact ⟨rfl, rfl⟩
  · rcases scaled with rfl | ⟨sign, power, rfl, signed, _, each⟩
    · simp at back
    · simp only [List.mem_cons, List.mem_append] at back
      rcases back with rfl | h | h
      · exact ⟨rfl, rfl⟩
      · rcases signed with rfl | rfl
        · simp at h
        · rw [List.mem_singleton.mp h]
          exact ⟨rfl, rfl⟩
      · exact digit (each c h)

theorem atomic_of_isNumeral {t : String} (h : IsNumeral t.toList) : Atomic t :=
  ⟨t.toList, [], by simpa using Outside.of_no_bracket h.no_bracket, .inr h, by simp⟩

theorem balanced_toString_int (i : Int) : Balanced (toString i) := by
  obtain ⟨sign, digits, text, signed, _, each⟩ := toString_int i
  refine ⟨_, .of_no_bracket fun c member => ?_⟩
  rw [text] at member
  rcases List.mem_append.mp member with front | back
  · rcases signed with rfl | rfl
    · simp at front
    · rw [List.mem_singleton.mp front]
      exact ⟨rfl, rfl⟩
  · exact no_bracket_of_isPlain (isPlain_of_isDigit (each c back))

end Text

namespace Scalar

open Text Decimal

theorem floatText_atomic (target : Target) (v : Float32) : Atomic (floatText target v) := by
  have constant (t : String) (h : (outside [] t.toList).any
      (fun p => p.1.isEmpty && p.2.all isPlain) = true) : Atomic t := by
    obtain ⟨p, found, plain⟩ := Option.any_eq_true _ _ |>.mp h
    simp only [Bool.and_eq_true, List.isEmpty_iff, List.all_eq_true] at plain
    refine ⟨[], p.2, ?_, .inl rfl, plain.2⟩
    rw [Outside, found, List.nil_append, ← plain.1]
  unfold floatText
  split
  case h_7 _ negative b _ =>
    split_ifs
    · have minus : Balanced ("-" ++ b.text) :=
        .append (balanced_of_all (by decide)) (atomic_of_isNumeral b.text_numeral).balanced
      have whole := minus.parens.atomic
      rwa [← String.append_assoc] at whole
    · exact atomic_of_isNumeral b.text_numeral
  all_goals exact constant _ (by decide +kernel)

theorem intText_atomic (target : Target) (v : Int32) : Atomic (intText target v) := by
  unfold intText
  split_ifs with least negative
  · have inner : Balanced "-2147483647 - 1" := balanced_of_all (by decide)
    exact inner.parens.atomic
  · exact (balanced_toString_int _).parens.atomic
  · have nonneg : 0 ≤ v.toInt := by
      have := Int32.lt_iff_toInt_lt.not.mp negative
      simpa using this
    obtain ⟨n, same⟩ := Int.eq_ofNat_of_zero_le nonneg
    rw [same]
    exact (plain_toString n).atomic

theorem text_atomic (target : Target) (s : Scalar) : Atomic (s.text target) := by
  cases s with
  | float v => exact floatText_atomic target v
  | int v => exact intText_atomic target v
  | bool v =>
    cases v
    · exact (plain_of_all (t := "false") (by decide)).atomic
    · exact (plain_of_all (t := "true") (by decide)).atomic

end Scalar

/-! ## Code -/

inductive Mention where
  | var (name : String)
  | fn (name : String)
  | part (name : String)

def Mention.name : Mention → String
  | .var x | .fn x | .part x => x

namespace Code

mutual

def mentions : Code → List Mention
  | .name x => [.var x]
  | .lit _ => []
  | .paren c | .neg c | .not c => c.mentions
  | .binary _ a b => a.mentions ++ b.mentions
  | .choice c a b => c.mentions ++ a.mentions ++ b.mentions
  | .call fn args => .fn fn :: mentionsOfAll args
  | .list items => mentionsOfAll items
  | .member b n => b.mentions ++ [.part n]
  | .index b i => b.mentions ++ i.mentions
  | .slot b _ => b.mentions

def mentionsOfAll : List Code → List Mention
  | [] => []
  | c :: cs => c.mentions ++ mentionsOfAll cs

end

/-- Code that no operator beside it takes apart. -/
def isSealed : Code → Bool
  | .name _ | .lit _ | .paren _ | .call _ _ | .list _ => true
  | .member b _ | .index b _ | .slot b _ => b.isSealed
  | .binary _ _ _ | .neg _ | .not _ | .choice _ _ _ => false

theorem mentionsOfAll_eq (cs : List Code) : mentionsOfAll cs = cs.flatMap mentions := by
  induction cs with
  | nil => rfl
  | cons c cs ih => rw [mentionsOfAll, ih, List.flatMap_cons]

open Text

theorem symbol_balanced (op : CodeOp) : Balanced (" " ++ op.symbol ++ " ") := by
  cases op <;> exact balanced_of_all (by decide)

mutual

/-- The brackets of code balance if its names are plain. -/
theorem text_balanced (target : Target) : ∀ c : Code, (∀ m ∈ c.mentions, Plain m.name) →
    Balanced (c.text target)
  | .name x, plain => by
    rw [text]
    exact (plain (.var x) (by simp [mentions])).balanced
  | .lit s, _ => by
    rw [text]
    exact (s.text_atomic target).balanced
  | .paren c, plain => by
    rw [text]
    rw [mentions] at plain
    exact (text_balanced target c plain).parens.balanced
  | .neg c, plain => by
    rw [text]
    rw [mentions] at plain
    exact .append (balanced_of_all (by decide)) (text_balanced target c plain)
  | .not c, plain => by
    rw [text]
    rw [mentions] at plain
    exact .append (balanced_of_all (by decide)) (text_balanced target c plain)
  | .binary op a b, plain => by
    rw [mentions] at plain
    have left := text_balanced target a fun m h => plain m (by simp [h])
    have right := text_balanced target b fun m h => plain m (by simp [h])
    have whole := (left.append (symbol_balanced op)).append right
    rw [text]
    simpa only [String.append_assoc] using whole
  | .choice c a b, plain => by
    rw [mentions] at plain
    have test := text_balanced target c fun m h => plain m (by simp [h])
    have yes := text_balanced target a fun m h => plain m (by simp [h])
    have no := text_balanced target b fun m h => plain m (by simp [h])
    rw [text]
    exact .append (.append (.append (.append test (balanced_of_all (by decide))) yes)
      (balanced_of_all (by decide))) no
  | .call fn args, plain => by
    rw [mentions] at plain
    have items := text_balancedAll target args fun m h => plain m (by simp [h])
    have callee : Plain fn := plain (.fn fn) (by simp)
    have whole := callee.balanced.append (balanced_intercalate items).parens.balanced
    rw [text]
    simpa only [String.append_assoc] using whole
  | .list items, plain => by
    rw [mentions] at plain
    rw [text]
    exact (balanced_intercalate (text_balancedAll target items plain)).squares.balanced
  | .member b n, plain => by
    rw [mentions] at plain
    have base := text_balanced target b fun m h => plain m (by simp [h])
    have part := plain (.part n) (by simp)
    rw [text]
    exact .append (.append base (balanced_of_all (by decide))) part.balanced
  | .index b i, plain => by
    rw [mentions] at plain
    have base := text_balanced target b fun m h => plain m (by simp [h])
    have place := text_balanced target i fun m h => plain m (by simp [h])
    rw [text]
    simpa only [String.append_assoc] using base.append place.squares.balanced
  | .slot b n, plain => by
    rw [mentions] at plain
    have base := text_balanced target b plain
    rw [text]
    simpa only [String.append_assoc] using
      base.append (plain_toString n).balanced.squares.balanced

theorem text_balancedAll (target : Target) : ∀ cs : List Code,
    (∀ m ∈ mentionsOfAll cs, Plain m.name) → ∀ t ∈ texts target cs, Balanced t
  | [], _ => by simp [texts]
  | c :: cs, plain => by
    rw [mentionsOfAll] at plain
    have first := text_balanced target c fun m h => plain m (by simp [h])
    have rest := text_balancedAll target cs fun m h => plain m (by simp [h])
    rw [texts]
    exact List.forall_mem_cons.mpr ⟨first, rest⟩

end

/-- The text of an atom is atomic. -/
theorem text_atomic (target : Target) {c : Code} (atom : c.isSealed = true)
    (plain : ∀ m ∈ c.mentions, Plain m.name) : Atomic (c.text target) := by
  induction c using isSealed.induct with
  | case1 x =>
    rw [text]
    exact (plain (.var x) (by simp [mentions])).atomic
  | case2 s =>
    rw [text]
    exact s.text_atomic target
  | case3 c =>
    rw [text]
    rw [mentions] at plain
    exact (text_balanced target c plain).parens.atomic
  | case4 fn args =>
    rw [mentions] at plain
    have items := text_balancedAll target args fun m h => plain m (by simp [h])
    have callee : Plain fn := plain (.fn fn) (by simp)
    rw [text]
    have whole := (callee.append (balanced_intercalate items).parens).atomic
    simpa only [String.append_assoc] using whole
  | case5 items =>
    rw [mentions] at plain
    rw [text]
    exact (balanced_intercalate (text_balancedAll target items plain)).squares.atomic
  | case6 b n ih =>
    rw [mentions] at plain
    have base := ih (by simpa [isSealed] using atom) fun m h => plain m (by simp [h])
    have part := plain (.part n) (by simp)
    rw [text]
    exact (base.append (plain_of_all (by decide))).append part
  | case7 b i ih =>
    rw [mentions] at plain
    have base := ih (by simpa [isSealed] using atom) fun m h => plain m (by simp [h])
    have place := text_balanced target i fun m h => plain m (by simp [h])
    rw [text]
    simpa only [String.append_assoc] using base.append place.squares
  | case8 b n ih =>
    rw [mentions] at plain
    have base := ih (by simpa [isSealed] using atom) plain
    rw [text]
    simpa only [String.append_assoc] using base.append (plain_toString n).balanced.squares
  | case9 | case10 | case11 | case12 => simp [isSealed] at atom

end Code
end Ember

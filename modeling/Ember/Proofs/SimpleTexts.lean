import Mathlib
import Ember.Proofs.Names
import Ember.Proofs.Shapes

/-!
# Simple texts

A simple text is a word with projections behind it. The scanner accepts exactly the texts of a
regular expression, and all that reading fields puts behind a text is a projection. So a field of
what can be repeated can be repeated, however the struct is kept.
-/

set_option autoImplicit false

namespace Ember

open scoped Computability

/-! ## The grammar -/

def oneOf (p : Char → Prop) : Language Char := {cs | ∃ c, p c ∧ cs = [c]}

def Letter (c : Char) : Prop := 'A' ≤ c ∧ c ≤ 'Z' ∨ 'a' ≤ c ∧ c ≤ 'z'

def Digit (c : Char) : Prop := '0' ≤ c ∧ c ≤ '9'

def WordStart (c : Char) : Prop := Letter c ∨ c = '_' ∨ c = '$'

def WordChar (c : Char) : Prop := Letter c ∨ Digit c ∨ c = '_' ∨ c = '$'

/-- `\.[A-Za-z0-9_$]+|\[[0-9]+\]` -/
def projection : Language Char :=
  oneOf (· = '.') * (oneOf WordChar * (oneOf WordChar)∗) +
    oneOf (· = '[') * (oneOf Digit * (oneOf Digit)∗) * oneOf (· = ']')

def simpleText : Language Char := oneOf WordStart * (oneOf WordChar)∗ * projection∗

theorem isDigit_iff {c : Char} : c.isDigit = true ↔ Digit c := by
  simp only [Char.isDigit, Bool.and_eq_true, decide_eq_true_eq]
  rfl

theorem isAlpha_iff {c : Char} : c.isAlpha = true ↔ Letter c := by
  simp only [Char.isAlpha, Char.isUpper, Char.isLower, Bool.or_eq_true, Bool.and_eq_true,
    decide_eq_true_eq]
  rfl

theorem isWordStart_iff {c : Char} : isWordStart c = true ↔ WordStart c := by
  simp only [isWordStart, Bool.or_eq_true, beq_iff_eq, isAlpha_iff, or_assoc]
  rfl

theorem isWordChar_iff {c : Char} : isWordChar c = true ↔ WordChar c := by
  simp only [isWordChar, Char.isAlphanum, Bool.or_eq_true, beq_iff_eq, isAlpha_iff, isDigit_iff,
    or_assoc]
  rfl

/-! ## Repetition -/

section Repetition

variable {p : Char → Prop} {cs : List Char}

theorem mem_star : cs ∈ (oneOf p)∗ ↔ ∀ c ∈ cs, p c := by
  rw [Language.mem_kstar]
  constructor
  · rintro ⟨parts, rfl, each⟩ c member
    obtain ⟨part, listed, member⟩ := List.mem_flatten.mp member
    obtain ⟨d, holds, rfl⟩ := each part listed
    obtain rfl : c = d := List.mem_singleton.mp member
    exact holds
  · intro all
    refine ⟨cs.map ([·]), by simp [← List.flatMap_def], fun part listed => ?_⟩
    obtain ⟨c, member, rfl⟩ := List.mem_map.mp listed
    exact ⟨c, all c member, rfl⟩

theorem mem_plus : cs ∈ oneOf p * (oneOf p)∗ ↔ cs ≠ [] ∧ ∀ c ∈ cs, p c := by
  rw [Language.mem_mul]
  constructor
  · rintro ⟨_, ⟨c, holds, rfl⟩, rest, star, rfl⟩
    exact ⟨by simp, List.forall_mem_cons.mpr ⟨holds, mem_star.mp star⟩⟩
  · rintro ⟨some_, all⟩
    cases cs with
    | nil => exact absurd rfl some_
    | cons c cs =>
      obtain ⟨holds, others⟩ := List.forall_mem_cons.mp all
      exact ⟨[c], ⟨c, holds, rfl⟩, cs, mem_star.mpr others, rfl⟩

end Repetition

theorem mem_projection {cs : List Char} : cs ∈ projection ↔
    (∃ word, cs = '.' :: word ∧ word ≠ [] ∧ ∀ c ∈ word, WordChar c) ∨
      ∃ digits, cs = '[' :: digits ++ [']'] ∧ digits ≠ [] ∧ ∀ c ∈ digits, Digit c := by
  rw [projection, Language.mem_add]
  refine or_congr ?_ ?_
  · rw [Language.mem_mul]
    constructor
    · rintro ⟨_, ⟨c, rfl, rfl⟩, word, plus, rfl⟩
      exact ⟨word, rfl, mem_plus.mp plus⟩
    · rintro ⟨word, rfl, plus⟩
      exact ⟨['.'], ⟨'.', rfl, rfl⟩, word, mem_plus.mpr plus, rfl⟩
  · simp only [Language.mem_mul]
    constructor
    · rintro ⟨_, ⟨_, ⟨c, rfl, rfl⟩, digits, plus, rfl⟩, _, ⟨d, rfl, rfl⟩, rfl⟩
      exact ⟨digits, rfl, mem_plus.mp plus⟩
    · rintro ⟨digits, rfl, plus⟩
      exact ⟨'[' :: digits, ⟨['['], ⟨'[', rfl, rfl⟩, digits, mem_plus.mpr plus, rfl⟩, [']'],
        ⟨']', rfl, rfl⟩, rfl⟩

/-! ## The scanner -/

theorem dropWhile_append_stop {α : Type} {p : α → Bool} {xs ys : List α}
    (stop : ∀ c ∈ ys.head?, p c = false) : (xs ++ ys).dropWhile p = xs.dropWhile p ++ ys := by
  have keep : ys.dropWhile p = ys := by
    cases ys with
    | nil => rfl
    | cons y ys => simp [stop y (by simp)]
  rw [List.dropWhile_append]
  split
  · rename_i none
    rw [keep, List.isEmpty_iff.mp none, List.nil_append]
  · rfl

theorem takeWhile_append_stop {α : Type} {p : α → Bool} {xs ys : List α}
    (stop : ∀ c ∈ ys.head?, p c = false) : (xs ++ ys).takeWhile p = xs.takeWhile p := by
  have none : ys.takeWhile p = [] := by
    cases ys with
    | nil => rfl
    | cons y ys => simp [stop y (by simp)]
  rw [List.takeWhile_append]
  split
  · rename_i all
    rw [none, List.append_nil]
    exact ((List.takeWhile_prefix p).eq_of_length all).symm
  · rfl

theorem isProjections_head {cs : List Char} (h : isProjections cs = true) :
    ∀ c ∈ cs.head?, c = '.' ∨ c = '[' := by
  intro c head
  cases cs with
  | nil => simp at head
  | cons d ds =>
    obtain rfl : d = c := by simpa using head
    rw [isProjections] at h
    split at h
    · exact .inl ‹_›
    · split at h
      · exact .inr ‹_›
      · cases h

theorem isProjections_index {cs rest : List Char}
    (closed : cs.dropWhile Char.isDigit = ']' :: rest) :
    isProjections ('[' :: cs) = (!(cs.takeWhile Char.isDigit).isEmpty && isProjections rest) := by
  rw [isProjections, if_neg (by decide), if_pos rfl]
  split
  · rename_i d rest' found
    rw [closed] at found
    cases found
    rfl
  · rename_i none
    rw [closed] at none
    cases none

theorem isProjections_append {xs ys : List Char} (first : isProjections xs = true)
    (second : isProjections ys = true) : isProjections (xs ++ ys) = true := by
  have word : ∀ c ∈ ys.head?, isWordChar c = false := by
    intro c head
    rcases isProjections_head second c head with rfl | rfl <;> rfl
  have digit : ∀ c ∈ ys.head?, c.isDigit = false := by
    intro c head
    rcases isProjections_head second c head with rfl | rfl <;> rfl
  fun_induction isProjections xs with
  | case1 => exact second
  | case2 cs ih =>
    simp only [Bool.and_eq_true] at first
    rw [List.cons_append, isProjections, if_pos rfl, takeWhile_append_stop word,
      dropWhile_append_stop word, first.1, ih first.2]
    rfl
  | case3 cs d rest closed _ ih =>
    simp only [Bool.and_eq_true, beq_iff_eq] at first
    obtain ⟨⟨rfl, some_⟩, others⟩ := first
    have closed' : (cs ++ ys).dropWhile Char.isDigit = ']' :: (rest ++ ys) := by
      rw [dropWhile_append_stop digit, closed, List.cons_append]
    rw [List.cons_append, isProjections_index closed', takeWhile_append_stop digit, some_,
      ih others]
    rfl
  | case4 => cases first
  | case5 => cases first

theorem isSimpleText_append {xs ys : List Char} (simple : isSimpleText xs = true)
    (projections : isProjections ys = true) : isSimpleText (xs ++ ys) = true := by
  have stop : ∀ c ∈ ys.head?, isWordChar c = false := by
    intro c head
    rcases isProjections_head projections c head with rfl | rfl <;> rfl
  cases xs with
  | nil => cases simple
  | cons c cs =>
    rw [isSimpleText, Bool.and_eq_true] at simple
    rw [List.cons_append, isSimpleText, simple.1, ← List.cons_append, dropWhile_append_stop stop,
      isProjections_append simple.2 projections]
    rfl

theorem isProjections_digits {digits : List Char} (some_ : digits ≠ [])
    (all : ∀ c ∈ digits, c.isDigit = true) : isProjections ('[' :: digits ++ [']']) = true := by
  have closed : (digits ++ [']']).dropWhile Char.isDigit = [']'] := by
    rw [dropWhile_append_stop (by simp), List.dropWhile_eq_nil_iff.mpr all, List.nil_append]
  rw [List.cons_append, isProjections_index closed, takeWhile_append_stop (by simp),
    List.takeWhile_eq_self_iff.mpr all, isProjections]
  simpa using some_

theorem isProjections_word {word : List Char} (some_ : word ≠ [])
    (all : ∀ c ∈ word, isWordChar c = true) : isProjections ('.' :: word) = true := by
  rw [isProjections, if_pos rfl, List.takeWhile_eq_self_iff.mpr all,
    List.dropWhile_eq_nil_iff.mpr all, isProjections]
  simpa using some_

theorem isProjections_of_mem {cs : List Char} (member : cs ∈ projection) :
    isProjections cs = true := by
  rcases mem_projection.mp member with ⟨word, rfl, some_, all⟩ | ⟨digits, rfl, some_, all⟩
  · exact isProjections_word some_ fun c part => isWordChar_iff.mpr (all c part)
  · exact isProjections_digits some_ fun c part => isDigit_iff.mpr (all c part)

theorem isProjections_iff {cs : List Char} : isProjections cs = true ↔ cs ∈ projection∗ := by
  have more {front rest : List Char} (first : front ∈ projection) (others : rest ∈ projection∗) :
      front ++ rest ∈ projection∗ := by
    obtain ⟨parts, rfl, each⟩ := Language.mem_kstar.mp others
    exact Language.mem_kstar.mpr ⟨front :: parts, rfl, List.forall_mem_cons.mpr ⟨first, each⟩⟩
  constructor
  · intro holds
    fun_induction isProjections cs with
    | case1 => exact Language.nil_mem_kstar _
    | case2 cs ih =>
      simp only [Bool.and_eq_true, Bool.not_eq_true', List.isEmpty_eq_false_iff] at holds
      have word : '.' :: cs.takeWhile isWordChar ∈ projection := mem_projection.mpr <| .inl
        ⟨_, rfl, holds.1, fun c part => isWordChar_iff.mp (List.mem_takeWhile_imp part)⟩
      have whole := more word (ih holds.2)
      rwa [List.cons_append, List.takeWhile_append_dropWhile] at whole
    | case3 cs d rest closed _ ih =>
      simp only [Bool.and_eq_true, beq_iff_eq, Bool.not_eq_true',
        List.isEmpty_eq_false_iff] at holds
      obtain ⟨⟨rfl, some_⟩, others⟩ := holds
      have number : '[' :: cs.takeWhile Char.isDigit ++ [']'] ∈ projection :=
        mem_projection.mpr <| .inr
          ⟨_, rfl, some_, fun c part => isDigit_iff.mp (List.mem_takeWhile_imp part)⟩
      have whole := more number (ih others)
      have split_ : '[' :: cs.takeWhile Char.isDigit ++ [']'] ++ rest = '[' :: cs := by
        rw [List.append_assoc, List.singleton_append, ← closed, List.cons_append,
          List.takeWhile_append_dropWhile]
      rwa [split_] at whole
    | case4 => cases holds
    | case5 => cases holds
  · intro member
    obtain ⟨parts, rfl, each⟩ := Language.mem_kstar.mp member
    induction parts with
    | nil => rw [List.flatten_nil, isProjections]
    | cons part parts ih =>
      obtain ⟨first, others⟩ := List.forall_mem_cons.mp each
      exact isProjections_append (isProjections_of_mem first)
        (ih others (Language.mem_kstar.mpr ⟨parts, rfl, others⟩))

theorem isWordChar_of_isWordStart {c : Char} (start : isWordStart c = true) :
    isWordChar c = true := by
  rw [isWordStart_iff] at start
  exact isWordChar_iff.mpr (start.imp_right .inr)

/-- The scanner accepts the texts of the grammar, and no others. -/
theorem isSimpleText_iff {cs : List Char} : isSimpleText cs = true ↔ cs ∈ simpleText := by
  simp only [simpleText, Language.mem_mul]
  constructor
  · intro holds
    cases cs with
    | nil => cases holds
    | cons c cs =>
      rw [isSimpleText, Bool.and_eq_true] at holds
      obtain ⟨start, others⟩ := holds
      rw [List.dropWhile_cons_of_pos (isWordChar_of_isWordStart start)] at others
      have word : cs.takeWhile isWordChar ∈ (oneOf WordChar)∗ :=
        mem_star.mpr fun d part => isWordChar_iff.mp (List.mem_takeWhile_imp part)
      refine ⟨c :: cs.takeWhile isWordChar, ⟨[c], ⟨c, isWordStart_iff.mp start, rfl⟩, _, word, rfl⟩,
        _, isProjections_iff.mp others, ?_⟩
      rw [List.cons_append, List.takeWhile_append_dropWhile]
  · rintro ⟨_, ⟨_, ⟨c, start, rfl⟩, word, star, rfl⟩, others, projections, rfl⟩
    have start := isWordStart_iff.mpr start
    have all : ∀ d ∈ c :: word, isWordChar d = true := List.forall_mem_cons.mpr
      ⟨isWordChar_of_isWordStart start, fun d part => isWordChar_iff.mpr (mem_star.mp star d part)⟩
    refine isSimpleText_append ?_ (isProjections_iff.mpr projections)
    rw [List.singleton_append, isSimpleText, start, List.dropWhile_eq_nil_iff.mpr all,
      isProjections]
    rfl

/-! ## Fields -/

/-- A number in brackets is a projection. -/
theorem Code.slot_simple {target : Target} {c : Code} (n : Nat)
    (simple : isSimpleText (c.text target).toList = true) :
    isSimpleText ((Code.slot c n).text target).toList = true := by
  have text : (Code.slot c n).text target = c.text target ++ ("[" ++ toString n ++ "]") := by
    rw [Code.text, String.append_assoc, String.append_assoc, String.append_assoc]
  rw [text, String.toList_append]
  refine isSimpleText_append simple ?_
  simpa using isProjections_digits (Text.toString_ne_nil n) fun _ => Text.isDigit_of_mem_toString

/-- Behind a dot, a word is a projection. -/
theorem Code.member_simple {target : Target} {c : Code} {word : String}
    (simple : isSimpleText (c.text target).toList = true) (some_ : word.toList ≠ [])
    (all : ∀ d ∈ word.toList, isWordChar d = true) :
    isSimpleText ((Code.member c word).text target).toList = true := by
  have text : (Code.member c word).text target = c.text target ++ ("." ++ word) := by
    rw [Code.text, String.append_assoc]
  rw [text, String.toList_append]
  refine isSimpleText_append simple ?_
  simpa using isProjections_word some_ all

/-- What is one vector has components. -/
theorem Known.Grounded.vector_pos {K : Known} (grounded : K.Grounded) {t : Ty} {k : ScalarKind}
    {w : Nat} (valid : t.Over K) (stored : t.storage .glsl = .vector k w) : 0 < w := by
  induction t using Ty.induct generalizing k w with
  | scalar _ =>
    cases stored
    exact Nat.one_pos
  | struct s ih =>
    obtain ⟨_, ws, vectors, rfl, width⟩ := grounded.vectors_of_storage valid stored
    rcases width with one | several
    · have only : Storage.vector k ws.sum ∈
          (Field.kept s.fields).map fun f => f.ty.storage .glsl := by
        rw [vectors, one]
        simp
      obtain ⟨f, member, own⟩ := List.mem_map.mp only
      have member := List.mem_of_mem_filter member
      exact ih f member (grounded.fields s valid f member) own
    · omega
  | array of len _ => cases stored
  | alt first others ih _ => exact ih valid.1 stored

/-- The letters at the places of fields name one to four components. -/
theorem Known.Grounded.accessor_form {K : Known} (grounded : K.Grounded) {s : Struct}
    (known : K s) {target : Target} {a : Accessor} (member : a ∈ (s.layout target).accessors) :
    a = .zero ∨ a = .identity ∨
      (∃ offset width, 0 < width ∧ offset + width ≤ 4 ∧
        a = .swizzle (Layout.letters offset width)) ∨ (∃ i, a = .column i) ∨ ∃ i, a = .slot i := by
  obtain ⟨as, accessors, way⟩ := Layout.ofFields_way ((grounded.laid s known).layoutOf target)
  rw [accessors] at member
  refine (Layout.mem_place member).imp_right fun listed => ?_
  rw [grounded.stored_eq (grounded.fields s known)] at way
  generalize kept : (Field.kept s.fields).map (fun f => f.ty.storage target) = stored at way
  generalize s.layout target = l at way
  cases way with
  | void => cases listed
  | transparent => exact .inl (by simpa using listed)
  | vectorMerge glsl _ k ws _ width =>
    obtain ⟨offset, w, part, rfl, inside⟩ := Layout.mem_swizzles listed
    have vector : Storage.vector k w ∈ (Field.kept s.fields).map fun f => f.ty.storage target :=
      kept ▸ List.mem_map_of_mem part
    obtain ⟨f, member, own⟩ := List.mem_map.mp vector
    have valid := grounded.fields s known f (List.mem_of_mem_filter member)
    exact .inr (.inl ⟨offset, w, grounded.vector_pos valid (glsl ▸ own), by omega, rfl⟩)
  | matrix =>
    obtain ⟨i, _, rfl⟩ := List.mem_map.mp listed
    exact .inr (.inr (.inl ⟨i, rfl⟩))
  | struct =>
    obtain ⟨i, _, rfl⟩ := List.mem_map.mp listed
    exact .inr (.inr (.inr ⟨i, rfl⟩))

theorem Layout.letters_word {offset width : Nat} (some_ : 0 < width) (inside : offset + width ≤ 4) :
    (letters offset width).toList ≠ [] ∧
      ∀ c ∈ (letters offset width).toList, isWordChar c = true := by
  rw [letters, String.toList_ofList]
  refine ⟨?_, fun c member => ?_⟩
  · rw [← List.length_pos_iff, List.length_take, List.length_drop, List.length_cons]
    simp only [List.length_cons, List.length_nil]
    omega
  · have listed := List.mem_of_mem_drop (List.mem_of_mem_take member)
    simp only [List.mem_cons, List.not_mem_nil, or_false] at listed
    rcases listed with rfl | rfl | rfl | rfl <;> decide

/-- A field of what can be repeated can be repeated. -/
theorem Value.field_simple {K : Known} (grounded : K.Grounded) {target : Target} {v u : Value}
    {s : Struct} {i : Nat} {f : Field} (struct : v.ty.struct? = some s) (known : K s)
    (place : s.fields[i]? = some f) (simple : v.isSimple target = true)
    (run : v.field target i = .ok u) : u.ty = f.ty ∧ u.isSimple target = true := by
  unfold Value.field at run
  simp only [struct, place] at run
  cases payload : v.payload with
  | const c =>
    rw [payload] at run
    obtain ⟨items, _, run⟩ := ok_of_bind run
    split at run
    · cases run
      exact ⟨rfl, rfl⟩
    · cases run
  | code c =>
    rw [payload] at run
    dsimp only at run
    have text : isSimpleText (c.text target).toList = true := by
      simpa [isSimple, payload] using simple
    split at run
    · cases run
      exact ⟨rfl, rfl⟩
    rename_i stored
    cases run
    refine ⟨rfl, ?_⟩
    have member : (s.layout target).accessors.getD i .zero ∈ (s.layout target).accessors := by
      rw [List.getD_eq_getElem?_getD] at stored ⊢
      cases found : (s.layout target).accessors[i]? with
      | none => exact absurd (by rw [found]; rfl) stored
      | some a => exact List.mem_of_getElem? found
    change isSimpleText _ = true
    rcases grounded.accessor_form known member with zero | identity | ⟨offset, width, some_,
      inside, letters⟩ | ⟨j, column⟩ | ⟨j, slot⟩
    · exact absurd zero stored
    · rw [identity]
      exact text
    · obtain ⟨word, all⟩ := Layout.letters_word some_ inside
      rw [letters]
      exact Code.member_simple text word all
    · rw [column]
      exact Code.slot_simple _ text
    · rw [slot]
      cases target with
      | js => exact Code.slot_simple _ text
      | glsl =>
        refine Code.member_simple text (by simp) fun d part => ?_
        rw [String.toList_append] at part
        rcases List.mem_append.mp part with first | digit
        · rw [List.mem_singleton.mp first]
          rfl
        · simp [isWordChar, Char.isAlphanum, Text.isDigit_of_mem_toString digit]

/-- A text is simple exactly if the grammar has it. Reading a field puts only projections behind a
text: whatever the type, the text of a field is simple if that of the value is. -/
theorem isSimpleText_exact : (∀ cs : List Char, isSimpleText cs = true ↔ cs ∈ simpleText) ∧
    ∀ (target : Target) (ty : Ty) (c : Code) (assignable : Bool) (i : Nat) (u : Value), ty.Formed →
      isSimpleText (c.text target).toList = true →
      Value.field target ⟨.code c, ty, assignable⟩ i = .ok u → u.isSimple target = true := by
  refine ⟨fun _ => isSimpleText_iff, fun target ty c assignable i u formed simple run => ?_⟩
  obtain ⟨s, f, struct, place, known⟩ : ∃ s f, ty.struct? = some s ∧ s.fields[i]? = some f ∧
      Known.formed s := by
    unfold Value.field at run
    dsimp only at run
    split at run
    · cases run
    rename_i s struct
    split at run
    · cases run
    rename_i f place
    refine ⟨s, f, struct, place, ?_⟩
    have valid := formed.valid
    cases ty with
    | scalar => cases struct
    | array => cases struct
    | struct => exact Option.some.inj struct ▸ valid
    | alt => exact Option.some.inj struct ▸ valid.1
  exact (Value.field_simple (v := ⟨.code c, ty, assignable⟩) Ty.Formed.grounded struct known
    place simple run).2

/-- Of a vector of two numbers, `v.y` and `v[1]` are simple. -/
theorem isSimpleText_exact_vector : ∃ s : Struct,
    Struct.declareGroup [⟨"vec", [⟨"x", .scalar .float⟩, ⟨"y", .scalar .float⟩]⟩] false ⟨1⟩ =
      .ok [s] ⟨3⟩ ∧
    ∀ p ∈ [(Target.glsl, "v.y"), (Target.js, "v[1]")],
      ∃ u, Value.field p.1 ⟨.code (.name "v"), .struct s, false⟩ 1 = .ok u ∧
        u.code?.map (Code.text p.1) = some p.2 ∧ u.isSimple p.1 = true := by
  obtain ⟨s, declared⟩ : ∃ s,
      Struct.declareGroup [⟨"vec", [⟨"x", .scalar .float⟩, ⟨"y", .scalar .float⟩]⟩] false ⟨1⟩ =
        .ok [s] ⟨3⟩ := ⟨_, rfl⟩
  have formed : (Ty.struct s).Formed := .struct (by
    simp only [List.mem_cons, List.not_mem_nil, or_false, forall_eq, forall_eq_or_imp]
    exact ⟨.scalar _, .scalar _⟩) declared (by simp)
  cases declared
  refine ⟨_, rfl, ?_⟩
  simp only [List.mem_cons, List.not_mem_nil, or_false, forall_eq, forall_eq_or_imp]
  refine ⟨⟨_, rfl, by decide +kernel, ?_⟩, ⟨_, rfl, by decide +kernel, ?_⟩⟩
  · exact isSimpleText_exact.2 .glsl _ (.name "v") false 1 _ formed (by decide +kernel) rfl
  · exact isSimpleText_exact.2 .js _ (.name "v") false 1 _ formed (by decide +kernel) rfl

end Ember

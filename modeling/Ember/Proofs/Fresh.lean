import Mathlib.Data.List.DropRight
import Ember.Proofs.Names

/-!
# Fresh names

Stems are free, and different stems may become the same one. What keeps names apart is the number
at their end. Before it stands `_` or `t`, never a digit, so it can be read off the name, and no
number is given twice.
-/

set_option autoImplicit false

namespace Ember.Ids

inductive Request where
  | number
  | temp
  | fresh (stem : String)

def answer (ids : Ids) : Request → Option String × Ids
  | .number => (none, ids.number.2)
  | .temp => (some ids.temp.1, ids.temp.2)
  | .fresh s => (some (ids.fresh s).1, (ids.fresh s).2)

def names : Ids → List Request → List String
  | _, [] => []
  | ids, r :: rs => (ids.answer r).1.toList ++ names (ids.answer r).2 rs

def ending (x : String) : List Char := x.toList.rtakeWhile Char.isDigit

theorem rtakeWhile_append_cons {α : Type} {p : α → Bool} {front back : List α} {c : α}
    (stop : p c = false) (all : ∀ d ∈ back, p d = true) :
    (front ++ c :: back).rtakeWhile p = back := by
  have back' : back.reverse.takeWhile p = back.reverse :=
    List.takeWhile_eq_self_iff.mpr fun d member => all d (List.mem_reverse.mp member)
  simp [List.rtakeWhile, List.takeWhile_append, back', stop]

/-- One step: the name ends in the number that was due, and the next number is due then. -/
theorem answer_spec (ids : Ids) (r : Request) : (ids.answer r).2.next = ids.next + 1 ∧
    ∀ x ∈ (ids.answer r).1, Coined x ∧ ending x = (toString ids.next).toList := by
  have digits : ∀ c ∈ (toString ids.next).toList, c.isDigit = true :=
    fun _ => Text.isDigit_of_mem_toString
  cases r with
  | number => exact ⟨rfl, by simp [answer]⟩
  | temp =>
    refine ⟨rfl, ?_⟩
    rintro _ ⟨⟩
    refine ⟨coined_temp ids, ?_⟩
    have text : ids.temp.1.toList = ['_'] ++ 't' :: (toString ids.next).toList := by simp [temp]
    rw [ending, text, rtakeWhile_append_cons (by decide) digits]
  | fresh s =>
    refine ⟨rfl, ?_⟩
    rintro _ ⟨⟩
    refine ⟨coined_fresh ids s, ?_⟩
    have text : (ids.fresh s).1.toList = stem s ++ '_' :: (toString ids.next).toList := by
      simp [fresh]
    rw [ending, text, rtakeWhile_append_cons (by decide) digits]

/-- A run: its names are coined, and their numbers are those from the first one due on. -/
theorem names_spec {ids : Ids} {rs : List Request} {x : String} (member : x ∈ ids.names rs) :
    Coined x ∧ ∃ n, ids.next ≤ n ∧ n < ids.next + rs.length ∧ ending x = (toString n).toList := by
  induction rs generalizing ids with
  | nil => simp [names] at member
  | cons r rs ih =>
    obtain ⟨next, named⟩ := ids.answer_spec r
    rw [names, List.mem_append] at member
    rw [List.length_cons]
    rcases member with first | later
    · obtain ⟨coined, ends⟩ := named x (by simpa using first)
      exact ⟨coined, ids.next, le_rfl, by omega, ends⟩
    · obtain ⟨coined, n, low, high, ends⟩ := ih later
      exact ⟨coined, n, by omega, by omega, ends⟩

theorem names_nodup (ids : Ids) (rs : List Request) : (ids.names rs).Nodup := by
  induction rs generalizing ids with
  | nil => exact .nil
  | cons r rs ih =>
    obtain ⟨next, named⟩ := ids.answer_spec r
    refine List.nodup_append.mpr ⟨?_, ih _, ?_⟩
    · cases (ids.answer r).1 <;> simp
    · -- A name and a later one end in different numbers.
      rintro x first _ later rfl
      obtain ⟨_, ends⟩ := named x (by simpa using first)
      obtain ⟨_, n, low, _, ends'⟩ := names_spec later
      have same : toString ids.next = toString n := String.toList_inj.mp (ends.symm.trans ends')
      have equal : ids.next = n := Nat.repr_inj.mp same
      omega

theorem stem_head (s : String) : ∃ c cs, stem s = c :: cs ∧ c.isDigit = false := by
  unfold stem
  dsimp only
  split
  · exact ⟨_, _, rfl, by decide⟩
  · rename_i c cs chars
    split
    · exact ⟨_, _, rfl, by decide⟩
    · exact ⟨c, cs, chars, by simpa using ‹¬ c.isDigit = true›⟩

theorem Coined.head {x : String} (h : Coined x) :
    ∃ c cs, x.toList = c :: cs ∧ c.isDigit = false := by
  obtain ⟨ids, rfl | ⟨s, rfl⟩⟩ := h
  · exact ⟨'_', 't' :: (toString ids.next).toList, by simp [temp], by decide⟩
  · obtain ⟨c, cs, start, digit⟩ := stem_head s
    exact ⟨c, cs ++ '_' :: (toString ids.next).toList, by simp [fresh, start], digit⟩

/-- Whatever is asked for, the names are distinct, and none is the name of a struct. They are made
of letters, digits and `_`, and do not start with a digit. The numbers in them are at most as many
as the requests were, so 32 bits are enough for fewer than `2 ^ 32` of them. -/
theorem names_distinct (rs : List Request) :
    (names {} rs).Nodup ∧ ∀ x ∈ names {} rs,
      (∀ id, x ≠ Storage.structName id) ∧
      (∀ c ∈ x.toList, c.isAlpha = true ∨ c.isDigit = true ∨ c = '_') ∧
      (∃ c cs, x.toList = c :: cs ∧ c.isDigit = false) ∧
      ∃ n, 1 ≤ n ∧ n ≤ rs.length ∧ ending x = (toString n).toList := by
  refine ⟨names_nodup {} rs, fun x member => ?_⟩
  obtain ⟨coined, n, low, high, ends⟩ := names_spec member
  refine ⟨?_, fun c part => ?_, coined.head, n, low, ?_, ends⟩
  · rintro id rfl
    exact Storage.not_coined_glslName (.struct id) coined
  · have named := coined.isNameChar part
    simpa [isNameChar, Char.isAlphanum, or_assoc] using named
  · change n < 1 + rs.length at high
    omega

/-- Stems that look like names that were given, or like nothing, make new names. -/
theorem names_distinct_lookalikes :
    names {} [.fresh "a", .fresh "a_1", .temp, .number, .fresh "_t3", .fresh ":", .fresh "1"] =
      ["a_1", "a_1_2", "_t3", "_t3_5", "__6", "_1_7"] ∧
    ["a_1", "a_1_2", "_t3", "_t3_5", "__6", "_1_7"].Nodup ∧ "_t3_5" ≠ Storage.structName 5 := by
  have run : names {} [.fresh "a", .fresh "a_1", .temp, .number, .fresh "_t3", .fresh ":",
      .fresh "1"] = ["a_1", "a_1_2", "_t3", "_t3_5", "__6", "_1_7"] := by decide +kernel
  obtain ⟨distinct, each⟩ := names_distinct
    [.fresh "a", .fresh "a_1", .temp, .number, .fresh "_t3", .fresh ":", .fresh "1"]
  rw [run] at distinct each
  exact ⟨run, distinct, (each "_t3_5" (by decide)).1 5⟩

end Ember.Ids

import Mathlib
import Ember.Lexeme
import Ember.Source

/-!
# What a lexeme reads

The longest match is the match of one rule, and no class has two rules. So the class of a lexeme
says what its text is: blanks are blank, a comment goes to the end of its line, a fixed token is
spelled as its kind is.
-/

set_option autoImplicit false

namespace Ember

@[simp]
theorem byteLength_nil : byteLength [] = 0 := rfl

@[simp]
theorem byteLength_cons (c : Char) (cs : List Char) :
    byteLength (c :: cs) = c.utf8Size + byteLength cs := rfl

@[simp]
theorem byteLength_append (as bs : List Char) :
    byteLength (as ++ bs) = byteLength as + byteLength bs := by
  induction as with
  | nil => simp
  | cons c as ih =>
    rw [List.cons_append, byteLength_cons, byteLength_cons, ih]
    omega

theorem byteLength_pos {cs : List Char} (some_ : cs ≠ []) : 0 < byteLength cs := by
  cases cs with
  | nil => exact absurd rfl some_
  | cons c cs =>
    have := c.utf8Size_pos
    rw [byteLength_cons]
    omega

theorem takeBytes_append (as bs : List Char) : takeBytes (byteLength as) (as ++ bs) = some as := by
  induction as with
  | nil => simp [takeBytes]
  | cons c as ih =>
    have size := c.utf8Size_pos
    obtain ⟨n, hn⟩ : ∃ n, byteLength (c :: as) = n + 1 := ⟨c.utf8Size + byteLength as - 1, by
      rw [byteLength_cons]
      omega⟩
    have rest : n + 1 - c.utf8Size = byteLength as := by
      rw [byteLength_cons] at hn
      omega
    rw [hn, List.cons_append, takeBytes, if_pos (by rw [byteLength_cons] at hn; omega), rest, ih]
    rfl

theorem dropBytes_append (as bs : List Char) : dropBytes (byteLength as) (as ++ bs) = some bs := by
  induction as with
  | nil => simp [dropBytes]
  | cons c as ih =>
    have size := c.utf8Size_pos
    obtain ⟨n, hn⟩ : ∃ n, byteLength (c :: as) = n + 1 := ⟨c.utf8Size + byteLength as - 1, by
      rw [byteLength_cons]
      omega⟩
    have rest : n + 1 - c.utf8Size = byteLength as := by
      rw [byteLength_cons] at hn
      omega
    rw [hn, List.cons_append, dropBytes, if_pos (by rw [byteLength_cons] at hn; omega), rest, ih]

/-- The bytes of a part of a text are the characters of that part. -/
theorem sliceBytes_append (as bs cs : List Char) :
    sliceBytes (as ++ bs ++ cs) (byteLength as) (byteLength (as ++ bs)) = some bs := by
  have size : byteLength (as ++ bs) - byteLength as = byteLength bs := by
    rw [byteLength_append]
    omega
  rw [sliceBytes, if_pos (by simp), List.append_assoc, dropBytes_append, size]
  exact takeBytes_append bs cs

namespace Lexeme

def measure : Lexeme → List Char → Nat
  | .blank => run isBlank
  | .comment => comment?
  | .word => word?
  | .builtin => signed? '@'
  | .colonWord => signed? ':'
  | .label => signed? '\''
  | .param => signed? '$'
  | .bareSign => bareSign?
  | .hex => hex?
  | .int => run Char.isDigit
  | .float => float?
  | .str => str?
  | .openStr => openStr?
  | .marker => fixed? ['`']
  | .fixed kind => fixed? kind.text.toList

theorem measure_of_mem_rules : ∀ rule ∈ rules, rule.2 = rule.1.measure := by
  simp [rules, measure]

theorem mem_fixedKinds_of_mem_rules {rule : Lexeme × (List Char → Nat)} (member : rule ∈ rules)
    {kind : TokenKind} (fixed : rule.1 = .fixed kind) : kind ∈ fixedKinds := by
  rcases List.mem_append.mp member with named | spelled
  · simp only [List.mem_cons, List.not_mem_nil, or_false] at named
    rcases named with rfl | rfl | rfl | rfl | rfl | rfl | rfl | rfl | rfl | rfl | rfl | rfl | rfl |
      rfl <;> cases fixed
  · obtain ⟨k, listed, rfl⟩ := List.mem_map.mp spelled
    cases fixed
    exact listed

/-- The longest match is the one to start with, or a match of one of the rules. -/
theorem foldl_longer (cs : List Char) (rs : List (Lexeme × (List Char → Nat)))
    (best : Option Lexeme × Nat) :
    let found := rs.foldl (fun best rule => longer best (some rule.1, rule.2 cs)) best
    found = best ∨ ∃ rule ∈ rs, found = (some rule.1, rule.2 cs) ∧ 0 < rule.2 cs := by
  induction rs generalizing best with
  | nil => exact .inl rfl
  | cons rule rs ih =>
    rw [List.foldl_cons]
    rcases ih (longer best (some rule.1, rule.2 cs)) with same | ⟨later, member, found⟩
    · by_cases less : best.2 < rule.2 cs
      · refine .inr ⟨rule, by simp, ?_, by omega⟩
        rw [same, longer, if_pos less]
      · refine .inl ?_
        rw [same, longer, if_neg less]
    · exact .inr ⟨later, by simp [member], found⟩

/-- A lexeme is as long as the match of its class. -/
theorem longest_some {cs : List Char} {l : Lexeme} {n : Nat} (found : longest cs = (some l, n)) :
    l.measure cs = n ∧ 0 < n ∧ ∀ kind, l = .fixed kind → kind ∈ fixedKinds := by
  rcases foldl_longer cs rules (none, 0) with none_ | ⟨rule, member, some_, positive⟩
  · rw [longest, none_] at found
    cases found
  · rw [longest, some_] at found
    cases found
    refine ⟨?_, positive, fun kind fixed => mem_fixedKinds_of_mem_rules member fixed⟩
    rw [measure_of_mem_rules rule member]

theorem take_run (p : Char → Bool) (cs : List Char) : cs.take (run p cs) = cs.takeWhile p :=
  (List.prefix_iff_eq_take.mp (List.takeWhile_prefix p)).symm

theorem drop_run (p : Char → Bool) (cs : List Char) : cs.drop (run p cs) = cs.dropWhile p := by
  have whole : cs.takeWhile p ++ cs.drop (run p cs) = cs.takeWhile p ++ cs.dropWhile p := by
    rw [List.takeWhile_append_dropWhile, ← take_run, List.take_append_drop]
  exact List.append_cancel_left whole

theorem blank_text (cs : List Char) : ∀ c ∈ cs.take (measure .blank cs), isBlank c = true := by
  intro c member
  rw [measure, take_run] at member
  exact List.mem_takeWhile_imp member

/-- A comment goes from two slashes to the end of the line. -/
theorem comment_text {cs : List Char} (positive : 0 < measure .comment cs) :
    ∃ body, cs.take (measure .comment cs) = '/' :: '/' :: body ∧ '\n' ∉ body ∧
      ∀ c ∈ (cs.drop (measure .comment cs)).head?, c = '\n' := by
  rw [measure] at positive ⊢
  unfold comment? at positive ⊢
  split at positive
  · rename_i rest
    rw [Nat.add_comm, List.take_succ_cons, List.take_succ_cons, List.drop_succ_cons,
      List.drop_succ_cons, take_run, drop_run]
    refine ⟨rest.takeWhile (· != '\n'), rfl, fun member => ?_, fun c first => ?_⟩
    · have := List.mem_takeWhile_imp member
      simp at this
    · have stops := List.head?_dropWhile_not (· != '\n') rest
      rw [Option.mem_def.mp first] at stops
      simpa using stops
  · omega

theorem fixed_text {spelling cs : List Char} (positive : 0 < fixed? spelling cs) :
    cs.take (fixed? spelling cs) = spelling := by
  unfold fixed? at positive ⊢
  split at positive
  · rename_i starts
    rw [if_pos starts]
    exact (List.prefix_iff_eq_take.mp (List.isPrefixOf_iff_prefix.mp starts)).symm
  · omega

/-- A word joined to a sign is longer than the sign. -/
theorem signed_text {sign : Char} {cs : List Char} (positive : 0 < signed? sign cs) :
    ∃ word, word ≠ [] ∧ cs.take (signed? sign cs) = sign :: word := by
  cases cs with
  | nil => simp [signed?] at positive
  | cons c cs =>
    by_cases starts : c = sign ∧ word? cs ≠ 0
    · obtain ⟨rfl, some_⟩ := starts
      have size : signed? c (c :: cs) = word? cs + 1 := by
        simp [signed?, some_, Nat.add_comm]
      refine ⟨cs.take (word? cs), ?_, by rw [size, List.take_succ_cons]⟩
      intro nothing
      rcases List.take_eq_nil_iff.mp nothing with zero | rfl
      · exact some_ zero
      · exact some_ rfl
    · simp [signed?, starts] at positive

end Lexeme
end Ember

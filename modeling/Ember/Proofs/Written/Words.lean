import Ember.Proofs.Lexemes

/-!
# Which lexeme comes next

The longest match is found from its rivals: the class that matches more than every other class wins.
Most rivals fail at the first character.
-/

set_option autoImplicit false

namespace Ember.Lexeme

theorem le_foldl_longer (cs : List Char) (rs : List (Lexeme × (List Char → Nat)))
    (best : Option Lexeme × Nat) :
    let found := rs.foldl (fun best rule => longer best (some rule.1, rule.2 cs)) best
    best.2 ≤ found.2 ∧ ∀ rule ∈ rs, rule.2 cs ≤ found.2 := by
  induction rs generalizing best with
  | nil => simp
  | cons rule rs ih =>
    rw [List.foldl_cons]
    obtain ⟨before, later⟩ := ih (longer best (some rule.1, rule.2 cs))
    have here : best.2 ≤ (longer best (some rule.1, rule.2 cs)).2 ∧
        rule.2 cs ≤ (longer best (some rule.1, rule.2 cs)).2 := by
      unfold longer
      split
      · rename_i less
        exact ⟨less.le, le_rfl⟩
      · rename_i more
        exact ⟨le_rfl, not_lt.mp more⟩
    refine ⟨here.1.trans before, fun other member => ?_⟩
    rcases List.mem_cons.mp member with rfl | member
    · exact here.2.trans before
    · exact later other member

/-- The class that matches more than all others is the longest match. -/
theorem longest_eq {l : Lexeme} {cs : List Char} (listed : (l, l.measure) ∈ rules)
    (positive : 0 < l.measure cs)
    (best : ∀ m : Lexeme, m ≠ l → (∀ kind, m = .fixed kind → kind ∈ fixedKinds) →
      m.measure cs < l.measure cs) : longest cs = (some l, l.measure cs) := by
  have least : l.measure cs ≤ (longest cs).2 := (le_foldl_longer cs rules (none, 0)).2 _ listed
  rcases foldl_longer cs rules (none, 0) with nothing | ⟨rule, member, found, _⟩
  · have zero : (longest cs).2 = 0 := congrArg Prod.snd nothing
    omega
  · have found : longest cs = (some rule.1, rule.1.measure cs) := by
      rw [← measure_of_mem_rules rule member]
      exact found
    by_cases same : rule.1 = l
    · rw [found, same]
    · have less := best rule.1 same fun kind fixed => mem_fixedKinds_of_mem_rules member fixed
      rw [found] at least
      exact absurd less (not_lt.mpr least)

/-! ## First characters -/

def starts (c : Char) : Lexeme → Bool
  | .blank => isBlank c
  | .comment => c == '/'
  | .word => isWordStart c
  | .builtin => c == '@'
  | .colonWord => c == ':'
  | .label => c == '\''
  | .param => c == '$'
  | .bareSign => c == '@' || c == '\'' || c == '$'
  | .hex | .int | .float => c.isDigit
  | .str | .openStr => c == '"'
  | .marker => c == '`'
  | .fixed kind => kind.text.toList.head? == some c

theorem measure_eq_zero {m : Lexeme} {c : Char} {cs : List Char} (no : m.starts c = false) :
    m.measure (c :: cs) = 0 := by
  cases m with
  | blank => simp_all [starts, measure, run]
  | comment =>
    have : c ≠ '/' := by simpa [starts] using no
    simp only [measure]
    unfold comment?
    split
    · simp_all
    · rfl
  | word => simp_all [starts, measure, word?]
  | builtin => simp_all [starts, measure, signed?]
  | colonWord => simp_all [starts, measure, signed?]
  | label => simp_all [starts, measure, signed?]
  | param => simp_all [starts, measure, signed?]
  | bareSign => simp_all [starts, measure, bareSign?]
  | hex =>
    simp only [measure]
    unfold hex?
    split
    · rename_i x rest found
      cases found
      simp [starts] at no
    · rfl
  | int => simp_all [starts, measure, run]
  | float => simp_all [starts, measure, float?, run]
  | str =>
    simp only [measure]
    unfold str?
    split
    · simp_all [starts]
    · rfl
  | openStr =>
    simp only [measure]
    unfold openStr?
    split
    · simp_all [starts]
    · rfl
  | marker =>
    have differs : ¬ '`' = c := fun same => by simp [starts, ← same] at no
    simp [measure, fixed?, differs]
  | fixed kind =>
    simp only [measure, fixed?]
    split
    · rename_i found
      cases text : kind.text.toList with
      | nil => rfl
      | cons d ds => simp_all [starts]
    · rfl

end Ember.Lexeme

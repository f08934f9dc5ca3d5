import Ember.Proofs.Placeholders.Rules

/-!
# Loops over what is left

A loop of the grammar runs once for each node that is left. Each round finds nothing or reads a
node, so rounds beyond the number of nodes change nothing.
-/

set_option autoImplicit false

namespace Ember

variable {α β γ : Type}

def Advances (p : Parser α) : Prop :=
  ∀ s, s.issues.size ≤ (p s).2.issues.size ∧ (p s).2.rest.length ≤ s.rest.length

theorem Pays.advances {debt : Nat} {p : Parser α} {w : α → Nat} (h : Pays debt p w) : Advances p :=
  fun s => ⟨(h s).grows, (h s).rest.length_le⟩

theorem Reads.advances {debt k : Nat} {p : Parser α} {w : α → Nat} (h : Reads debt k p w) :
    Advances p := h.pays.advances

namespace Parser

theorem run_bind (p : Parser α) (f : α → Parser γ) (s : Stream) :
    (p >>= f) s = f (p s).1 (p s).2 := rfl

theorem look_bind (f : Stream → α) (q : α → Parser γ) (s : Stream) :
    (look f >>= q) s = q (f s) s := rfl

def Takes (p : Parser (Option α)) : Prop :=
  ∀ s, (p s).2.rest.length < s.rest.length ∨
    (p s).1 = none ∧ (p s).2.rest.length ≤ s.rest.length

theorem acceptAny_takes (set : TokenKind → Bool) : Takes (acceptAny set) := by
  intro s
  unfold acceptAny
  split
  · rename_i rest
    split
    · exact .inl (by simp [Stream.advance, rest])
    · exact .inr ⟨rfl, Nat.le_refl _⟩
  · exact .inr ⟨rfl, Nat.le_refl _⟩

theorem acceptGroup_takes (opener : TokenKind) : Takes (acceptGroup opener) := by
  intro s
  unfold acceptGroup
  split
  · rename_i rest
    split
    · exact .inl (by simp [Stream.advance, rest])
    · exact .inr ⟨rfl, Nat.le_refl _⟩
  · exact .inr ⟨rfl, Nat.le_refl _⟩

theorem Takes.nothing : Takes (pure none : Parser (Option α)) := fun _ => .inr ⟨rfl, Nat.le_refl _⟩

theorem Takes.bind {o : Parser (Option α)} {q : Option α → Parser (Option β)} (h : Takes o)
    (yes : ∀ a, Advances (q (some a))) (no : Takes (q none)) : Takes (o >>= q) := by
  intro s
  change (q (o s).1 (o s).2).2.rest.length < _ ∨ (q (o s).1 (o s).2).1 = none ∧
    (q (o s).1 (o s).2).2.rest.length ≤ _
  cases found : (o s).1 with
  | none =>
    have le : (o s).2.rest.length ≤ s.rest.length := by
      rcases h s with lt | ⟨-, le⟩
      · exact Nat.le_of_lt lt
      · exact le
    rcases no (o s).2 with lt | ⟨none, le'⟩
    · exact .inl (lt.trans_le le)
    · exact .inr ⟨none, le'.trans le⟩
  | some a =>
    rcases h s with lt | ⟨none, -⟩
    · exact .inl ((yes a (o s).2).2.trans_lt lt)
    · rw [found] at none
      cases none

end Parser

namespace Grammar

open Ember.Parser

variable {g : Grammar}

theorem postfixStep_takes (reading : g.Reading) (base : Expr) : Takes (postfixStep g base) := by
  apply (acceptGroup_takes _).bind
  · exact fun group => (callArgs_reads reading group).advances
  apply (acceptGroup_takes _).bind
  · exact fun angle => (typedCall_reads reading base angle).advances
  apply (acceptAny_takes _).bind
  · exact fun _ => (member_reads reading base).advances
  apply (acceptGroup_takes _).bind
  · exact fun group => (enclosed_reads reading group _).advances
  · exact .nothing

theorem postfixes_enough (reading : g.Reading) (n : Nat) (base : Expr) (s : Stream)
    (enough : s.rest.length ≤ n) : postfixes g (n + 1) base s = postfixes g n base s := by
  induction n generalizing base s with
  | zero =>
    have rest : s.rest = [] := List.length_eq_zero_iff.mp (Nat.le_zero.mp enough)
    have run : postfixStep g base s = (.none, s) := by
      simp only [postfixStep, run_bind, accept, acceptAny, acceptGroup, rest]
      rfl
    rw [postfixes, postfixes, run_bind, run]
  | succ n ih =>
    conv_rhs => rw [postfixes, run_bind]
    conv_lhs => rw [postfixes, run_bind]
    rcases postfixStep_takes reading base s with lt | ⟨none, -⟩
    · cases (postfixStep g base s).1 with
      | none => rfl
      | some e => exact ih e _ (by omega)
    · rw [none]

end Grammar
end Ember

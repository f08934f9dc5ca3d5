import Mathlib
import Ember.Failure

/-!
# How computations that may fail end

`Ends act s good bad` says what holds after `act` ran from `s`: `good` of the result and the state
if it succeeds, `bad` of the failure and the state if not. `Gives` says the same without a state.
-/

set_option autoImplicit false

namespace Ember

theorem exists_left_of_forall₂ {α β : Type} {R : α → β → Prop} {as : List α} {bs : List β}
    (related : List.Forall₂ R as bs) {b : β} (member : b ∈ bs) : ∃ a ∈ as, R a b := by
  induction related with
  | nil => simp at member
  | cons head _ ih =>
    rcases List.mem_cons.mp member with rfl | rest
    · exact ⟨_, by simp, head⟩
    · obtain ⟨a, ha, h⟩ := ih rest
      exact ⟨a, by simp [ha], h⟩

theorem mem_of_lookup {α β : Type} [BEq α] [LawfulBEq α] {entries : List (α × β)} {k : α} {b : β}
    (found : entries.lookup k = some b) : (k, b) ∈ entries := by
  obtain ⟨before, after, rfl, _⟩ := List.lookup_eq_some_iff.mp found
  simp

theorem eq_some_of_orElse {α : Type} {a b : Option α} {x : α} (found : (a <|> b) = some x) :
    a = some x ∨ b = some x := by
  cases a with
  | none => exact .inr found
  | some y => exact .inl found

theorem getElem?_of_drop {α : Type} {xs rest : List α} {i : Nat} {x : α}
    (h : xs.drop i = x :: rest) : xs[i]? = some x ∧ xs.drop (i + 1) = rest := by
  refine ⟨?_, by rw [← List.drop_drop, h, List.drop_one, List.tail_cons]⟩
  have head := congrArg (·[0]?) h
  simpa using head

theorem map_eq_of_forall₂ {α β : Type} {R : α → β → Prop} {f : α → β} {as : List α} {bs : List β}
    (related : List.Forall₂ R as bs) (each : ∀ a ∈ as, ∀ b, R a b → b = f a) : bs = as.map f := by
  induction related with
  | nil => rfl
  | cons head _ ih =>
    rw [List.map_cons, each _ (by simp) _ head, ih fun a member => each a (by simp [member])]

theorem forall₂_join {α β γ : Type} {R : α → β → Prop} {S : α → γ → Prop} {as : List α}
    {bs : List β} {cs : List γ} (first : List.Forall₂ R as bs) (second : List.Forall₂ S as cs) :
    List.Forall₂ (fun b c => ∃ a ∈ as, R a b ∧ S a c) bs cs := by
  induction first generalizing cs with
  | nil =>
    cases second
    exact .nil
  | cons head _ ih =>
    cases second with
    | cons head' rest' =>
      refine .cons ⟨_, by simp, head, head'⟩ ((ih rest').imp ?_)
      rintro b c ⟨a, member, h⟩
      exact ⟨a, by simp [member], h⟩

theorem forall₂_chain {α β γ : Type} {R : α → β → Prop} {S : β → γ → Prop} {as : List α}
    {bs : List β} {cs : List γ} (first : List.Forall₂ R as bs) (second : List.Forall₂ S bs cs) :
    List.Forall₂ (fun a c => ∃ b, R a b ∧ S b c) as cs := by
  induction first generalizing cs with
  | nil =>
    cases second
    exact .nil
  | cons head _ ih =>
    cases second with
    | cons head' rest' => exact .cons ⟨_, head, head'⟩ (ih rest')

theorem exists_right_of_forall₂ {α β : Type} {R : α → β → Prop} {as : List α} {bs : List β}
    (related : List.Forall₂ R as bs) {a : α} (member : a ∈ as) : ∃ b ∈ bs, R a b :=
  exists_left_of_forall₂ related.flip member

theorem exists_between {α β γ : Type} {P : β → γ → Prop} {Q : α → β → Prop} {as : List α}
    {cs : List γ} (related : List.Forall₂ (fun a c => ∃ b, P b c ∧ Q a b) as cs) :
    ∃ bs, List.Forall₂ P bs cs ∧ List.Forall₂ Q as bs := by
  induction related with
  | nil => exact ⟨[], .nil, .nil⟩
  | cons head _ ih =>
    obtain ⟨b, p, q⟩ := head
    obtain ⟨bs, ps, qs⟩ := ih
    exact ⟨b :: bs, .cons p ps, .cons q qs⟩

variable {σ α β : Type}

theorem ok_of_bind {x : Except Failure α} {f : α → Except Failure β} {b : β}
    (run : (x >>= f) = .ok b) : ∃ a, x = .ok a ∧ f a = .ok b := by
  cases x with
  | error e => cases run
  | ok a => exact ⟨a, rfl, run⟩

/-- A run of one action after another that succeeds. -/
theorem bind_eq_ok {ε : Type} {act : EStateM ε σ α} {next : α → EStateM ε σ β} {s t : σ} {b : β} :
    (act >>= next) s = .ok b t ↔ ∃ a m, act s = .ok a m ∧ next a m = .ok b t := by
  change EStateM.bind act next s = _ ↔ _
  unfold EStateM.bind
  cases first : act s with
  | ok a m => simp
  | error failure m => simp

theorem mapM_cons_ok {ι β : Type} {f : ι → Except Failure β} {i : ι} {is : List ι} {b : β}
    {bs : List β} (first : [i].mapM f = .ok [b]) (rest : is.mapM f = .ok bs) :
    (i :: is).mapM f = .ok (b :: bs) := by
  rw [List.mapM_cons] at first ⊢
  cases own : f i with
  | error failure => simp [own, bind, Except.bind] at first
  | ok c =>
    obtain rfl : c = b := by simpa [own, bind, Except.bind, pure, Except.pure] using first
    rw [rest]
    rfl

/-- A failure for which the compiler blames itself. -/
def Located.IsDefect (f : Failure) : Prop := ∃ d, f.what = .defect d

@[simp]
theorem not_isDefect_problem (p : Problem) : ¬ (Failure.problem p).IsDefect := by
  simp [Located.IsDefect, Failure.problem]

@[simp]
theorem not_isDefect_unsupported (u : Unsupported) : ¬ (Failure.unsupported u).IsDefect := by
  simp [Located.IsDefect, Failure.unsupported]

@[simp]
theorem Located.locate_what {α : Type} (l : Located α) (span : Span) :
    (l.locate span).what = l.what := by
  unfold Located.locate
  split <;> rfl

def Ends (act : EStateM Failure σ α) (s : σ) (good : α → σ → Prop) (bad : Failure → σ → Prop) :
    Prop :=
  match act s with
  | .ok a t => good a t
  | .error f t => bad f t

def Gives (x : Except Failure α) (good : α → Prop) (bad : Failure → Prop) : Prop :=
  match x with
  | .ok a => good a
  | .error f => bad f

namespace Ends

variable {act : EStateM Failure σ α} {s : σ} {good : α → σ → Prop} {bad : Failure → σ → Prop}

theorem mono {good' : α → σ → Prop} {bad' : Failure → σ → Prop} (h : Ends act s good bad)
    (weaker : ∀ a t, good a t → good' a t) (weaker_bad : ∀ f t, bad f t → bad' f t) :
    Ends act s good' bad' := by
  unfold Ends at h ⊢
  cases run : act s with
  | ok a t => exact weaker a t (by simpa [run] using h)
  | error f t => exact weaker_bad f t (by simpa [run] using h)

theorem pure {a : α} (h : good a s) : Ends (pure a) s good bad := h

theorem throw {f : Failure} (h : bad f s) : Ends (throw f : EStateM Failure σ α) s good bad := h

theorem bind {next : α → EStateM Failure σ β} {good' : β → σ → Prop}
    (h : Ends act s (fun a t => Ends (next a) t good' bad) bad) :
    Ends (act >>= next) s good' bad := by
  unfold Ends at h ⊢
  change match EStateM.bind act next s with
    | .ok a t => good' a t
    | .error f t => bad f t
  unfold EStateM.bind
  cases run : act s with
  | ok a t => simpa [run] using h
  | error f t => simpa [run] using h

theorem lift {x : Except Failure α} (h : Gives x (fun a => good a s) (fun f => bad f s)) :
    Ends (liftM x) s good bad := by
  cases x with
  | ok a => exact h
  | error f => exact h

theorem ok {a : α} {t : σ} (h : Ends act s good bad) (run : act s = .ok a t) : good a t := by
  simpa [Ends, run] using h

/-- A list of computations that leave the state alone. -/
theorem mapM_still {f : α → EStateM Failure σ β} {R : α → β → Prop} {B : Failure → Prop}
    {as : List α} (each : ∀ a ∈ as, Ends (f a) s (fun b t => t = s ∧ R a b) fun e t => t = s ∧ B e) :
    Ends (as.mapM f) s (fun bs t => t = s ∧ List.Forall₂ R as bs) fun e t => t = s ∧ B e := by
  induction as with
  | nil => exact Ends.pure ⟨rfl, .nil⟩
  | cons a as ih =>
    rw [List.mapM_cons]
    refine Ends.bind ((each a (by simp)).mono ?_ fun _ _ => id)
    rintro b _ ⟨rfl, own⟩
    refine Ends.bind ((ih fun c member => each c (by simp [member])).mono ?_ fun _ _ => id)
    rintro bs _ ⟨rfl, rest⟩
    exact Ends.pure ⟨rfl, .cons own rest⟩

end Ends

namespace Gives

variable {x : Except Failure α} {good : α → Prop} {bad : Failure → Prop}

theorem mono {good' : α → Prop} {bad' : Failure → Prop} (h : Gives x good bad)
    (weaker : ∀ a, good a → good' a) (weaker_bad : ∀ f, bad f → bad' f) : Gives x good' bad' := by
  cases x with
  | ok a => exact weaker a h
  | error f => exact weaker_bad f h

theorem imp {good' : α → Prop} (h : Gives x good bad) (weaker : ∀ a, good a → good' a) :
    Gives x good' bad := h.mono weaker fun _ => id

theorem bind {next : α → Except Failure β} {good' : β → Prop}
    (h : Gives x (fun a => Gives (next a) good' bad) bad) : Gives (x >>= next) good' bad := by
  cases x with
  | ok a => exact h
  | error f => exact h

theorem of_ok {a : α} (run : x = .ok a) (h : good a) : Gives x good bad := by
  rw [run]
  exact h

theorem of_error {f : Failure} (run : x = .error f) (h : bad f) : Gives x good bad := by
  rw [run]
  exact h

theorem of_exists (h : ∃ a, x = .ok a ∧ good a) : Gives x good bad := by
  obtain ⟨a, run, holds⟩ := h
  exact of_ok run holds

theorem exists_ok (h : Gives x good fun _ => False) : ∃ a, x = .ok a ∧ good a := by
  cases x with
  | ok a => exact ⟨a, rfl, h⟩
  | error f => exact h.elim

/-- Each element in turn. -/
theorem mapM {f : α → Except Failure β} {post : α → β → Prop} {xs : List α}
    (each : ∀ a ∈ xs, Gives (f a) (post a) bad) :
    Gives (xs.mapM f) (fun ys => List.Forall₂ post xs ys) bad := by
  induction xs with
  | nil => exact .nil
  | cons a as ih =>
    rw [List.mapM_cons]
    refine bind ((each a (by simp)).imp fun b hb => ?_)
    refine bind ((ih fun c hc => each c (by simp [hc])).imp fun bs hbs => ?_)
    exact .cons hb hbs

end Gives
end Ember

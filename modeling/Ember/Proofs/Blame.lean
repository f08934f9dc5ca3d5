import Ember.Proofs.Quiet
import Ember.Proofs.Safe.Start

/-!
# When the compiler blames itself

Of a text without issues, items are declared in order up to the first that fails. The failure is a
defect of the compiler only if the program has two structs of one group that keep nothing. Then a
value of one of them has no code, and that is what a conversion to the alternative of both asks for.
-/

set_option autoImplicit false

namespace Ember

/-- Declares items in order, each for its targets, up to the first that fails. -/
def Program.items (p : Program) : List (Item × List Target) → Except Failure Unit × Program
  | [] => (.ok (), p)
  | (item, targets) :: rest =>
    match p.item item targets with
    | (.ok _, q) => q.items rest
    | (.error f, q) => (.error f, q)

def Item.isUse (item : Item) : Bool :=
  match item.kind with
  | .useModule _ _ => true
  | _ => false

/-- Two structs that the program declares together and that keep nothing. -/
def Program.VoidPair (p : Program) (s t : Struct) : Prop :=
  (∃ m, (m, Ty.struct s) ∈ p.env.own.types) ∧ (∃ n, (n, Ty.struct t) ∈ p.env.own.types) ∧
    s.uid < t.uid ∧ s.group = t.group ∧ s.isVoid = true ∧ t.isVoid = true

theorem Program.Over.items {K : Known} {p : Program} (valid : p.Over K)
    {requests : List (Item × List Target)}
    (clean : ∀ r ∈ requests, r.1.Clean ∧ r.1.isUse = false) :
    ∃ L, (p.items requests).2.Over L ∧ ∀ f, (p.items requests).1 = .error f → L.Excuses f := by
  induction requests generalizing p K with
  | nil => exact ⟨K, valid, by simp [Program.items]⟩
  | cons r requests ih =>
    obtain ⟨item, targets⟩ := r
    obtain ⟨own, isUse⟩ := clean (item, targets) (by simp)
    have resolved : ∀ name place, item.kind ≠ .useModule name place := fun name place kind => by
      simp [Item.isUse, kind] at isUse
    obtain ⟨L, _, left, excused⟩ := valid.item own resolved targets
    rw [Program.items]
    split
    · rename_i q run
      rw [run] at left
      exact ih left fun r member => clean r (by simp [member])
    · rename_i f q run
      rw [run] at left excused
      exact ⟨L, left, excused⟩

theorem Program.Over.voidPair {K : Known} {p : Program} (valid : p.Over K) (group : K.VoidGroup) :
    ∃ s t, p.VoidPair s t := by
  obtain ⟨s, t, hs, ht, differ, same, void⟩ := group
  have void' : t.isVoid = true := (valid.closed.void_group s t hs ht same).symm.trans void
  obtain ⟨named, named'⟩ := valid.groups s t hs ht differ same
  rcases Nat.lt_or_gt_of_ne differ with less | more
  · exact ⟨s, t, named, named', less, same, void, void'⟩
  · exact ⟨t, s, named', named, more, same.symm, void', void⟩

/-- A conversion to the alternative of such structs asks for code that there is not. -/
theorem Program.VoidPair.convert {K : Known} {p : Program} (valid : p.Over K) {s t : Struct}
    (pair : p.VoidPair s t) (target : Target) :
    ∃ d, Ty.mkAlt [s, t] = .ok (.alt s [t]) ∧
      (Value.const s.zero (.struct s)).convert target (.alt s [t]) = .error (.defect d) := by
  obtain ⟨⟨m, hs⟩, ⟨n, ht⟩, less, same, void, _⟩ := pair
  have known : K s := valid.own.types _ hs
  have value : (Value.const s.zero (.struct s)).Over K :=
    valid.closed.zero_over (t := .struct s) known void
  obtain ⟨d, run, _⟩ := valid.closed.toCode_void value void target
  refine ⟨d, ?_, ?_⟩
  · simp [Ty.mkAlt, Struct.insertMember, less, same]
  · have differ : ((Ty.struct s) == Ty.alt s [t]) = false := rfl
    have accepted : (Ty.alt s [t]).accepts (.struct s) = true := by
      simp [Ty.accepts]
    have code : (Value.const s.zero (.struct s)).convert target (.alt s [t]) = (do
        return Value.code (← (Value.const s.zero (.struct s)).toCode target) (.alt s [t])) := by
      simp [Value.convert, Value.const, differ, accepted]
    rw [code, run]
    rfl

/-- A defect of the compiler shows only where two structs of one group keep nothing, and there a
conversion meets it. -/
theorem Program.items_defect {chunk : Nat} {text : String} {p : Program}
    {requests : List (Item × List Target)} (start : Program.start = .ok p)
    (quiet : (Script.parse chunk text).issues = [])
    (script : requests.map Prod.fst = (Script.parse chunk text).result.items)
    (resolved : ∀ i ∈ (Script.parse chunk text).result.items, i.isUse = false) :
    (∀ f d, (p.items requests).1 = .error f → f.what = .defect d →
      d.isVoidValue = true ∧ ∃ s t, (p.items requests).2.VoidPair s t) ∧
    ∀ s t target, (p.items requests).2.VoidPair s t → ∃ d,
      Ty.mkAlt [s, t] = .ok (.alt s [t]) ∧
      (Value.const s.zero (.struct s)).convert target (.alt s [t]) = .error (.defect d) := by
  obtain ⟨K, valid⟩ := Program.start_over start
  have clean : ∀ r ∈ requests, r.1.Clean ∧ r.1.isUse = false := by
    intro r member
    have listed : r.1 ∈ (Script.parse chunk text).result.items :=
      script ▸ List.mem_map_of_mem member
    exact ⟨Script.parse_clean quiet r.1 listed, resolved r.1 listed⟩
  obtain ⟨L, final, excused⟩ := valid.items clean
  refine ⟨fun f d failed blame => ?_, fun s t target pair => pair.convert final target⟩
  obtain ⟨isVoidValue, group⟩ := excused f failed d blame
  exact ⟨isVoidValue, final.voidPair group⟩

def emptyPair : String := "struct A {} | B {}; fn f() { let y: A | B = A {}; }"

def emptyPairRequests : List (Item × List Target) :=
  (Script.parse 0 emptyPair).result.items.map fun i => (i, [.js])

def Program.blames (requests : List (Item × List Target)) : Bool :=
  match Program.start with
  | .ok p =>
    match (p.items requests).1 with
    | .error f => match f.what with
      | .defect _ => true
      | _ => false
    | .ok _ => false
  | .error _ => false

theorem Program.exists_of_blames {requests : List (Item × List Target)}
    (h : Program.blames requests = true) :
    ∃ p f d, Program.start = .ok p ∧ (p.items requests).1 = .error f ∧ f.what = .defect d := by
  unfold Program.blames at h
  split at h
  · rename_i p start
    split at h
    · rename_i f failed
      split at h
      · rename_i d blame
        exact ⟨p, f, d, start, failed, blame⟩
      · simp at h
    · simp at h
  · simp at h

theorem emptyPair_blames : Program.blames emptyPairRequests = true := by decide +kernel

theorem emptyPair_quiet : (Script.parse 0 emptyPair).issues = [] := by decide +kernel

theorem emptyPair_resolved : ∀ i ∈ (Script.parse 0 emptyPair).result.items, i.isUse = false := by
  decide +kernel

theorem emptyPairRequests_fst :
    emptyPairRequests.map Prod.fst = (Script.parse 0 emptyPair).result.items := by
  simp [emptyPairRequests, Function.comp_def]

/-- The text has such structs, since it ends with a defect. -/
theorem Program.emptyPair_voidPair : ∃ p s t, Program.start = .ok p ∧
    (p.items emptyPairRequests).2.VoidPair s t := by
  obtain ⟨p, f, d, start, failed, blame⟩ := Program.exists_of_blames emptyPair_blames
  have only := (Program.items_defect start emptyPair_quiet emptyPairRequests_fst
    emptyPair_resolved).1
  obtain ⟨_, s, t, pair⟩ := only f d failed blame
  exact ⟨p, s, t, start, pair⟩

/-- Not every text without issues and without `use` is free of defects. -/
theorem Program.exists_items_defect : ¬ ∀ chunk text p requests, Program.start = .ok p →
    (Script.parse chunk text).issues = [] →
    requests.map Prod.fst = (Script.parse chunk text).result.items →
    (∀ i ∈ (Script.parse chunk text).result.items, i.isUse = false) →
    ∀ f d, (p.items requests).1 = .error f → f.what ≠ .defect d := by
  intro free
  obtain ⟨p, f, d, start, failed, blame⟩ := Program.exists_of_blames emptyPair_blames
  exact free 0 emptyPair p emptyPairRequests start emptyPair_quiet emptyPairRequests_fst
    emptyPair_resolved f d failed blame

end Ember

import Ember.Proofs.Safe.Call

/-!
# The order of types by conversion

A type accepts what converts to it. On the types over structs that were declared this is an order:
whole numbers are below numbers, a struct is below the alternatives that name it, and an alternative
below those that name all its structs. An alternative depends on which structs it is made of, not on
how they were listed.
-/

set_option autoImplicit false

namespace Ember

inductive Ty.Made (K : Known) : Ty → Prop
  | scalar (k : ScalarKind) : Made K (.scalar k)
  | struct {s : Struct} (known : K s) : Made K (.struct s)
  | array {of t : Ty} {len : Nat} (element : Made K of) (made : mkArray of len = .ok t) : Made K t
  | alt {members : List Struct} {t : Ty} (known : ∀ s ∈ members, K s)
      (made : mkAlt members = .ok t) : Made K t

/-- The structs that declarations give, one group after the other, and the numbers that are left.
Numbers may be used for other things in between. -/
inductive Known.Declared : Known → Ids → Prop
  | start (ids : Ids) : Declared (fun _ => False) ids
  | group {K : Known} {vs : List Variant} {matrix : Bool} {ids ids' : Ids} {ss : List Struct}
      (before : Declared K ids) (fields : ∀ v ∈ vs, ∀ f ∈ v.fields, f.ty.Made K)
      (declared : Struct.declareGroup vs matrix ids = .ok ss ids') : Declared (K.add ss) ids'
  | other {K : Known} {ids ids' : Ids} (before : Declared K ids) (grown : ids.next ≤ ids'.next) :
      Declared K ids'

namespace Ty

def uids? : Ty → Option (List Nat)
  | .struct s => some [s.uid]
  | .alt first others => some ((first :: others).map Struct.uid)
  | .scalar _ | .array _ _ => none

def Sorted : Ty → Prop
  | .alt first others => ((first :: others).map Struct.uid).Pairwise (· < ·)
  | _ => True

theorem Made.over {K : Known} {t : Ty} (made : t.Made K) : t.Over K := by
  induction made with
  | scalar k => trivial
  | struct known => exact known
  | @array of t len _ made ih =>
    have gives := mkArray_gives ih len
    rw [made] at gives
    exact gives.2
  | alt known made => exact (mkAlt_over made).mono known

theorem mkAlt_sorted {members : List Struct} {t : Ty} (made : mkAlt members = .ok t) :
    t.Sorted := by
  have ordered := (members_ordered members).1
  unfold mkAlt at made
  split at made
  · cases made
  · rename_i first others listed
    rw [listed] at ordered
    split at made
    · cases made
    · cases made
      split
      · trivial
      · exact ordered

theorem Made.sorted {K : Known} {t : Ty} (made : t.Made K) : t.Sorted := by
  cases made with
  | scalar k => trivial
  | struct known => trivial
  | @array of t len element made =>
    have gives := mkArray_gives element.over len
    rw [made] at gives
    rw [gives.1]
    trivial
  | alt known made => exact mkAlt_sorted made

theorem accepts_self (t : Ty) : t.accepts t = true := by
  unfold accepts
  rw [beq_self, Bool.true_or]

/-- What a type accepts, where sameness is equality. -/
theorem accepts_iff {K : Known} (closed : K.Closed) {goal other : Ty} (goalValid : goal.Over K)
    (valid : other.Over K) : goal.accepts other = true ↔
      goal = other ∨ (goal = .f32 ∧ other = .i32) ∨
        ∃ t ts us, goal = .alt t ts ∧ other.uids? = some us ∧ us ⊆ (t :: ts).map Struct.uid := by
  constructor
  · intro accepted
    unfold accepts at accepted
    rcases Bool.or_eq_true_iff.mp accepted with same | converts
    · exact .inl (closed.eq_of_same goalValid valid same)
    · split at converts
      · exact .inr (.inl ⟨rfl, rfl⟩)
      · exact .inr (.inr ⟨_, _, _, rfl, rfl, by simpa using converts⟩)
      · refine .inr (.inr ⟨_, _, _, rfl, rfl, ?_⟩)
        simpa [List.subset_def] using converts
      · cases converts
  · rintro (rfl | ⟨rfl, rfl⟩ | ⟨t, ts, us, rfl, numbers, sub⟩)
    · exact accepts_self goal
    · rfl
    · unfold accepts
      refine Bool.or_eq_true_iff.mpr (.inr ?_)
      cases other with
      | scalar k => cases numbers
      | array of len => cases numbers
      | struct s =>
        cases numbers
        simpa using sub
      | alt s ss =>
        cases numbers
        simpa [List.subset_def] using sub

variable {K : Known} {a b c : Ty}

theorem accepts_trans (closed : K.Closed) (madeA : a.Made K) (madeB : b.Made K) (madeC : c.Made K)
    (upper : a.accepts b = true) (lower : b.accepts c = true) : a.accepts c = true := by
  rw [accepts_iff closed madeA.over madeB.over] at upper
  rw [accepts_iff closed madeB.over madeC.over] at lower
  rw [accepts_iff closed madeA.over madeC.over]
  rcases upper with rfl | ⟨rfl, rfl⟩ | ⟨t, ts, us, rfl, numbers, sub⟩
  · exact lower
  · rcases lower with rfl | ⟨other, _⟩ | ⟨_, _, _, other, _⟩
    · exact .inr (.inl ⟨rfl, rfl⟩)
    · cases other
    · cases other
  · rcases lower with rfl | ⟨rfl, _⟩ | ⟨s, ss, vs, rfl, numbers', sub'⟩
    · exact .inr (.inr ⟨t, ts, us, rfl, numbers, sub⟩)
    · cases numbers
    · cases numbers
      exact .inr (.inr ⟨t, ts, vs, rfl, numbers', fun _ found => sub (sub' found)⟩)

/-- Numbers in order are known by which they are. -/
theorem eq_of_uids_sorted {ms ns : List Nat} (left : ms.Pairwise (· < ·)) (right : ns.Pairwise (· < ·))
    (same : ∀ u, u ∈ ms ↔ u ∈ ns) : ms = ns := by
  refine List.Perm.eq_of_pairwise' left right ?_
  exact (List.perm_ext_iff_of_nodup (left.imp fun h => h.ne) (right.imp fun h => h.ne)).mpr same

theorem accepts_antisymm (closed : K.Closed) (madeA : a.Made K) (madeB : b.Made K)
    (upper : a.accepts b = true) (lower : b.accepts a = true) : a = b := by
  rw [accepts_iff closed madeA.over madeB.over] at upper
  rw [accepts_iff closed madeB.over madeA.over] at lower
  rcases upper with rfl | ⟨rfl, rfl⟩ | ⟨t, ts, us, rfl, numbers, sub⟩
  · rfl
  · rcases lower with other | ⟨other, _⟩ | ⟨_, _, _, other, _⟩
    all_goals cases other
  · rcases lower with rfl | ⟨_, other⟩ | ⟨s, ss, vs, rfl, numbers', sub'⟩
    · rfl
    · cases other
    · cases numbers
      cases numbers'
      refine closed.eq_of_same madeA.over madeB.over ?_
      have same := eq_of_uids_sorted madeA.sorted madeB.sorted fun u =>
        ⟨fun found => sub' found, fun found => sub found⟩
      change (t :: ts).map Struct.uid == (s :: ss).map Struct.uid
      simpa using same

theorem uid_mem_insertMember {u : Nat} {s : Struct} {ss : List Struct} :
    u ∈ (Struct.insertMember s ss).map Struct.uid ↔ u = s.uid ∨ u ∈ ss.map Struct.uid := by
  induction ss with
  | nil => simp [Struct.insertMember]
  | cons t ts ih =>
    rw [Struct.insertMember]
    split_ifs with less same
    · simp
    · simp [same]
    · rw [List.map_cons, List.mem_cons, ih, List.map_cons, List.mem_cons]
      exact or_left_comm

theorem uid_mem_members {u : Nat} (members : List Struct) :
    u ∈ (members.foldr Struct.insertMember []).map Struct.uid ↔ u ∈ members.map Struct.uid := by
  induction members with
  | nil => rfl
  | cons s ss ih => rw [List.foldr_cons, uid_mem_insertMember, ih, List.map_cons, List.mem_cons]

theorem mkAlt_congr (closed : K.Closed) {ms ns : List Struct} (knownM : ∀ s ∈ ms, K s)
    (knownN : ∀ s ∈ ns, K s) (same : ∀ u, u ∈ ms.map Struct.uid ↔ u ∈ ns.map Struct.uid) :
    mkAlt ms = mkAlt ns := by
  obtain ⟨orderM, fromM⟩ := members_ordered ms
  obtain ⟨orderN, fromN⟩ := members_ordered ns
  have numbers := eq_of_uids_sorted orderM orderN fun u => by
    rw [uid_mem_members, uid_mem_members, same]
  have lists := closed.eq_of_uids (fun s member => knownM s (fromM s member))
    (fun s member => knownN s (fromN s member)) numbers
  unfold mkAlt
  rw [lists]

end Ty

namespace Known.Declared

variable {K : Known} {ids : Ids}

theorem closed_below (declared : K.Declared ids) : K.Closed ∧ K.Below ids.next := by
  induction declared with
  | start ids => exact ⟨⟨nofun, nofun, nofun, nofun⟩, nofun⟩
  | group _ fields run ih =>
    have new := Struct.declared_of_ok (fun v listed f field => (fields v listed f field).over) run
    exact ⟨ih.1.add ih.2 new, ih.2.add new⟩
  | other _ grown ih => exact ⟨ih.1, ih.2.mono grown⟩

end Known.Declared

/-- Conversion orders the types over declared structs: a type accepts itself, what is accepted by
what it accepts, and nothing that accepts it but itself. Lists of the same structs make the same
alternative, or fail in the same way. -/
theorem Ty.accepts_order {K : Known} {ids : Ids} (declared : K.Declared ids) :
    (∀ a : Ty, a.Made K → a.accepts a = true) ∧
    (∀ a b c : Ty, a.Made K → b.Made K → c.Made K → a.accepts b = true → b.accepts c = true →
      a.accepts c = true) ∧
    (∀ a b : Ty, a.Made K → b.Made K → a.accepts b = true → b.accepts a = true → (a == b) = true) ∧
    ∀ ms ns : List Struct, (∀ s ∈ ms, K s) → (∀ s ∈ ns, K s) →
      (∀ u, u ∈ ms.map Struct.uid ↔ u ∈ ns.map Struct.uid) → mkAlt ms = mkAlt ns := by
  have closed := declared.closed_below.1
  refine ⟨fun a _ => accepts_self a, ?_, ?_, ?_⟩
  · intro a b c madeA madeB madeC
    exact accepts_trans closed madeA madeB madeC
  · intro a b madeA madeB upper lower
    rw [accepts_antisymm closed madeA madeB upper lower, beq_self]
  · intro ms ns
    exact mkAlt_congr closed

/-- Three structs of one group; an alternative of two of them, listed in some order, is below the
alternative of all. -/
theorem Ty.accepts_order_group : ∃ (a b c : Struct) (wide narrow : Ty),
    Struct.declareGroup [⟨"a", [⟨"x", .f32⟩]⟩, ⟨"b", [⟨"y", .f32⟩]⟩, ⟨"c", [⟨"z", .f32⟩]⟩] false ⟨1⟩ =
      .ok [a, b, c] ⟨5⟩ ∧
    mkAlt [c, a, b, c] = .ok wide ∧ mkAlt [b, a] = .ok narrow ∧ mkAlt [a, b, a] = .ok narrow ∧
    wide.accepts narrow = true ∧ narrow.accepts (.struct b) = true ∧
    wide.accepts (.struct b) = true := by
  obtain ⟨a, b, c, wide, narrow, run, all, two, first, second⟩ :
      ∃ (a b c : Struct) (wide narrow : Ty),
        Struct.declareGroup [⟨"a", [⟨"x", .f32⟩]⟩, ⟨"b", [⟨"y", .f32⟩]⟩, ⟨"c", [⟨"z", .f32⟩]⟩] false
          ⟨1⟩ = .ok [a, b, c] ⟨5⟩ ∧
        mkAlt [c, a, b, c] = .ok wide ∧ mkAlt [b, a] = .ok narrow ∧
        wide.accepts narrow = true ∧ narrow.accepts (.struct b) = true :=
    ⟨_, _, _, _, _, rfl, rfl, rfl, rfl, rfl⟩
  have declared := (Known.Declared.start ⟨1⟩).group (by
    simp only [List.mem_cons, List.not_mem_nil, or_false, forall_eq, forall_eq_or_imp]
    exact ⟨.scalar _, .scalar _, .scalar _⟩) run
  obtain ⟨_, trans, _, same⟩ := accepts_order declared
  refine ⟨a, b, c, wide, narrow, run, all, two, ?_, first, second, ?_⟩
  · rw [← two]
    refine same [a, b, a] [b, a] ?_ ?_ ?_
    · simp [Known.add]
    · simp [Known.add]
    · simp [or_comm]
  · refine trans wide narrow (.struct b) (.alt ?_ all) (.alt ?_ two) (.struct ?_) first second
    · simp [Known.add]
    · simp [Known.add]
    · simp [Known.add]

end Ember

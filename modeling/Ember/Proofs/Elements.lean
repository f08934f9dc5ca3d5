import Ember.Lower.Literal
import Ember.Proofs.Conversions

/-!
# The element type of an array literal

The elements are looked at from the left with one type in hand, which is given up for the next
element's where that one accepts it. So the literal is accepted exactly when the elements read so
far always have one among them that accepts them all. That a later element would accept two that do
not accept each other does not help, and the order of the elements matters.
-/

set_option autoImplicit false

namespace Ember

/-- One of some types that accepts them all. -/
def Ty.IsTop (t : Ty) (ts : List Ty) : Prop := t ∈ ts ∧ ∀ u ∈ ts, t.accepts u = true

namespace Ty.IsTop

variable {K : Known} {t u : Ty} {ts : List Ty}

theorem concat (top : t.IsTop ts) (accepted : t.accepts u = true) : t.IsTop (ts ++ [u]) := by
  refine ⟨List.mem_append_left _ top.1, fun w listed => ?_⟩
  rcases List.mem_append.mp listed with before | last
  · exact top.2 w before
  · rw [List.mem_singleton.mp last]
    exact accepted

theorem replace (closed : K.Closed) (made : ∀ w ∈ ts ++ [u], w.Made K) (top : t.IsTop ts)
    (accepts : u.accepts t = true) : u.IsTop (ts ++ [u]) := by
  have last : u ∈ ts ++ [u] := by simp
  refine ⟨last, fun w listed => ?_⟩
  rcases List.mem_append.mp listed with before | same
  · exact accepts_trans closed (made u last) (made t (List.mem_append_left _ top.1)) (made w listed)
      accepts (top.2 w before)
  · rw [List.mem_singleton.mp same]
    exact accepts_self u

theorem unique (closed : K.Closed) (made : ∀ w ∈ ts, w.Made K) (left : t.IsTop ts)
    (right : u.IsTop ts) : t = u :=
  accepts_antisymm closed (made t left.1) (made u right.1) (left.2 u right.1) (right.2 t left.1)

/-- What is above a list with one more type is the new type, or was above the list before. -/
theorem of_concat (closed : K.Closed) (made : ∀ w ∈ ts ++ [u], w.Made K) (top : t.IsTop ts)
    {w : Ty} (above : w.IsTop (ts ++ [u])) : u.accepts t = true ∨ t.accepts u = true := by
  rcases List.mem_append.mp above.1 with before | last
  · have same : w = t := unique closed (fun v listed => made v (List.mem_append_left _ listed))
      ⟨before, fun v listed => above.2 v (List.mem_append_left _ listed)⟩ top
    exact .inr (same ▸ above.2 u (by simp))
  · exact .inl (List.mem_singleton.mp last ▸ above.2 t (List.mem_append_left _ top.1))

end Ty.IsTop

namespace Lowering

/-- The search from a type that is above those that were read before. -/
theorem elementTy_ok_iff {K : Known} (closed : K.Closed) {t : Ty} (vs : List Value) :
    ∀ {top : Ty} {seen : List Ty}, (∀ u ∈ seen ++ vs.map Value.ty, u.Made K) → top.IsTop seen →
      (elementTy top vs = .ok t ↔ t.IsTop (seen ++ vs.map Value.ty) ∧
        ∀ n, ∃ u : Ty, u.IsTop ((seen ++ vs.map Value.ty).take (seen.length + n))) := by
  induction vs with
  | nil =>
    intro top seen made above
    have whole (n : Nat) : seen.take (seen.length + n) = seen :=
      List.take_of_length_le (Nat.le_add_right _ _)
    simp only [elementTy, List.map_nil, List.append_nil, Except.ok.injEq, whole] at made ⊢
    exact ⟨fun same => ⟨same ▸ above, fun _ => ⟨top, above⟩⟩,
      fun h => above.unique closed made h.1⟩
  | cons v vs ih =>
    intro top seen made above
    have step : seen ++ (v :: vs).map Value.ty = (seen ++ [v.ty]) ++ vs.map Value.ty := by simp
    have made' : ∀ u ∈ seen ++ [v.ty], u.Made K := fun u listed =>
      made u (by rw [step]; exact List.mem_append_left _ listed)
    -- one more type in `seen`: the prefixes are those from the next one on, and `seen` itself
    have shift (w : Ty) (next : w.IsTop (seen ++ [v.ty])) :
        elementTy w vs = .ok t ↔ t.IsTop (seen ++ (v :: vs).map Value.ty) ∧
          ∀ n, ∃ u : Ty, u.IsTop ((seen ++ (v :: vs).map Value.ty).take (seen.length + n)) := by
      rw [step] at made ⊢
      rw [ih made next]
      refine and_congr_right fun _ => ⟨fun later n => ?_, fun all n => ?_⟩
      · cases n with
        | zero => exact ⟨top, by simpa using above⟩
        | succ n => simpa [Nat.add_assoc, Nat.add_comm 1] using later n
      · simpa [Nat.add_assoc, Nat.add_comm 1] using all (n + 1)
    rw [elementTy]
    split_ifs with accepted accepts
    · exact shift top (above.concat accepted)
    · exact shift v.ty (above.replace closed made' accepts)
    · refine ⟨fun h => (nomatch h), fun h => ?_⟩
      obtain ⟨u, found⟩ := h.2 1
      rw [step, show seen.length + 1 = (seen ++ [v.ty]).length by simp, List.take_left'] at found
      · rcases above.of_concat closed made' found with h | h
        · exact absurd h accepts
        · exact absurd h accepted
      · rfl

/-- The elements of a literal have an element type, `t`, if and only if `t` is the type of one of
them and accepts them all, and already the first elements, however many, have such a type among
them. -/
theorem elementTy_iff_prefixes {K : Known} {ids : Ids} (declared : K.Declared ids) (v : Value)
    (vs : List Value) (made : ∀ w ∈ v :: vs, w.ty.Made K) (t : Ty) :
    elementTy v.ty vs = .ok t ↔ t.IsTop ((v :: vs).map Value.ty) ∧
      ∀ n, ∃ u : Ty, u.IsTop (((v :: vs).map Value.ty).take (n + 1)) := by
  have first : v.ty.IsTop [v.ty] := ⟨by simp, by simp [Ty.accepts_self]⟩
  have made' : ∀ u ∈ [v.ty] ++ vs.map Value.ty, u.Made K := by simpa using made
  have all := elementTy_ok_iff declared.closed_below.1 (t := t) vs made' first
  simpa [Nat.add_comm] using all

/-- Two structs of a group and an alternative of both. -/
theorem exists_group_alt : ∃ (a b : Struct) (both : Ty) (K : Known) (ids : Ids),
    K.Declared ids ∧ Ty.Made K (.struct a) ∧ Ty.Made K (.struct b) ∧ both.Made K ∧
    Ty.accepts (.struct a) (.struct b) = false ∧ Ty.accepts (.struct b) (.struct a) = false ∧
    both.accepts (.struct a) = true ∧ both.accepts (.struct b) = true := by
  obtain ⟨a, b, both, ids, run, made, apart, apart', first, second⟩ :
      ∃ (a b : Struct) (both : Ty) (ids : Ids),
        Struct.declareGroup [⟨"A", [⟨"x", .f32⟩]⟩, ⟨"B", [⟨"y", .f32⟩]⟩] false ⟨1⟩ =
          .ok [a, b] ids ∧
        Ty.mkAlt [a, b] = .ok both ∧
        Ty.accepts (.struct a) (.struct b) = false ∧ Ty.accepts (.struct b) (.struct a) = false ∧
        both.accepts (.struct a) = true ∧ both.accepts (.struct b) = true :=
    ⟨_, _, _, _, rfl, rfl, rfl, rfl, rfl, rfl⟩
  have declared := (Known.Declared.start ⟨1⟩).group (by
    simp only [List.mem_cons, List.not_mem_nil, or_false, forall_eq, forall_eq_or_imp]
    exact ⟨.scalar _, .scalar _⟩) run
  exact ⟨a, b, both, _, ids, declared, .struct (by simp [Known.add]), .struct (by simp [Known.add]),
    .alt (by simp [Known.add]) made, apart, apart', first, second⟩

/-- With the alternative between its structs, the elements always have a type above them. -/
theorem elementTy_iff_between : ∃ (a b : Struct) (both : Ty), ∀ c : Constant,
    elementTy (.struct a) [.const c both, .const c (.struct b)] = .ok both := by
  obtain ⟨a, b, both, K, ids, declared, madeA, madeB, made, -, -, first, second⟩ := exists_group_alt
  have above : ∀ u ∈ [.struct a, both, .struct b], both.accepts u = true := by
    simpa using ⟨first, Ty.accepts_self both, second⟩
  refine ⟨a, b, both, fun c => ?_⟩
  refine (elementTy_iff_prefixes declared (.const c (.struct a)) _ ?_ both).mpr
    ⟨⟨by simp [Value.const], above⟩, ?_⟩
  · simpa [Value.const] using ⟨madeA, made, madeB⟩
  · rintro (_ | n)
    · exact ⟨.struct a, by simp [Value.const], by simp [Value.const, Ty.accepts_self]⟩
    · exact ⟨both, by simp [Value.const], fun u listed => above u (List.mem_of_mem_take listed)⟩

/-- That some element's type accepts them all is not enough, and a literal may be accepted in one
order of its elements and refused in another. -/
theorem exists_elementTy_order : ∃ (K : Known) (ids : Ids) (u v w : Value),
    K.Declared ids ∧ (∀ x ∈ [u, v, w], x.ty.Made K) ∧ w.ty.IsTop ([u, v, w].map Value.ty) ∧
    (¬ ∃ t, elementTy u.ty [v, w] = .ok t) ∧ elementTy w.ty [u, v] = .ok w.ty := by
  obtain ⟨a, b, both, K, ids, declared, madeA, madeB, made, apart, apart', first, second⟩ :=
    exists_group_alt
  refine ⟨K, ids, .const (.scalar (.bool true)) (.struct a),
    .const (.scalar (.bool true)) (.struct b), .const (.scalar (.bool true)) both, declared, ?_,
    ⟨?_, ?_⟩, ?_, ?_⟩
  · simpa [Value.const] using ⟨madeA, madeB, made⟩
  · simp [Value.const]
  · simpa [Value.const] using ⟨first, second, Ty.accepts_self both⟩
  · simp [elementTy, Value.const, apart, apart']
  · simp [elementTy, Value.const, first, second]

end Lowering
end Ember

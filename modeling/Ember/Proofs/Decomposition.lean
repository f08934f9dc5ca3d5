import Ember.Proofs.Componentwise
import Ember.Proofs.Conversions

/-!
# Taking vectors apart and putting them together

`Emit.scalars` goes through the fields of a value, `Value.ofScalars` through a list that all nested
fields share. Both leave out what keeps nothing. On constants they are inverse to each other, and as
many scalars are used as the type has components.
-/

set_option autoImplicit false

namespace Ember

def Scalar.toValue (x : Scalar) : Value := .const (.scalar x) (.scalar x.kind)

namespace Value

variable {target : Target} {k : ScalarKind} {w : Nat} {us rest : List Value}

/-! ## How many scalars are used -/

theorem fieldsOfScalars_uses {fs : List Field} {ws : List Nat} {vs : List Value}
    (each : ∀ f ∈ fs, ∀ {w : Nat} {us : List Value} {v : Value} {rest : List Value},
      f.ty.shape? = some (k, w) → ofScalars target f.ty us = .ok (v, rest) →
      ∃ used, us = used ++ rest ∧ used.length = w)
    (shapes : (Field.kept fs).map (fun f => f.ty.shape?) = ws.map (fun w => some (k, w)))
    (run : fieldsOfScalars target fs us = .ok (vs, rest)) :
    ∃ used, us = used ++ rest ∧ used.length = ws.sum := by
  induction fs generalizing ws us vs with
  | nil =>
    obtain rfl : ws = [] := by simpa [Field.kept] using shapes.symm
    rw [fieldsOfScalars] at run
    cases run
    exact ⟨[], rfl, rfl⟩
  | cons f fs ih =>
    obtain ⟨name, ty⟩ := f
    have others := fun f (member : f ∈ fs) => @each f (by simp [member])
    rw [fieldsOfScalars] at run
    cases void : ty.isVoid with
    | true =>
      rw [if_pos void] at run
      obtain ⟨⟨values, left⟩, below, last⟩ := ok_of_bind run
      cases last
      exact ih others (by simpa [Field.kept, void] using shapes) below
    | false =>
      rw [if_neg (by simp [void])] at run
      obtain ⟨⟨value, left⟩, first, run⟩ := ok_of_bind run
      obtain ⟨⟨values, left'⟩, below, last⟩ := ok_of_bind run
      cases last
      cases ws with
      | nil => simp [Field.kept, void] at shapes
      | cons w ws =>
        simp only [Field.kept, void, Bool.not_false, List.filter_cons_of_pos, List.map_cons,
          List.cons.injEq] at shapes
        obtain ⟨own, rfl, length⟩ := each ⟨name, ty⟩ (by simp) shapes.1 first
        obtain ⟨used, rfl, length'⟩ := ih others shapes.2 below
        exact ⟨own ++ used, (List.append_assoc ..).symm, by simp [length, length']⟩

/-- What is built of a type with a shape uses as many scalars as that has components. -/
theorem ofScalars_uses {t : Ty} {v : Value} (shape : t.shape? = some (k, w))
    (run : ofScalars target t us = .ok (v, rest)) : ∃ used, us = used ++ rest ∧ used.length = w := by
  induction t using Ty.induct generalizing w us v rest with
  | scalar k' =>
    cases us with
    | nil =>
      rw [ofScalars] at run
      cases run
    | cons u us =>
      rw [ofScalars] at run
      cases run
      simp only [Ty.shape?, Option.some.injEq, Prod.mk.injEq] at shape
      exact ⟨[v], rfl, shape.2⟩
  | struct s ih =>
    rw [Ty.shape?] at shape
    obtain ⟨_, _, _, ws, _, rfl, shapes⟩ := Struct.shape?_some shape
    obtain ⟨uid, group, name, fields, matrix, js, glsl⟩ := s
    rw [ofScalars, structOfScalars] at run
    obtain ⟨⟨values, left⟩, below, run⟩ := ok_of_bind run
    obtain ⟨built, _, last⟩ := ok_of_bind run
    cases last
    exact fieldsOfScalars_uses (fun f member _ _ _ _ => ih f member) shapes below
  | array of len _ => simp [Ty.shape?] at shape
  | alt first others _ _ => simp [Ty.shape?] at shape

/-! ## Together and apart -/

theorem eq_toValue {x : Scalar} {u : Value} (kind : x.kind = k) (is : Value.Is k x u)
    (placeless : u.assignable = false) : u = x.toValue := by
  obtain ⟨payload, ty, place⟩ := u
  obtain ⟨rfl, rfl⟩ := is
  cases placeless
  rw [← kind]
  rfl

theorem is_toValue {x : Scalar} (kind : x.kind = k) : Value.Is k x x.toValue :=
  ⟨rfl, by rw [← kind]; rfl⟩

theorem construct_placeless {s : Struct} {vs : List Value} {v : Value}
    (made : construct target s vs = .ok v) : v.assignable = false := by
  unfold construct at made
  split at made
  · cases made
    rfl
  · obtain ⟨stored, _, made⟩ := ok_of_bind made
    obtain ⟨code, _, made⟩ := ok_of_bind made
    cases made
    rfl

/-- What is built names no place, if no scalar does. -/
theorem fromScalars_placeless {t : Ty} {v : Value} (scalars : ∀ u ∈ us, u.assignable = false)
    (made : fromScalars target t us = .ok v) : v.assignable = false := by
  obtain ⟨rest, run⟩ : ∃ rest, ofScalars target t us = .ok (v, rest) := by
    unfold fromScalars at made
    cases run : ofScalars target t us with
    | error f => simp [run, Except.map] at made
    | ok pair =>
      obtain rfl : pair.1 = v := by simpa [run, Except.map] using made
      exact ⟨pair.2, rfl⟩
  cases t with
  | scalar k =>
    cases us with
    | nil =>
      rw [ofScalars] at run
      cases run
    | cons u us =>
      rw [ofScalars] at run
      cases run
      exact scalars _ (by simp)
  | struct s =>
    obtain ⟨uid, group, name, fields, matrix, js, glsl⟩ := s
    rw [ofScalars, structOfScalars] at run
    obtain ⟨⟨values, left⟩, _, run⟩ := ok_of_bind run
    obtain ⟨built, constructed, last⟩ := ok_of_bind run
    cases last
    exact construct_placeless constructed
  | array of len =>
    rw [ofScalars] at run
    cases run
  | alt first others =>
    rw [ofScalars] at run
    cases run

/-- Scalars that were put together come apart again. -/
theorem scalars_fromScalars {t : Ty} {xs : List Scalar} (shape : t.shape? = some (k, xs.length))
    (kinds : ∀ x ∈ xs, x.kind = k) (target : Target) :
    ∃ v, fromScalars target t (xs.map Scalar.toValue) = .ok v ∧
      Emit.scalars target v = pure (xs.map Scalar.toValue) := by
  have are : List.Forall₂ (Value.Is k) xs (xs.map Scalar.toValue) :=
    List.forall₂_map_right_iff.mpr (List.forall₂_same.mpr fun x member => is_toValue (kinds x member))
  obtain ⟨v, made, ty, c, payload, yields⟩ := fromScalars_comes (by simpa using shape) are target
  have placeless : v.assignable = false := fromScalars_placeless (by simp [Scalar.toValue, const]) made
  obtain ⟨us, apart, are', placeless'⟩ := yields target v payload ty
  refine ⟨v, made, ?_⟩
  have same : us = xs.map Scalar.toValue := by
    refine map_eq_of_forall₂
      ((List.forall₂_and_left _ _).mpr ⟨placeless' placeless, are'.flip⟩).flip ?_
    rintro x member u ⟨placeless, is⟩
    exact eq_toValue (kinds x member) is placeless
  rw [Emit.scalars, ty, apart, same]

/-! ## Apart and together -/

theorem fieldsOfScalars_holds (target : Target) {fs : List Field} {cs : List Constant}
    {ws : List Nat}
    (void : ∀ f ∈ fs, f.ty.isVoid = true → ∀ c, f.ty.Holds c → c = f.ty.zero)
    (each : ∀ f ∈ fs, ∀ {w : Nat} {c : Constant}, f.ty.shape? = some (k, w) → f.ty.Holds c →
      ∃ xs : List Scalar, xs.length = w ∧ (∀ x ∈ xs, x.kind = k) ∧ ∀ rest,
        ofScalars target f.ty (xs.map Scalar.toValue ++ rest) = .ok (.const c f.ty, rest))
    (shapes : (Field.kept fs).map (fun f => f.ty.shape?) = ws.map (fun w => some (k, w)))
    (holds : List.Forall₂ (fun f c => f.ty.Holds c) fs cs) :
    ∃ (xs : List Scalar) (vs : List Value), xs.length = ws.sum ∧ (∀ x ∈ xs, x.kind = k) ∧
      consts? vs = some cs ∧ ∀ rest,
        fieldsOfScalars target fs (xs.map Scalar.toValue ++ rest) = .ok (vs, rest) := by
  induction holds generalizing ws with
  | nil =>
    obtain rfl : ws = [] := by simpa [Field.kept] using shapes.symm
    exact ⟨[], [], rfl, by simp, rfl, fun rest => by rw [fieldsOfScalars]; rfl⟩
  | @cons f c fs cs own _ ih =>
    have voids := fun g (member : g ∈ fs) => void g (by simp [member])
    have others := fun g (member : g ∈ fs) => @each g (by simp [member])
    have whole {vs : List Value} (consts : consts? vs = some cs) :
        consts? (.const c f.ty :: vs) = some (c :: cs) := by
      simp only [consts?] at consts
      simp [consts?, consts, const?, const]
    obtain ⟨name, ty⟩ := f
    cases nothing : ty.isVoid with
    | true =>
      obtain ⟨xs, vs, length, kinds, consts, run⟩ :=
        ih voids others (by simpa [Field.kept, nothing] using shapes)
      refine ⟨xs, _, length, kinds, whole consts, fun rest => ?_⟩
      rw [fieldsOfScalars, if_pos nothing, run rest, void ⟨name, ty⟩ (by simp) nothing c own]
      rfl
    | false =>
      cases ws with
      | nil => simp [Field.kept, nothing] at shapes
      | cons w ws =>
        simp only [Field.kept, nothing, Bool.not_false, List.filter_cons_of_pos, List.map_cons,
          List.cons.injEq] at shapes
        obtain ⟨xs, length, kinds, first⟩ := each ⟨name, ty⟩ (by simp) shapes.1 own
        obtain ⟨ys, vs, length', kinds', consts, run⟩ := ih voids others shapes.2
        refine ⟨xs ++ ys, _, by simp [length, length'], List.forall_mem_append.mpr ⟨kinds, kinds'⟩,
          whole consts, fun rest => ?_⟩
        rw [fieldsOfScalars, if_neg (by simp [nothing]), List.map_append, List.append_assoc]
        have first := first (ys.map Scalar.toValue ++ rest)
        dsimp only at first
        rw [first]
        dsimp only [bind, Except.bind]
        rw [run rest]
        rfl

/-- A constant is put together from some scalars. -/
theorem exists_ofScalars {K : Known} (closed : K.Closed) {t : Ty} {c : Constant} (valid : t.Over K)
    (shape : t.shape? = some (k, w)) (holds : t.Holds c) (target : Target) :
    ∃ xs : List Scalar, xs.length = w ∧ (∀ x ∈ xs, x.kind = k) ∧ ∀ rest,
      ofScalars target t (xs.map Scalar.toValue ++ rest) = .ok (.const c t, rest) := by
  induction t using Ty.induct generalizing w c with
  | scalar k' =>
    simp only [Ty.shape?, Option.some.injEq, Prod.mk.injEq] at shape
    obtain ⟨rfl, rfl⟩ := shape
    obtain ⟨x, rfl, rfl⟩ := holds
    refine ⟨[x], rfl, by simp, fun rest => ?_⟩
    rw [List.map_singleton, List.singleton_append, ofScalars]
    rfl
  | struct s ih =>
    rw [Ty.shape?] at shape
    obtain ⟨_, _, _, ws, _, rfl, shapes⟩ := Struct.shape?_some shape
    obtain ⟨cs, rfl, all⟩ := (Struct.holds_iff s c).mp holds
    have fields := closed.fields s valid
    obtain ⟨xs, vs, length, kinds, consts, run⟩ := fieldsOfScalars_holds target
      (fun f member void c => closed.eq_zero (fields f member) void)
      (fun f member _ _ => ih f member (fields f member)) shapes all
    refine ⟨xs, length, kinds, fun rest => ?_⟩
    obtain ⟨uid, group, name, fields, matrix, js, glsl⟩ := s
    rw [ofScalars, structOfScalars]
    dsimp only at run
    simp only [run rest, construct, consts, bind, Except.bind, pure, Except.pure]
  | array of len _ => simp [Ty.shape?] at shape
  | alt first others _ _ => simp [Ty.shape?] at shape

/-- Scalars and vectors are two forms of the same constants. Values of a type with a shape are built
of as many scalars as the shape has components; constant scalars put together come apart again, and
a constant that is taken apart is put together again. -/
theorem scalars_inverse {K : Known} {ids : Ids} (declared : K.Declared ids) {t : Ty}
    (made : t.Made K) {k : ScalarKind} {w : Nat} (shape : t.shape? = some (k, w))
    (target : Target) :
    (∀ us v rest, ofScalars target t us = .ok (v, rest) →
      ∃ used, us = used ++ rest ∧ used.length = w) ∧
    (∀ us, Value.Scalars K k us → w ≤ us.length →
      ∃ v, ofScalars target t us = .ok (v, us.drop w) ∧ v.ty = t) ∧
    (∀ xs : List Scalar, xs.length = w → (∀ x ∈ xs, x.kind = k) →
      ∃ v, fromScalars target t (xs.map Scalar.toValue) = .ok v ∧
        Emit.scalars target v = pure (xs.map Scalar.toValue)) ∧
    ∀ c, t.Holds c → ∃ us, Emit.scalars target (.const c t) = pure us ∧
      fromScalars target t us = .ok (.const c t) := by
  have closed := declared.closed_below.1
  refine ⟨fun us v rest => ofScalars_uses shape, fun us scalars enough => ?_, ?_, fun c holds => ?_⟩
  · obtain ⟨v, run, _, ty⟩ := closed.ofScalars_ok made.over shape enough scalars target
    exact ⟨v, run, ty⟩
  · rintro xs rfl kinds
    exact scalars_fromScalars shape kinds target
  · obtain ⟨xs, rfl, kinds, run⟩ := exists_ofScalars closed made.over shape holds target
    have whole : fromScalars target t (xs.map Scalar.toValue) = .ok (.const c t) := by
      have run := run []
      rw [List.append_nil] at run
      simp [fromScalars, run, Except.map]
    obtain ⟨v, together, apart⟩ := scalars_fromScalars shape kinds target
    cases whole.symm.trans together
    exact ⟨_, apart, whole⟩

/-- Three whole numbers, two of them in a nested struct beside a field that keeps nothing. -/
theorem scalars_inverse_nested : ∃ (t : Ty) (v : Value), t.shape? = some (.int, 3) ∧
    fromScalars .glsl t [.int 1, .int 2, .int 3] = .ok v ∧
    Emit.scalars .glsl v = pure [.int 1, .int 2, .int 3] := by
  obtain ⟨empty, pair, s, first, second, third, shape⟩ : ∃ empty pair s : Struct,
      Struct.declareGroup [⟨"e", []⟩] false ⟨1⟩ = .ok [empty] ⟨3⟩ ∧
      Struct.declareGroup [⟨"p", [⟨"x", .i32⟩, ⟨"y", .i32⟩]⟩] false ⟨3⟩ = .ok [pair] ⟨5⟩ ∧
      Struct.declareGroup [⟨"t", [⟨"e", .struct empty⟩, ⟨"n", .i32⟩, ⟨"p", .struct pair⟩]⟩] false
        ⟨5⟩ = .ok [s] ⟨7⟩ ∧ (Ty.struct s).shape? = some (.int, 3) :=
    ⟨_, _, _, rfl, rfl, rfl, rfl⟩
  have one := (Known.Declared.start ⟨1⟩).group (by simp) first
  have two := one.group (by simpa using .scalar _) second
  have three := two.group (by
    simp only [List.mem_cons, List.not_mem_nil, or_false, forall_eq, forall_eq_or_imp]
    exact ⟨.struct (by simp [Known.add]), .scalar _, .struct (by simp [Known.add])⟩) third
  obtain ⟨v, together, apart⟩ := (scalars_inverse three (.struct (.inr (by simp))) shape .glsl).2.2.1
    [.int 1, .int 2, .int 3] rfl (by simp [Scalar.kind])
  exact ⟨_, v, shape, together, apart⟩

end Value

end Ember

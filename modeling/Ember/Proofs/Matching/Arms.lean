import Ember.Proofs.Matching

/-!
# Which arm of a `match` a constant takes

The test of a pattern and the binding of its names go through the pattern each on its own. Both take
a constant apart in the same way, so the first arm whose pattern describes the form of the constant
is the one whose body is lowered, and its names stand for the parts.
-/

set_option autoImplicit false

namespace Ember

open Emit

/-! ## Parts of constants -/

/-- The failure of a `match` that no arm is left for. -/
def Located.IsNotExhaustive (f : Failure) : Prop := f.what = .problem .notExhaustive

structure Value.Settled (K : Known) (v : Value) : Prop where
  valid : v.Over K
  const : ∃ c, v.payload = .const c

theorem Value.settled_const {K : Known} {t : Ty} {c : Constant} (valid : t.Over K)
    (holds : t.Holds c) : (Value.const c t).Settled K :=
  ⟨Value.over_const valid holds, c, rfl⟩

theorem Value.Settled.mono {K L : Known} (sub : K.Sub L) {v : Value} (h : v.Settled K) :
    v.Settled L :=
  ⟨h.valid.mono sub, h.const⟩

variable {α β : Type}

/-- An action that changes nothing, and does not find that a `match` is out of arms. -/
def Looks (act : Emit α) (s : Emission) (P : α → Prop) : Prop :=
  Ends act s (fun a t => t = s ∧ P a) fun f _ => ¬ f.IsNotExhaustive

namespace Looks

variable {act : Emit α} {s : Emission} {P : α → Prop} {K : Known} {cx : Lowering} {v : Value}

theorem observes (h : Looks act s P) : Observes act s P := by
  intro a t run
  simpa [Looks, Ends, run] using h

theorem pure {a : α} (h : P a) : Looks (pure a) s P := Ends.pure ⟨rfl, h⟩

theorem problem {p : Problem} (other : p ≠ .notExhaustive) : Looks (Emit.problem p) s P :=
  Ends.throw (by simpa [Located.IsNotExhaustive, Failure.problem] using other)

theorem look (f : Emission → α) : Looks (Emit.look f) s fun a => a = f s := ⟨rfl, rfl⟩

theorem lift {x : Except Failure α} {a : α} (run : x = .ok a) (h : P a) : Looks (liftM x) s P := by
  rw [run]
  exact pure h

theorem bind {next : α → Emit β} {good : β → Emission → Prop} (h : Looks act s P)
    (then_ : ∀ a, P a → Ends (next a) s good fun f _ => ¬ f.IsNotExhaustive) :
    Ends (act >>= next) s good fun f _ => ¬ f.IsNotExhaustive := by
  refine Ends.bind (Ends.mono h ?_ fun _ _ => id)
  rintro a _ ⟨rfl, holds⟩
  exact then_ a holds

theorem locating {span : Span} (h : Looks act s P) : Looks (Emit.locating span act) s P := by
  unfold Looks Ends Emit.locating at *
  cases run : act s with
  | ok a t => simpa [run] using h
  | error f t => simpa [run, Located.IsNotExhaustive] using h

theorem patternStruct (own : s.Over K) {ty : Ty} (valid : ty.Over K) (name : Ident) :
    Looks (Lowering.patternStruct name ty) s fun r => ty = .struct r := by
  refine bind (look _) fun env is => locating ?_
  subst is
  split
  · rename_i r found
    split
    · rename_i same
      exact pure (own.program.closed.eq_of_same (own.program.type? found) valid same).symm
    · exact problem (by simp)
  · exact problem (by simp)
  · exact problem (by simp)

theorem checkFields (r : Struct) (names : List String) :
    Looks (Lowering.checkFields r names) s fun _ => True := by
  unfold Lowering.checkFields
  split
  · exact problem (by simp)
  · split
    · exact problem (by simp)
    · exact pure trivial

theorem checkArrayPattern (ty : Ty) (count : Nat) (rest : Bool) :
    Looks (Lowering.checkArrayPattern ty count rest) s fun _ => ty.hasItems count rest = true := by
  unfold Lowering.checkArrayPattern
  split
  · exact problem (by simp)
  · rename_i of len array
    split
    · exact problem (by simp)
    · rename_i fits
      refine pure ?_
      cases rest with
      | true => simpa [Ty.hasItems, array] using fits
      | false =>
        have fits : count ≤ len ∧ count = len := by simpa using fits
        simpa [Ty.hasItems, array] using fits.2

theorem patternField (r : Struct) (name : Ident) :
    Looks (Lowering.patternField r name) s fun i => r.fieldIndex? name.name = some i := by
  unfold Lowering.patternField
  split
  · rename_i i found
    exact pure found
  · exact locating (problem (by simp))

theorem field (own : s.Over K) (h : v.Settled K) {r : Struct} (ty : v.ty = .struct r)
    {name : String} {i : Nat} (found : r.fieldIndex? name = some i) (target : Target) :
    Looks (liftM (v.field target i)) s fun w => v.fieldPart name = some w ∧ w.Settled K := by
  obtain ⟨c, known⟩ := h.const
  obtain ⟨cs, rfl, holds⟩ : ∃ cs, c = .aggregate cs ∧
      List.Forall₂ (fun f c => f.ty.Holds c) r.fields cs := by
    have holds := h.valid.const c known
    rw [ty, Ty.Holds] at holds
    exact (Struct.holds_iff r c).mp holds
  have lt := (List.findIdx?_eq_some_iff_findIdx_eq.mp found).1
  have lt' : i < cs.length := holds.length_eq ▸ lt
  have declared : (Ty.struct r).Over K := ty ▸ h.valid.ty
  have type := own.program.closed.fields r declared _ (List.getElem_mem lt)
  refine lift (a := .const cs[i] (r.fields[i]).ty) ?_ ⟨?_, ?_⟩
  · simp [Value.field, ty, Ty.struct?, lt, known, Code.items, lt', Bind.bind, Except.bind,
      Pure.pure, Except.pure]
  · simp [Value.fieldPart, ty, Ty.field?, found, lt, Value.const?, known, Constant.items?, lt']
  · exact Value.settled_const type (holds.get lt lt')

/-- Places that are too far on come out below zero. -/
theorem elementAt (h : v.Settled K) {i : Nat} (bound : i ≤ 2 ^ 31) :
    Looks (cx.elementAt v i) s fun w => i < 2 ^ 31 ∧ v.itemPart i = some w ∧ w.Settled K := by
  obtain ⟨c, known⟩ := h.const
  have type := h.valid.ty
  have holds := h.valid.const c known
  unfold Lowering.elementAt Emit.index
  cases ty : v.ty with
  | array of len =>
    rw [ty] at type holds
    obtain ⟨cs, rfl, rfl, each⟩ : ∃ cs, c = .aggregate cs ∧ cs.length = len ∧
        ∀ x ∈ cs, of.Holds x := by simpa [Ty.Holds] using holds
    refine bind (lift (Value.convert_scalar rfl) rfl) fun n is => ?_
    subst is
    change Looks (if Int32.ofNat i < 0 || (Int32.ofNat i).toInt ≥ cs.length then _ else _) s _
    split
    · exact problem (by simp)
    · rename_i inside
      obtain ⟨least, within⟩ : 0 ≤ Int32.ofNat i ∧ (Int32.ofNat i).toInt < cs.length := by
        simpa using inside
      have near : i < 2 ^ 31 := by
        refine lt_of_le_of_ne bound ?_
        rintro rfl
        exact absurd least (by decide)
      have place : (Int32.ofNat i).toInt = i := Int32.toInt_ofNat_of_lt near
      have lt : i < cs.length := by omega
      have at_i : cs[(Int32.ofNat i).toInt.toNat]? = some cs[i] := by
        rw [place, Int.toNat_natCast, List.getElem?_eq_getElem lt]
      have items : v.const?.bind Constant.items? = some cs := by
        simp [Value.const?, known, Constant.items?]
      simp only [items, at_i]
      refine pure ⟨near, ?_, Value.settled_const type.1 (each _ (List.getElem_mem lt))⟩
      simp [Value.itemPart, ty, Ty.array?, items, lt]
  | scalar k => exact problem (by simp)
  | struct r => exact problem (by simp)
  | alt first others => exact problem (by simp)

end Looks

/-! ## Tests -/

theorem Lowering.both_bool {cx : Lowering} (a b : Bool) (span : Span) :
    cx.both (.bool a) (.bool b) span = pure (.bool (a && b)) := by
  cases a <;> cases b <;> rfl

namespace Observes

variable {K : Known} {cx : Lowering} {s : Emission}

mutual

/-- The test of a constant is known, and is whether the constant is of the form of the pattern. -/
theorem testPattern (own : s.Over K) (prelude : s.program.EqualsAsPrelude) {v : Value}
    (h : v.Settled K) :
    ∀ p : Pat, Observes (cx.testPattern p v) s fun test => test = .bool (p.admits v)
  | ⟨.ignore, _⟩ => by
    rw [Lowering.testPattern, Pat.admits]
    exact pure rfl
  | ⟨.bind name mutable, _⟩ => by
    rw [Lowering.testPattern, Pat.admits]
    exact pure rfl
  | ⟨.lit l, span⟩ => by
    rw [Lowering.testPattern, Pat.admits]
    obtain ⟨c, known⟩ := h.const
    exact equality prelude h.valid known l span
  | ⟨.struct name fields _, span⟩ => by
    rw [Lowering.testPattern, Pat.admits]
    refine bind (Looks.patternStruct own h.valid.ty name).observes fun r ty => ?_
    rw [ty, Ty.isStruct]
    exact testFields own prelude h ty span true fields
  | ⟨.array items rest, span⟩ => by
    rw [Lowering.testPattern, Pat.admits]
    refine bind (Looks.checkArrayPattern v.ty items.length rest).observes fun _ fits => ?_
    rw [fits]
    exact testItems own prelude h span true (Nat.zero_le _) items

theorem testFields (own : s.Over K) (prelude : s.program.EqualsAsPrelude) {v : Value}
    (h : v.Settled K) {r : Struct} (ty : v.ty = .struct r) (span : Span) (all : Bool) :
    ∀ fs : List FieldPat, Observes (cx.testFields span r (.bool all) fs v) s
      fun test => test = .bool (all && FieldPat.allAdmit fs v)
  | [] => by
    rw [Lowering.testFields, FieldPat.allAdmit, Bool.and_true]
    exact pure rfl
  | ⟨name, p⟩ :: fs => by
    rw [Lowering.testFields, FieldPat.allAdmit]
    refine bind (Looks.patternField r name).observes fun i found => ?_
    refine bind (Looks.field own h ty found cx.target).observes fun part is => ?_
    rw [is.1, Option.any_some, ← Bool.and_assoc]
    refine bind (testPattern own prelude is.2 p) fun test known => ?_
    rw [known, Lowering.both_bool, pure_bind]
    exact testFields own prelude h ty span (all && p.admits part) fs

theorem testItems (own : s.Over K) (prelude : s.program.EqualsAsPrelude) {v : Value}
    (h : v.Settled K) (span : Span) (all : Bool) {i : Nat} (bound : i ≤ 2 ^ 31) :
    ∀ ps : List Pat, Observes (cx.testItems span i (.bool all) ps v) s
      fun test => test = .bool (all && Pat.allAdmit i ps v)
  | [] => by
    rw [Lowering.testItems, Pat.allAdmit, Bool.and_true]
    exact pure rfl
  | p :: ps => by
    rw [Lowering.testItems, Pat.allAdmit]
    refine bind (Looks.elementAt h bound).observes fun part is => ?_
    obtain ⟨near, is, settled⟩ := is
    rw [is, Option.any_some, ← Bool.and_assoc]
    refine bind (testPattern own prelude settled p) fun test known => ?_
    rw [known, Lowering.both_bool, pure_bind]
    exact testItems own prelude h span (all && p.admits part) near ps

end

end Observes

namespace Lowering

variable {cx : Lowering} {s t : Emission} {test : Value}

mutual

/-- The test of a pattern that matches everything is known of every value. -/
theorem testPattern_irrefutable {v : Value} : ∀ p : Pat, p.isIrrefutable = true →
    ∀ {s t : Emission} {test : Value}, cx.testPattern p v s = .ok test t → test = .bool true
  | ⟨.ignore, _⟩, _, _, _, _, run => by
    rw [testPattern] at run
    cases run
    rfl
  | ⟨.bind name mutable, _⟩, _, _, _, _, run => by
    rw [testPattern] at run
    cases run
    rfl
  | ⟨.lit l, _⟩, always, _, _, _, _ => by
    rw [Pat.isIrrefutable] at always
    cases always
  | ⟨.struct name fields _, span⟩, always, _, _, _, run => by
    rw [Pat.isIrrefutable] at always
    rw [testPattern] at run
    obtain ⟨r, _, _, run⟩ := bind_eq_ok.mp run
    exact testFields_irrefutable fields always run
  | ⟨.array items rest, span⟩, always, _, _, _, run => by
    rw [Pat.isIrrefutable] at always
    rw [testPattern] at run
    obtain ⟨_, _, _, run⟩ := bind_eq_ok.mp run
    exact testItems_irrefutable items always run

theorem testFields_irrefutable {v : Value} {span : Span} {r : Struct} :
    ∀ fs : List FieldPat, FieldPat.allIrrefutable fs = true → ∀ {s t : Emission} {test : Value},
      cx.testFields span r (.bool true) fs v s = .ok test t → test = .bool true
  | [], _, _, _, _, run => by
    rw [testFields] at run
    cases run
    rfl
  | ⟨name, p⟩ :: fs, always, _, _, _, run => by
    rw [FieldPat.allIrrefutable, Bool.and_eq_true] at always
    rw [testFields] at run
    obtain ⟨i, _, _, run⟩ := bind_eq_ok.mp run
    obtain ⟨part, _, _, run⟩ := bind_eq_ok.mp run
    obtain ⟨test', _, tested, run⟩ := bind_eq_ok.mp run
    rw [testPattern_irrefutable p always.1 tested, both_bool, pure_bind] at run
    exact testFields_irrefutable fs always.2 run

theorem testItems_irrefutable {v : Value} {span : Span} {i : Nat} :
    ∀ ps : List Pat, Pat.allIrrefutable ps = true → ∀ {s t : Emission} {test : Value},
      cx.testItems span i (.bool true) ps v s = .ok test t → test = .bool true
  | [], _, _, _, _, run => by
    rw [testItems] at run
    cases run
    rfl
  | p :: ps, always, _, _, _, run => by
    rw [Pat.allIrrefutable, Bool.and_eq_true] at always
    rw [testItems] at run
    obtain ⟨part, _, _, run⟩ := bind_eq_ok.mp run
    obtain ⟨test', _, tested, run⟩ := bind_eq_ok.mp run
    rw [testPattern_irrefutable p always.1 tested, both_bool, pure_bind] at run
    exact testItems_irrefutable ps always.2 run

end

end Lowering

/-! ## Names -/

/-- What safety says of a run, beside what is known of it. -/
theorem Ends.and_safe {act : Emit α} {s : Emission} {K : Known} {good : α → Emission → Prop}
    {bad : Failure → Emission → Prop} {Q : Known → α → Prop} (h : Ends act s good bad)
    (safe : Safe K act Q) (own : s.Over K) :
    Ends act s (fun a t => good a t ∧ ∃ L, K.Sub L ∧ t.Over L) bad := by
  have also := safe s own
  unfold Ends at *
  cases run : act s with
  | ok a t =>
    rw [run] at h also
    obtain ⟨L, sub, state, _⟩ := also
    exact ⟨h, L, sub, state⟩
  | error f t =>
    rw [run] at h
    exact h

namespace Lowering

variable {cx : Lowering}

/-- Binds the names of a list of parts, or fails before it is through. -/
def BindsParts (cx : Lowering) (act : Emit Unit) (parts : List Pat.Named) (s : Emission) : Prop :=
  Ends act s (fun _ t => (forM parts cx.bindPart : Emit Unit) s = .ok () t)
    fun f _ => ¬ f.IsNotExhaustive

/-- A value that keeps something can be bound. -/
theorem bindLocal_ok {K : Known} (closed : K.Closed) {v : Value} (h : v.Over K) (name : String)
    (mutable : Bool) (s : Emission) : ∃ t, cx.bindLocal name mutable v s = .ok () t := by
  unfold bindLocal
  split
  · exact ⟨_, rfl⟩
  · rename_i kept
    obtain ⟨code, written⟩ := closed.toCode_ok h (by simpa using kept) cx.target
    split
    · exact ⟨_, rfl⟩
    · split
      · simp only [ownedCode, written]
        exact ⟨_, rfl⟩
      · simp only [written]
        exact ⟨_, rfl⟩

namespace BindsParts

variable {s : Emission} {K : Known} {v : Value}

theorem nil : cx.BindsParts (pure ()) [] s := rfl

/-- One part after the other. -/
theorem append {first rest : Emit Unit} {before after : List Pat.Named} (own : s.Over K)
    (safe : Safe K first fun _ _ => True) (h : cx.BindsParts first before s)
    (then_ : ∀ (L : Known) (t : Emission), K.Sub L → t.Over L → cx.BindsParts rest after t) :
    cx.BindsParts (do first; rest) (before ++ after) s := by
  refine Ends.bind (Ends.mono (Ends.and_safe h safe own) ?_ fun _ _ => id)
  rintro ⟨⟩ t ⟨bound, L, sub, state⟩
  refine Ends.mono (then_ L t sub state) ?_ fun _ _ => id
  rintro ⟨⟩ u last
  rw [List.forM_append]
  change EStateM.bind _ _ s = _
  rw [EStateM.bind, bound]
  exact last

theorem bindLocal (own : s.Over K) (h : v.Over K) (name : String) (mutable : Bool) :
    cx.BindsParts (cx.bindLocal name mutable v) [⟨name, mutable, v⟩] s := by
  obtain ⟨t, run⟩ : ∃ t, cx.bindLocal name mutable v s = .ok () t :=
    bindLocal_ok own.program.closed h name mutable s
  unfold BindsParts Ends
  rw [run]
  change EStateM.bind (cx.bindLocal name mutable v) _ s = _
  rw [EStateM.bind, run]
  rfl

mutual

theorem bindPattern {K : Known} {s : Emission} {v : Value} (own : s.Over K) (h : v.Settled K) :
    ∀ p : Pat, cx.BindsParts (cx.bindPattern p v) (p.parts v) s
  | ⟨.ignore, _⟩ => by
    obtain ⟨c, known⟩ := h.const
    rw [Lowering.bindPattern, Pat.parts]
    unfold Emit.discard
    rw [known]
    exact nil
  | ⟨.lit l, _⟩ => by
    rw [Lowering.bindPattern, Pat.parts]
    exact nil
  | ⟨.bind name mutable, _⟩ => by
    rw [Lowering.bindPattern, Pat.parts]
    exact bindLocal own h.valid name mutable
  | ⟨.struct name fields more, span⟩ => by
    obtain ⟨c, known⟩ := h.const
    rw [Lowering.bindPattern, Pat.parts, cache_const known]
    simp only [pure_bind]
    refine Looks.bind (Looks.patternStruct own h.valid.ty name) fun r ty => ?_
    have rest := bindFields own h ty fields
    split
    · exact Looks.bind (Looks.locating (Looks.checkFields r _)) fun _ _ => rest
    · exact rest
  | ⟨.array items more, _⟩ => by
    obtain ⟨c, known⟩ := h.const
    rw [Lowering.bindPattern, Pat.parts, cache_const known]
    simp only [pure_bind]
    refine Looks.bind (Looks.checkArrayPattern v.ty items.length more) fun _ _ => ?_
    exact bindItems own h (Nat.zero_le _) items

theorem bindFields {K : Known} {s : Emission} {v : Value} (own : s.Over K) (h : v.Settled K)
    {r : Struct} (ty : v.ty = .struct r) :
    ∀ fs : List FieldPat, cx.BindsParts (cx.bindFields r fs v) (FieldPat.allParts fs v) s
  | [] => by
    rw [Lowering.bindFields, FieldPat.allParts]
    exact nil
  | ⟨name, p⟩ :: fs => by
    rw [Lowering.bindFields, FieldPat.allParts]
    refine Looks.bind (Looks.patternField r name) fun i found => ?_
    refine Looks.bind (Looks.field own h ty found cx.target) fun part is => ?_
    obtain ⟨is, settled⟩ := is
    rw [is, Option.toList_some, List.flatMap_singleton]
    refine append own (Safe.bindPattern settled.valid) (bindPattern own settled p) ?_
    exact fun L t sub state => bindFields state (h.mono sub) ty fs

theorem bindItems {K : Known} {s : Emission} {v : Value} (own : s.Over K) (h : v.Settled K)
    {i : Nat} (bound : i ≤ 2 ^ 31) :
    ∀ ps : List Pat, cx.BindsParts (cx.bindItems i ps v) (Pat.allParts i ps v) s
  | [] => by
    rw [Lowering.bindItems, Pat.allParts]
    exact nil
  | p :: ps => by
    rw [Lowering.bindItems, Pat.allParts]
    refine Looks.bind (Looks.elementAt h bound) fun part is => ?_
    obtain ⟨near, is, settled⟩ := is
    rw [is, Option.toList_some, List.flatMap_singleton]
    refine append own (Safe.bindPattern settled.valid) (bindPattern own settled p) ?_
    exact fun L t sub state => bindItems state (h.mono sub) near ps

end

end BindsParts

/-! ## Arms -/

/-- An arm whose test is known is taken or left out. -/
theorem arms_of_test {v : Value} {s : Emission} {a : MatchArm} {test : Bool} (span : Span)
    (rest : List MatchArm) (run : cx.testPattern a.pat v s = .ok (.bool test) s) :
    cx.arms v span (a :: rest) s =
      if test then nested (cx.arm v a) s else cx.arms v span rest s := by
  have located : locating a.pat.span (cx.testPattern a.pat v) s = .ok (.bool test) s := by
    rw [locating, run]
  rw [arms]
  change EStateM.bind _ _ s = _
  rw [EStateM.bind, located]
  cases test <;> rfl

def firstArm? (v : Value) (all : List MatchArm) : Option MatchArm := all.find? (·.pat.admits v)

/-- The arms up to the first that the constant is of the form of, or all if there is none. -/
def triedArms (v : Value) (all : List MatchArm) : List MatchArm :=
  all.take (all.findIdx (·.pat.admits v) + 1)

/-- The first arm that fits is taken, and if there is none, that is a failure. -/
theorem arms_eq {K : Known} {s : Emission} {v : Value} (own : s.Over K) (h : v.Settled K)
    (prelude : s.program.EqualsAsPrelude) (span : Span) {all : List MatchArm}
    (tested : ∀ a ∈ triedArms v all, ∃ test t, cx.testPattern a.pat v s = .ok test t) :
    cx.arms v span all s = (firstArm? v all).elim (locating span (problem .notExhaustive))
      (fun a => nested (cx.arm v a)) s := by
  induction all with
  | nil => rfl
  | cons a rest ih =>
    obtain ⟨test, t, run⟩ := tested a (by simp [triedArms])
    obtain ⟨rfl, rfl⟩ := Observes.testPattern own prelude h a.pat test t run
    rw [arms_of_test span rest run, firstArm?, List.find?_cons]
    cases fits : a.pat.admits v with
    | true => rfl
    | false =>
      refine ih fun b member => tested b ?_
      simp only [triedArms, List.findIdx_cons, fits] at member ⊢
      exact List.mem_cons_of_mem _ member

section

variable {v : Value} {a : MatchArm} {s t : Emission}

/-- An arm after its names are bound. -/
theorem arm_of_ok {u : Unit} (run : cx.bindPattern a.pat v s = .ok u t) :
    cx.arm v a s = cx.expr a.body t := by
  change EStateM.bind _ _ s = _
  rw [EStateM.bind, run]

theorem arm_of_error {f : Failure} (run : cx.bindPattern a.pat v s = .error f t) :
    cx.arm v a s = .error f t := by
  change EStateM.bind _ _ s = _
  rw [EStateM.bind, run]

end

/-- Blocks are as their actions are inside. -/
theorem nested_congr {act act' : Emit α} {s : Emission} (same : act s.entered = act' s.entered) :
    nested act s = nested act' s := by
  change EStateM.bind _ _ s = EStateM.bind _ _ s
  rw [EStateM.bind, EStateM.bind, inBlock_run, inBlock_run, same]

/-- A block fails where its action does. -/
theorem nested_error_iff {act : Emit α} {s : Emission} {f : Failure} :
    (∃ t, nested act s = .error f t) ↔ ∃ t, act s.entered = .error f t := by
  change (∃ t, EStateM.bind (inBlock act) _ s = _) ↔ _
  unfold EStateM.bind
  rw [inBlock_run]
  cases act s.entered with
  | ok a t => exact ⟨fun ⟨_, run⟩ => (by cases run), fun ⟨_, run⟩ => (by cases run)⟩
  | error g t =>
    constructor
    · rintro ⟨_, ⟨⟩⟩
      exact ⟨t, rfl⟩
    · rintro ⟨_, ⟨⟩⟩
      exact ⟨_, rfl⟩

structure TakesFirst (cx : Lowering) (v : Value) (span : Span) (all : List MatchArm)
    (s : Emission) : Prop where
  /-- The body of the first arm that fits, under the names of its pattern, unless the pattern is
  not right for the type. -/
  body : ∀ a, firstArm? v all = some a →
    cx.arms v span all s = nested (do forM (a.pat.parts v) cx.bindPart; cx.expr a.body) s ∨
    ∃ f t u, cx.bindPattern a.pat v s.entered = .error f t ∧ cx.arms v span all s = .error f u
  exhausted : firstArm? v all = none →
    cx.arms v span all s = .error ((Failure.problem .notExhaustive).locate span) s
  /-- That no arm is left is said of this `match` only if no arm fits. -/
  reports : (∀ a ∈ all, ∀ t f u, cx.expr a.body t = .error f u → ¬ f.IsNotExhaustive) →
    ((∃ f t, cx.arms v span all s = .error f t ∧ f.IsNotExhaustive) ↔
      ∀ a ∈ all, a.pat.admits v = false)

theorem takesFirst {K : Known} {s : Emission} {v : Value} (own : s.Over K) (h : v.Settled K)
    (prelude : s.program.EqualsAsPrelude) (span : Span) {all : List MatchArm}
    (tested : ∀ a ∈ triedArms v all, ∃ test t, cx.testPattern a.pat v s = .ok test t) :
    cx.TakesFirst v span all s := by
  have result := arms_eq own h prelude span tested
  have binds (a : MatchArm) : cx.BindsParts (cx.bindPattern a.pat v) (a.pat.parts v) s.entered :=
    .bindPattern own.entered h a.pat
  have exhausted (none_fits : firstArm? v all = none) :
      cx.arms v span all s = .error ((Failure.problem .notExhaustive).locate span) s := by
    rw [result, none_fits]
    rfl
  refine ⟨fun a first => ?_, exhausted, fun bodies => ⟨?_, ?_⟩⟩
  · rw [first] at result
    have bound := binds a
    unfold BindsParts Ends at bound
    cases run : cx.bindPattern a.pat v s.entered with
    | ok u t =>
      rw [run] at bound
      refine .inl (result.trans (nested_congr ?_))
      change EStateM.bind _ _ _ = EStateM.bind _ _ _
      rw [EStateM.bind, EStateM.bind, run, bound]
    | error f t =>
      obtain ⟨u, failed⟩ := nested_error_iff.mpr ⟨t, arm_of_error run⟩
      exact .inr ⟨f, t, u, rfl, result.trans failed⟩
  · rintro ⟨f, t, failed, reported⟩
    cases first : firstArm? v all with
    | none => simpa [firstArm?] using first
    | some a =>
      rw [result, first] at failed
      obtain ⟨u, inside⟩ := nested_error_iff.mp ⟨t, failed⟩
      have bound := binds a
      unfold BindsParts Ends at bound
      cases run : cx.bindPattern a.pat v s.entered with
      | ok _ m =>
        rw [arm_of_ok run] at inside
        exact absurd reported (bodies a (List.mem_of_find?_eq_some first) m f u inside)
      | error g m =>
        rw [arm_of_error run] at inside
        cases inside
        rw [run] at bound
        exact absurd reported bound
  · intro none_fits
    refine ⟨_, s, exhausted ?_, ?_⟩
    · simpa [firstArm?] using none_fits
    · simp [Located.IsNotExhaustive, Failure.problem]

/-- A `match` on a constant takes the first arm that the constant is of the form of, if all tests up
to it can be made. The test of a pattern that matches everything is known of any value. -/
theorem arms_takesFirst (cx : Lowering) :
    (∀ (K : Known) (s : Emission) (v : Value) (span : Span) (all : List MatchArm), s.Over K →
      v.Over K → v.isConst = true → s.program.EqualsAsPrelude →
      (∀ a ∈ triedArms v all, ∃ test t, cx.testPattern a.pat v s = .ok test t) →
      cx.TakesFirst v span all s) ∧
    ∀ (p : Pat) (v : Value) (s : Emission) (test : Value) (t : Emission), p.isIrrefutable = true →
      cx.testPattern p v s = .ok test t → test = .bool true := by
  constructor
  · intro K s v span all own valid known prelude tested
    refine takesFirst own ⟨valid, ?_⟩ prelude span tested
    cases payload : v.payload with
    | const c => exact ⟨c, rfl⟩
    | code c => simp [Value.isConst, Value.const?, payload] at known
  · intro p v s test t always run
    exact testPattern_irrefutable p always run

def threeFour : Value :=
  .const (.aggregate [.scalar (.int 3), .scalar (.int 4)]) (.array .i32 2)

/-- `[a, 4] => a` -/
def armOfFour : MatchArm :=
  ⟨⟨.array [⟨.bind "a" false, default⟩, ⟨.lit (.int 4), default⟩] false, default⟩,
    ⟨.ident "a", default⟩, default⟩

/-- `[3, 5] => 0, [a, 4] => a, _ => 1` -/
def armsOfFour : List MatchArm :=
  [⟨⟨.array [⟨.lit (.int 3), default⟩, ⟨.lit (.int 5), default⟩] false, default⟩,
      ⟨.lit (.int 0), default⟩, default⟩,
    armOfFour, ⟨⟨.ignore, default⟩, ⟨.lit (.int 1), default⟩, default⟩]

/-- Whether a program has no functions of its own, the arms can be tried in it, and the name in the
one for four can be bound. -/
def fourRuns (p : Program) : Bool :=
  let s : Emission := { program := p }
  p.env.own.functions.isEmpty && ((triedArms threeFour armsOfFour).all fun a =>
    (((toTarget .js).testPattern a.pat threeFour).run' s).isSome) &&
  (((toTarget .js).bindPattern armOfFour.pat threeFour).run' s.entered).isSome

theorem start_fourRuns : Program.start.toOption.any fourRuns = true := by decide +kernel

theorem firstArm?_four : firstArm? threeFour armsOfFour = some armOfFour := by rfl

/-- The second arm is taken, with `a` for the first element. -/
theorem arms_takesFirst_four : ∃ p, Program.start = .ok p ∧
    (toTarget .js).arms threeFour default armsOfFour { program := p } =
      nested (do
        forM [⟨"a", false, .int 3⟩] (toTarget .js).bindPart
        (toTarget .js).expr armOfFour.body) { program := p } := by
  have runs := start_fourRuns
  obtain ⟨p, start⟩ := Program.exists_start
  rw [start] at runs
  obtain ⟨⟨bare, tested⟩, bound⟩ : (p.env.own.functions.isEmpty ∧ _) ∧ _ := by
    simpa only [fourRuns, Except.toOption, Option.any_some, Bool.and_eq_true] using runs
  obtain ⟨K, valid⟩ := Program.start_over start
  have own : Emission.Over K { program := p } := ⟨valid, by simp [Level.Over], by simp, by simp⟩
  have subject : threeFour.Over K := by
    refine Value.over_const ⟨trivial, by decide⟩ ?_
    simp [Ty.Holds, Ty.i32, Scalar.kind]
  have prelude : p.EqualsAsPrelude :=
    .of_unnamed start rfl (by simp [List.isEmpty_iff.mp bare])
  have first := ((arms_takesFirst (toTarget .js)).1 K { program := p } threeFour default armsOfFour
    own subject rfl prelude fun a member => ?_).body armOfFour firstArm?_four
  · refine ⟨p, start, first.resolve_right ?_⟩
    rintro ⟨f, t, u, failed, _⟩
    simp [EStateM.run', EStateM.run, failed] at bound
  · have some_ := List.all_eq_true.mp tested a member
    unfold EStateM.run' at some_
    split at some_
    · rename_i test t run
      exact ⟨test, t, run⟩
    · cases some_

end Lowering

end Ember

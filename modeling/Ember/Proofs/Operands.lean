import Ember.Proofs.Reached

/-!
# Code that stands beside any operator

Lowering is in many states on its way: in the blocks and loops of a function, in the body of one
that is called, or in that of one that is computed. `Emission.Reached` says which states these are,
together with what lowering has in hand then. In each of them, the code of an expression is atomic.
-/

set_option autoImplicit false

namespace Ember

open Emit

/-- States that lowering for a target comes to, with the values and the types that it has in hand:
those that it may bind to names later, or call a template with. -/
inductive Emission.Reached (target : Target) : Emission → List Value → List Ty → Prop
  /-- Between items. -/
  | rest {p rs} : p.Reached rs → Reached target { program := p } [] []
  /-- When a number is taken, for a name. -/
  | number {s vs ts} : Reached target s vs ts →
    Reached target { s with program := { s.program with ids := s.program.ids.number.2 } } vs ts
  /-- After an expression. -/
  | expr {s vs ts n e v t} : Reached target s vs ts →
    (Lowering.ofDepth target n).expr e s = .ok v t → Reached target t (v :: vs) ts
  /-- After a type. -/
  | type {s vs ts n e ty t} : Reached target s vs ts →
    (Lowering.ofDepth target n).type e s = .ok ty t → Reached target t vs (ty :: ts)
  /-- After a statement. -/
  | stmt {s vs ts n e t} : Reached target s vs ts →
    (Lowering.ofDepth target n).stmt e s = .ok () t → Reached target t vs ts
  /-- In a block of its own. -/
  | block {s vs ts} : Reached target s vs ts → Reached target s.entered vs ts
  /-- After a side of a condition. -/
  | side {s vs ts n b side t} : Reached target s vs ts →
    inBlock ((Lowering.ofDepth target n).block b) s = .ok side t → Reached target t vs ts
  /-- With the subject of a `match` in hand. -/
  | subject {s vs ts v u t} : Reached target s vs ts → v ∈ vs → cache target v s = .ok u t →
    Reached target t (u :: vs) ts
  /-- After the test of a pattern. -/
  | test {s vs ts v n pat u t} : Reached target s vs ts → v ∈ vs →
    (Lowering.ofDepth target n).testPattern pat v s = .ok u t → Reached target t vs ts
  /-- With the names of a pattern. -/
  | bound {s vs ts v n pat t} : Reached target s vs ts → v ∈ vs →
    (Lowering.ofDepth target n).bindPattern pat v s = .ok () t → Reached target t vs ts
  /-- After an arm of a `match`. -/
  | arm {s vs ts v n a side t} : Reached target s vs ts → v ∈ vs →
    inBlock ((Lowering.ofDepth target n).arm v a) s = .ok side t → Reached target t vs ts
  /-- In the body of a loop. -/
  | loop {s vs ts n pat iter k t m u} (l : Loop) : Reached target s vs ts →
    (Lowering.ofDepth target n).counter pat iter s = .ok k t →
    (Lowering.ofDepth target m).bindPattern pat k.element (t.looping l).entered = .ok () u →
    Reached target u vs ts
  /-- At the types of a function. -/
  | signature {s vs ts args} (f : UserFn) : Reached target s vs ts → (∀ t ∈ args, t ∈ ts) →
    Reached target { s with frame := f.activation args } [] ts
  /-- When a function is listed that is about to be written. -/
  | listed {s vs ts q f args n inst t} : Reached target s vs ts → q ∈ s.program.functions →
    q.2.behaviour = .user f → (∀ t ∈ args, t ∈ ts) →
    f.sign (.ofDepth target n) args s = .ok inst t →
    Reached target { t with program := t.program.listing ⟨f.id, target, args⟩ inst } vs ts
  /-- In the body of a function that is written. -/
  | body {s vs ts key inst args params t} (f : UserFn) : Reached target s vs ts →
    s.program.instance? key = some inst → (∀ t ∈ args, t ∈ ts) →
    UserFn.bindParams f.decl.params inst.params { s with frame := f.activation args } =
      .ok params t →
    Reached target t [] ts
  /-- After a function was written. -/
  | written {s vs ts q f args n inst t} : Reached target s vs ts → q ∈ s.program.functions →
    q.2.behaviour = .user f → (∀ t ∈ args, t ∈ ts) →
    f.instantiate (.ofDepth target n) args s = .ok inst t → Reached target t vs ts
  /-- In the body of a function that is computed, for values that its parameters take. -/
  | computed {s vs ts key inst args known t} (f : UserFn) : Reached target s vs ts →
    s.program.instance? key = some inst → (∀ t ∈ args, t ∈ ts) →
    (∀ v ∈ known, v.isConst = true ∧ v.ty ∈ inst.params) →
    UserFn.bindArgs f.decl.params known (Emission.entered
      { s with frame := f.activation args, constDepth := s.constDepth + 1 }) = .ok () t →
    Reached target t [] ts

structure World.Holds (w : World) (vs : List Value) (ts : List Ty) : Prop where
  values : ∀ v ∈ vs, v.Fits w
  types : ∀ t ∈ ts, t.Within w.known

theorem World.Holds.mono {w w' : World} (sub : w.Sub w') {vs : List Value} {ts : List Ty}
    (h : w.Holds vs ts) : w'.Holds vs ts :=
  ⟨fun v member => (h.values v member).mono sub, fun t member => (h.types t member).mono sub.known⟩

/-- What lives leads from a state that fits a world to one that fits a larger one. -/
theorem Lives.ok {α : Type} {c : Setting} {w : World} {act : Emit α} {Q : World → α → Prop}
    (h : Lives c w act Q) {s t : Emission} {a : α} (inside : s.In c w) (run : act s = .ok a t) :
    ∃ w', w.Sub w' ∧ t.In c w' ∧ Q w' a := by
  obtain ⟨w', _, writes, _, state, holds⟩ := (h s inside).ok run
  exact ⟨w', writes.sub, state, holds⟩

namespace Emission.Reached

variable {target : Target} {s : Emission} {vs : List Value} {ts : List Ty}

/-- In every state that is reached, what is in hand and in scope fits. -/
theorem inside (h : s.Reached target vs ts) :
    ∃ p w, s.In (.scoping target p) w ∧ w.Holds vs ts := by
  induction h with
  | @rest p rs reached =>
    have rests : Discipline.scoping.Rests { program := p } := ⟨reached.scoping, rfl, rfl, rfl⟩
    obtain ⟨w, inside, _⟩ := rests.inside target
    exact ⟨p, w, inside, by simp, by simp⟩
  | number _ ih =>
    obtain ⟨p, w, inside, holds⟩ := ih
    exact ⟨p, w, inside.numbered (Nat.le_succ _), holds⟩
  | @expr s vs ts n e v t _ run ih =>
    obtain ⟨p, w, inside, holds⟩ := ih
    have abides := Lowering.ofDepth_scoping target p n
    obtain ⟨w', sub, state, fits⟩ := (abides.expr w e).ok inside run
    have holds := holds.mono sub
    exact ⟨p, w', state, List.forall_mem_cons.mpr ⟨fits, holds.values⟩, holds.types⟩
  | @type s vs ts n e ty t _ run ih =>
    obtain ⟨p, w, inside, holds⟩ := ih
    have abides := Lowering.ofDepth_scoping target p n
    obtain ⟨w', sub, state, within⟩ := (Lives.type abides e).ok inside run
    have holds := holds.mono sub
    exact ⟨p, w', state, holds.values, List.forall_mem_cons.mpr ⟨within, holds.types⟩⟩
  | @stmt s vs ts n e t _ run ih =>
    obtain ⟨p, w, inside, holds⟩ := ih
    have abides := Lowering.ofDepth_scoping target p n
    obtain ⟨w', sub, state, _⟩ := (Lives.stmt abides e).ok inside run
    exact ⟨p, w', state, holds.mono sub⟩
  | block _ ih =>
    obtain ⟨p, w, inside, holds⟩ := ih
    exact ⟨p, w, inside.entered, holds⟩
  | @side s vs ts n b side t _ run ih =>
    obtain ⟨p, w, inside, holds⟩ := ih
    have abides := Lowering.ofDepth_scoping target p n
    obtain ⟨w', sub, state, _⟩ := (abides.block w b).inBlock.ok inside run
    exact ⟨p, w', state, holds.mono sub⟩
  | subject _ member run ih =>
    obtain ⟨p, w, inside, holds⟩ := ih
    obtain ⟨w', sub, state, fits⟩ := (Lives.cache (holds.values _ member) target).ok inside run
    have holds := holds.mono sub
    exact ⟨p, w', state, List.forall_mem_cons.mpr ⟨fits, holds.values⟩, holds.types⟩
  | @test s vs ts v n pat u t _ member run ih =>
    obtain ⟨p, w, inside, holds⟩ := ih
    have abides := Lowering.ofDepth_scoping target p n
    obtain ⟨w', sub, state, _⟩ :=
      (Lives.testPattern abides (holds.values v member) pat).ok inside run
    exact ⟨p, w', state, holds.mono sub⟩
  | @bound s vs ts v n pat t _ member run ih =>
    obtain ⟨p, w, inside, holds⟩ := ih
    obtain ⟨w', sub, state, _⟩ := (Lives.bindPattern (holds.values v member) pat).ok inside run
    exact ⟨p, w', state, holds.mono sub⟩
  | @arm s vs ts v n a side t _ member run ih =>
    obtain ⟨p, w, inside, holds⟩ := ih
    have abides := Lowering.ofDepth_scoping target p n
    obtain ⟨w', sub, state, _⟩ :=
      (Lives.arm abides (holds.values v member) a).inBlock.ok inside run
    exact ⟨p, w', state, holds.mono sub⟩
  | @loop s vs ts n pat iter k t m u l _ counted run ih =>
    obtain ⟨p, w, inside, holds⟩ := ih
    have abides := Lowering.ofDepth_scoping target p n
    obtain ⟨w₁, sub₁, state₁, counts⟩ := (Lives.counter abides pat iter).ok inside counted
    have within := ((state₁.looping l).entered).plus [k.var]
    obtain ⟨w₂, sub₂, state₂, _⟩ := (Lives.bindPattern counts.element pat).ok within run
    exact ⟨p, w₂, state₂, ((holds.mono sub₁).mono (w₁.sub_plus _)).mono sub₂⟩
  | @signature s vs ts args f _ own ih =>
    obtain ⟨p, w, inside, holds⟩ := ih
    have fits := Lives.activation_fits (f := f) (w := w.at_ (p.Sees target)) fun t member =>
      holds.types t (own t member)
    exact ⟨p, _, inside.framed fits, by simp, holds.types⟩
  | @listed s vs ts q f args n inst t _ declared user own run ih =>
    obtain ⟨p, w, inside, holds⟩ := ih
    have coined := inside.tidy.backend_coined declared user
    have within (t : Ty) (member : t ∈ args) := holds.types t (own t member)
    have signed := (Lives.sign (Lowering.ofDepth_scoping target p n) coined within inside).ok run
    obtain ⟨w₁, _, _, writes, _, state, tidy, _, _⟩ := signed
    have kept := state.holds.listing ⟨f.id, target, args⟩ inst
    obtain ⟨writes', state'⟩ := state.move (state.tidy.listing ⟨f.id, target, args⟩ tidy) rfl rfl
      (fun _ => id) kept fun holds adds => holds.adds adds
    exact ⟨p, _, state', (holds.mono writes.sub).mono writes'.sub⟩
  | @body s vs ts key inst args params t f _ found own run ih =>
    obtain ⟨p, w, inside, holds⟩ := ih
    have tidy := inside.tidy.instance? found
    have fits := Lives.activation_fits (f := f) (w := w.at_ (p.Sees target)) fun t member =>
      holds.types t (own t member)
    obtain ⟨state, _⟩ := (Lives.bindParams (w := w.at_ (p.Sees target)) tidy.params
      (inside.framed fits)).ok run
    exact ⟨p, _, state, by simp, holds.types⟩
  | @written s vs ts q f args n inst t _ declared user own run ih =>
    obtain ⟨p, w, inside, holds⟩ := ih
    have coined := inside.tidy.backend_coined declared user
    have within (t : Ty) (member : t ∈ args) := holds.types t (own t member)
    have abides := Lowering.ofDepth_scoping target p n
    obtain ⟨w', sub, state, _⟩ := (Lives.instantiate abides.target
      (Setting.scoping_writes target p f.backend _) (fun _ => abides) coined within).ok inside run
    exact ⟨p, w', state, holds.mono sub⟩
  | @computed s vs ts key inst args known t f _ found own consts run ih =>
    obtain ⟨p, w, inside, holds⟩ := ih
    have tidy := inside.tidy.instance? found
    have fits := Lives.activation_fits (f := f) (w := w.at_ (p.Sees target)) fun t member =>
      holds.types t (own t member)
    have framed := ((inside.framed fits).counted (s.constDepth + 1)).entered
    have bound : ∀ v ∈ known, v.Fits (w.at_ (p.Sees target)) := fun v member =>
      Value.fits_of_isConst (consts v member).1 (tidy.params _ (consts v member).2)
    obtain ⟨w', sub, state, _⟩ := (Lives.bindArgs bound).ok framed run
    have types (t : Ty) (member : t ∈ ts) := (holds.types t member).mono sub.known
    exact ⟨p, w', state, by simp, types⟩

/-- In every state that lowering comes to, the code of an expression is atomic: it may stand beside
any operator, as an argument or before an index. -/
theorem code_atomic {n : Nat} {e : Expr} {v : Value} {t : Emission} {c : Code}
    (h : s.Reached target vs ts) (run : (Lowering.ofDepth target n).expr e s = .ok v t)
    (code : v.payload = .code c) : Text.Balanced (c.text target) ∧ Text.Atomic (c.text target) := by
  obtain ⟨p, w, inside, _⟩ := h.inside
  obtain ⟨w', _, _, fits⟩ := ((Lowering.ofDepth_scoping target p n).expr w e).ok inside run
  have own := fits.code c code
  have plain (m : Mention) (member : m ∈ c.mentions) : Text.Plain m.name :=
    (own.loose m member).plain
  exact ⟨c.text_balanced target plain, c.text_atomic target own.atom plain⟩

end Emission.Reached

def scaleItem : Item := (Script.parse 0 "param $k: i32;").result.items.headD default

def scaled : Expr :=
  let k : Expr := ⟨.param "k", default⟩
  ⟨.binary .mul k ⟨.binary .add k ⟨.lit (.int 1), default⟩, default⟩, default⟩

def Program.scales (p : Program) : Bool :=
  match p.item scaleItem [.glsl] with
  | (.ok _, q) =>
    match (Lowering.toTarget .glsl).expr scaled (Emission.entered { program := q }) with
    | .ok v _ =>
      match v.payload with
      | .code c => c.text .glsl == "(u_k * (u_k + 1))"
      | _ => false
    | .error _ _ => false
  | (.error _, _) => false

theorem Program.scales_start : Program.start.toOption.any Program.scales = true := by decide +kernel

theorem scaleItem_parsed : scaleItem.Parsed := by
  refine ⟨0, "param $k: i32;", by decide +kernel, ?_⟩
  have one : (Script.parse 0 "param $k: i32;").result.items.length = 1 := by decide +kernel
  unfold scaleItem
  cases items : (Script.parse 0 "param $k: i32;").result.items with
  | nil => simp [items] at one
  | cons i is => simp

theorem Emission.Reached.code_atomic_scaled : ∃ (p : Program) (v : Value) (t : Emission) (c : Code),
    p.Reached [(scaleItem, [.glsl])] ∧
    (Lowering.toTarget .glsl).expr scaled (Emission.entered { program := p }) = .ok v t ∧
    v.payload = .code c ∧ c.text .glsl = "(u_k * (u_k + 1))" ∧
    Text.Balanced (c.text .glsl) ∧ Text.Atomic (c.text .glsl) := by
  obtain ⟨p, start⟩ := Program.exists_start
  have scales := Program.scales_start
  rw [start] at scales
  simp only [Except.toOption, Option.any_some] at scales
  unfold Program.scales at scales
  split at scales
  · rename_i q declared
    split at scales
    · rename_i v t run
      split at scales
      · rename_i c code
        have reached : q.Reached ([] ++ [(scaleItem, [.glsl])]) :=
          .item (.start start) scaleItem_parsed declared
        exact ⟨q, v, t, c, reached, run, code, eq_of_beq scales,
          code_atomic (.block (.rest reached)) run code⟩
      · cases scales
    · cases scales
  · cases scales

end Ember

import Ember.Proofs.Blame
import Ember.Proofs.Literal.Prelude
import Ember.Proofs.Steady

/-!
# Programs that items make stay on the prelude

Items leave the scope of the prelude as it is. The structs that they declare have numbers that the
prelude does not have.
-/

set_option autoImplicit false

namespace Ember

namespace Program

variable {p q r : Program}

/-- A program and one with the same prelude and the same types. -/
structure Keeps (p q : Program) : Prop where
  root : q.env.root = p.env.root
  builtins : q.builtins = p.builtins
  types : q.env.own.types = p.env.own.types

theorem Keeps.trans (first : p.Keeps q) (second : q.Keeps r) : p.Keeps r where
  root := second.root.trans first.root
  builtins := second.builtins.trans first.builtins
  types := second.types.trans first.types

theorem Before.keeps (grown : p.Before q) : p.Keeps q := ⟨grown.root, grown.builtins, grown.types⟩

theorem basic_eq (root : q.env.root = p.env.root) (builtins : q.builtins = p.builtins) :
    q.Basic = p.Basic := by
  unfold Basic
  rw [root, builtins]

theorem OnPrelude.keeps (base : p.OnPrelude) (kept : p.Keeps q) : q.OnPrelude where
  start := by
    rw [kept.root, kept.builtins]
    exact base.start
  apart := by
    rw [kept.types, basic_eq kept.root kept.builtins]
    exact base.apart

theorem start_onPrelude (start : Program.start = .ok p) : p.OnPrelude where
  start := ⟨p, start, rfl, rfl⟩
  apart := by
    unfold Program.start at start
    split at start
    · cases start
      simp
    · cases start

end Program

/-! ## Items that declare no types -/

instance Lowering.toTarget_isSteady (target : Target) : (Lowering.toTarget target).IsSteady :=
  ofDepth_isSteady target depthLimit

variable {α β : Type}

def Leaves (act : Emit α) : Prop := ∀ s a t, act s = .ok a t → s.program.Keeps t.program

namespace Leaves

open Emit

variable {act : Emit α}

theorem steady (h : Steady false act) : Leaves act := fun _ _ _ run => (h.ok run).program.keeps

theorem bind {next : α → Emit β} (h : Leaves act) (then_ : ∀ a, Leaves (next a)) :
    Leaves (act >>= next) := by
  intro s b t run
  obtain ⟨a, m, first, rest⟩ := bind_eq_ok.mp run
  exact (h s a m first).trans (then_ a m b t rest)

theorem modifyProgram {f : Program → Program} (h : ∀ p : Program, p.Keeps (f p)) :
    Leaves (Emit.modifyProgram f) := by
  rintro s _ _ ⟨⟩
  exact h s.program

theorem forM {f : α → Emit Unit} (h : ∀ a, Leaves (f a)) (xs : List α) : Leaves (xs.forM f) := by
  induction xs with
  | nil => exact steady (.pure ())
  | cons a as ih => exact bind (h a) fun _ => ih

/-- A check, and what comes after it. -/
theorem guarded {c : Prop} [Decidable c] {check : Emit Unit} (ok : Steady false check)
    (h : Leaves act) : Leaves (do
      if c then check
      act) := by
  split
  · exact bind (steady ok) fun _ => h
  · exact h

theorem const (name : Ident) (ty : Option TypeExpr) (value : Expr) :
    Leaves (Item.const name ty value) := by
  have expr := (Lowering.toTarget_isSteady .js).expr false value
  unfold Item.const
  refine bind (steady (.inBlock expr)) fun found => ?_
  have rest (v : Value) : Leaves (do
      if !v.isConst || !found.2.isEmpty then
        Emit.locating value.span (Emit.problem .constUnknown)
      Emit.modifyProgram fun p => p.modifyScope (·.addConst name.name v)) :=
    guarded (.locating (.problem _)) (modifyProgram fun p => ⟨rfl, rfl, rfl⟩)
  cases ty with
  | none => exact rest found.1
  | some ty =>
    refine bind (steady (.type ty)) fun t => ?_
    exact bind (steady (.expect .js found.1 t value.span)) rest

theorem param (name : Ident) (ty : TypeExpr) : Leaves (Item.param name ty) := by
  unfold Item.param
  refine bind (steady (.type ty)) fun t => ?_
  exact guarded (.problem _) (modifyProgram fun p => ⟨rfl, rfl, rfl⟩)

theorem assert (cond : Expr) (target : Target) : Leaves (Item.assert cond target) := by
  unfold Item.assert
  refine bind (steady (.inBlock (.assert cond))) fun found => ?_
  obtain ⟨_, ls⟩ := found
  dsimp only
  split
  · exact modifyProgram fun p => ⟨rfl, rfl, rfl⟩
  · exact steady (.pure ())

theorem declaredParams (f : UserFn) : Leaves (Item.declaredParams f) := by
  unfold Item.declaredParams
  dsimp only
  split
  · exact bind (steady (.signature f [])) fun _ => steady (.pure _)
  · exact steady (.pure _)

theorem sourceBlocks (body : Block) : Leaves (Item.sourceBlocks body) := by
  unfold Item.sourceBlocks
  split
  · exact steady (.pure _)
  · exact steady (.pure _)
  · exact steady (.locating (.problem _))

/-- A function that has its name in the output. -/
theorem namedFn (decl : FnDecl) (targets : List Target) (backend : Option String) : Leaves (do
    let source ← Item.sourceBlocks decl.body
    let id ← look (·.program.env.own.functions.length)
    let f : UserFn := ⟨id, decl, (Item.fnNames decl.name).1, backend, source⟩
    let (params, result) ← Item.declaredParams f
    let function : Function :=
      ⟨(Item.fnNames decl.name).2, params, result, .user f, decl.generics.length⟩
    Emit.modifyProgram fun p => p.modifyScope (·.addFn (Item.fnNames decl.name).1 function)
    if !!decl.generics.isEmpty then
      targets.forM fun target => do
        let _ ← f.instantiate (.toTarget target) []) := by
  refine bind (sourceBlocks decl.body) fun source => bind (steady (.look _)) fun id => ?_
  refine bind (declaredParams _) fun types => ?_
  refine bind (modifyProgram fun p => ⟨rfl, rfl, rfl⟩) fun _ => ?_
  split
  · refine forM (fun target => ?_) targets
    exact bind (steady (.instantiate _ [])) fun _ => steady (.pure ())
  · exact steady (.pure ())

theorem fn (decl : FnDecl) (targets : List Target) : Leaves (Item.fn decl targets) := by
  unfold Item.fn
  dsimp only
  split
  · exact namedFn decl targets none
  · exact bind (steady (.fresh _)) fun name => namedFn decl targets (some name)

theorem variants (ds : List StructDecl) :
    Leaves (Item.variants (.toTarget .js) ds) := by
  have fields (seen : List String) (fs : List FieldDecl) :
      Leaves (Item.fields (.toTarget .js) seen fs) := by
    induction fs generalizing seen with
    | nil => exact steady (.pure [])
    | cons f fs ih =>
      rw [Item.fields]
      refine guarded (.locating (.problem _)) (bind (steady (.type f.ty)) fun ty => ?_)
      exact bind (ih _) fun _ => steady (.pure _)
  induction ds with
  | nil => exact steady (.pure [])
  | cons d ds ih =>
    rw [Item.variants]
    refine bind (steady (.look _)) fun types => guarded (.locating (.problem _)) ?_
    exact bind (fields [] d.fields) fun fs => bind ih fun vs => steady (.pure _)

end Leaves

/-! ## Struct groups -/

theorem Item.of_mem_addStructs {scope : Scope} {ss : List Struct} {q : String × Ty}
    (member : q ∈ (addStructs scope ss).types) :
    q ∈ scope.types ∨ ∃ s ∈ ss, q = (s.name, .struct s) := by
  induction ss generalizing scope with
  | nil => exact .inl member
  | cons s ss ih =>
    rcases ih member with old | ⟨t, later, same⟩
    · rcases List.mem_cons.mp old with rfl | older
      · exact .inr ⟨s, by simp, rfl⟩
      · exact .inl older
    · exact .inr ⟨t, by simp [later], same⟩

namespace Program

variable {K : Known} {p : Program}

/-- Structs that are declared now are none of the prelude's. -/
theorem OnPrelude.addStructs (base : p.OnPrelude) (valid : p.Over K) {vs : List Variant}
    {matrix : Bool} {ss : List Struct} {ids : Ids}
    (declared : Struct.Declared (Ty.Over K) matrix p.ids.next none vs ⟨p.ids.next + 1⟩ ss ids) :
    (Program.modifyScope { p with ids } fun scope => Item.addStructs scope ss).OnPrelude where
  start := base.start
  apart name s member basic := by
    change p.Basic s at basic
    rcases Item.of_mem_addStructs member with old | ⟨t, new, same⟩
    · exact base.apart name s old basic
    · cases same
      obtain ⟨v, _, number⟩ := declared.new new
      have older := (valid.below s (valid.basic_sub s basic)).1
      have newer : p.ids.next + 1 ≤ s.uid := number.above
      omega

theorem OnPrelude.structGroup {s t : Emission} (base : s.program.OnPrelude) (valid : s.Over K)
    {g : StructGroup} (clean : ∀ v ∈ g.variants, ∀ f ∈ v.fields, f.ty.Clean)
    (run : Item.structGroup g s = .ok () t) : t.program.OnPrelude := by
  obtain ⟨vs, m, lowered, run⟩ := bind_eq_ok.mp run
  obtain ⟨L, _, state, fields⟩ :=
    (Safe.variants (Lowering.toTarget_sound .js) clean s valid).ok lowered
  have base := base.keeps (Leaves.variants g.variants s vs m lowered)
  obtain ⟨ss, m', numbered, run⟩ := bind_eq_ok.mp run
  have ends := Struct.declareGroup_ends state.program.closed g.matrix vs fields m.program.ids
  unfold Emit.numbering at numbered
  cases made : Struct.declareGroup vs g.matrix m.program.ids with
  | error f ids => simp [made] at numbered
  | ok structs ids =>
    rw [made] at numbered
    cases numbered
    obtain ⟨_, m'', added, run⟩ := bind_eq_ok.mp run
    rw [Item.forM_addStruct] at added
    cases added
    have base := base.addStructs state.program (ends.ok made)
    cases ss with
    | nil =>
      cases run
      exact base
    | cons first rest => exact base.keeps (Leaves.steady (.declareSlots first) _ _ _ run)

/-- An item that is declared leaves a program on the prelude. -/
theorem OnPrelude.item (base : p.OnPrelude) (valid : p.Over K) {item : Item} (clean : item.Clean)
    {targets : List Target} {q : Program} (run : p.item item targets = (.ok (), q)) :
    q.OnPrelude := by
  have state : Emission.Over K { program := p } := ⟨valid, by simp [Level.Over], by simp, by simp⟩
  unfold Program.item Program.run at run
  split at run
  · rename_i t lowered
    cases run
    unfold Item.lower Emit.locating at lowered
    split at lowered
    · rename_i inner
      cases lowered
      cases clean with
      | structs clean => exact base.structGroup state clean inner
      | fn _ => exact base.keeps (Leaves.fn _ _ _ _ _ inner)
      | const _ _ => exact base.keeps (Leaves.const _ _ _ _ _ _ inner)
      | param _ => exact base.keeps (Leaves.param _ _ _ _ _ inner)
      | assert _ => exact base.keeps (Leaves.forM (Leaves.assert _) _ _ _ _ inner)
      | useModule => cases inner
    · cases lowered
  · cases run

/-- Programs that items make from the start are on the prelude. -/
theorem OnPrelude.items (base : p.OnPrelude) (valid : p.Over K)
    {requests : List (Item × List Target)}
    (clean : ∀ r ∈ requests, r.1.Clean ∧ r.1.isUse = false)
    (accepted : (p.items requests).1 = .ok ()) :
    (p.items requests).2.OnPrelude := by
  induction requests generalizing p K with
  | nil => exact base
  | cons r requests ih =>
    obtain ⟨item, targets⟩ := r
    obtain ⟨own, isUse⟩ := clean (item, targets) (by simp)
    have resolved : ∀ name place, item.kind ≠ .useModule name place := fun name place kind => by
      simp [Item.isUse, kind] at isUse
    obtain ⟨L, _, left, _⟩ := valid.item own resolved targets
    rw [Program.items] at accepted ⊢
    split at accepted
    · rename_i q run
      rw [run] at left
      exact ih (base.item valid own run) left (fun r member => clean r (by simp [member])) accepted
    · cases accepted

end Program

end Ember

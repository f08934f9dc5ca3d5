import Ember.Program.Item
import Ember.Proofs.Safe.Rules

/-!
# Items, safely

Declaring a clean item keeps the program over a set of structs. The structs of a group become known
together, by name.
-/

set_option autoImplicit false

namespace Ember

open Emit

namespace Scope.Over

variable {K : Known} {s : Scope} (h : s.Over K)

include h

theorem addType {t : Ty} (name : String) (valid : t.Over K) : (s.addType name t).Over K :=
  { h with types := List.forall_mem_cons.mpr ⟨valid, h.types⟩ }

theorem addFn {f : Function} (name : String) (valid : f.Over K) : (s.addFn name f).Over K :=
  { h with
    functions := List.forall_mem_append.mpr ⟨h.functions, List.forall_mem_singleton.mpr valid⟩ }

theorem addConst {v : Value} (name : String) (valid : v.Over K) : (s.addConst name v).Over K :=
  { h with consts := List.forall_mem_cons.mpr ⟨valid, h.consts⟩ }

theorem addParam {t : Ty} (name : String) (valid : t.Over K) (kept : t.isVoid = false) :
    (s.addParam name t).Over K :=
  { h with params := List.forall_mem_cons.mpr ⟨⟨valid, kept⟩, h.params⟩ }

end Scope.Over

theorem Function.constructor_over {K : Known} {s : Struct} (known : K s) :
    (Function.constructor s).Over K := by
  have fits : Behaviour.Fits K (s.fields.map fun f => .exact f.ty) (.construct s) :=
    .construct known
  simpa [Function.Over, Function.constructor, List.map_map, Function.comp_def] using fits

/-! ## Struct groups -/

namespace Item

def addStructs (scope : Scope) (ss : List Struct) : Scope :=
  ss.foldl (fun scope s => (scope.addType s.name (.struct s)).addFn s.name (.constructor s)) scope

theorem forM_addStruct (ss : List Struct) (state : Emission) :
    ss.forM addStruct state = .ok () { state with
      program := state.program.modifyScope fun scope => addStructs scope ss } := by
  induction ss generalizing state with
  | nil => rfl
  | cons s ss ih => exact ih _

theorem addStructs_over {K : Known} {scope : Scope} {ss : List Struct} (h : scope.Over K)
    (known : ∀ s ∈ ss, K s) : (addStructs scope ss).Over K := by
  induction ss generalizing scope with
  | nil => exact h
  | cons s ss ih =>
    have added := (h.addType s.name (t := .struct s) (known s (by simp))).addFn s.name
      (Function.constructor_over (known s (by simp)))
    exact ih added fun t member => known t (by simp [member])

theorem mem_addStructs {scope : Scope} {ss : List Struct} {p : String × Ty}
    (member : p ∈ scope.types ∨ ∃ s ∈ ss, p = (s.name, .struct s)) :
    p ∈ (addStructs scope ss).types := by
  induction ss generalizing scope with
  | nil => simpa [addStructs] using member
  | cons s ss ih =>
    refine ih ?_
    rcases member with old | ⟨t, new, rfl⟩
    · exact .inl (List.mem_cons_of_mem _ old)
    · rcases List.mem_cons.mp new with rfl | later
      · exact .inl List.mem_cons_self
      · exact .inr ⟨t, later, rfl⟩

theorem declared_addFn {scope : Scope} (h : ∀ f ∈ scope.functions, f.2.behaviour.IsDeclared)
    {f : Function} (own : f.behaviour.IsDeclared) (name : String) :
    ∀ g ∈ (scope.addFn name f).functions, g.2.behaviour.IsDeclared := by
  intro g member
  rcases List.mem_append.mp member with old | new
  · exact h g old
  · rw [List.mem_singleton.mp new]
    exact own

theorem declared_addStructs {scope : Scope} {ss : List Struct}
    (h : ∀ f ∈ scope.functions, f.2.behaviour.IsDeclared) :
    ∀ f ∈ (addStructs scope ss).functions, f.2.behaviour.IsDeclared := by
  induction ss generalizing scope with
  | nil => exact h
  | cons s ss ih =>
    have old : ∀ f ∈ (scope.addType s.name (.struct s)).functions, f.2.behaviour.IsDeclared := h
    exact ih (declared_addFn old (.inl ⟨s, rfl⟩) s.name)

end Item

/-- A program whose own scope has got the structs of a new group. -/
theorem Program.Over.declareGroup {K : Known} {p : Program} (valid : p.Over K) {matrix : Bool}
    {vs : List Variant} {ss : List Struct} {ids : Ids}
    (declared : Struct.Declared (Ty.Over K) matrix p.ids.next none vs ⟨p.ids.next + 1⟩ ss ids) :
    Program.Over (K.add ss)
      (Program.modifyScope { p with ids } fun scope => Item.addStructs scope ss) := by
  have sub : K.Sub (K.add ss) := K.subset_add ss
  refine ⟨valid.closed.add valid.below declared, valid.below.add declared,
    Item.addStructs_over (valid.own.mono sub) fun s member => .inr member, valid.root.mono sub,
    valid.builtins.mono sub, fun i member => ?_, fun s t knownS knownT differ same => ?_,
    Item.declared_addStructs valid.declared, valid.prelude⟩
  · have old := valid.instances i member
    exact ⟨fun t h => (old.1 t h).mono sub, old.2.mono sub⟩
  · have new (s : Struct) (member : s ∈ ss) : s.group = p.ids.next := by
      obtain ⟨_, _, h⟩ := declared.new member
      exact h.group_eq
    have named (s : Struct) (member : s ∈ ss) :
        ∃ n, (n, Ty.struct s) ∈ (Item.addStructs p.env.own ss).types :=
      ⟨s.name, Item.mem_addStructs (.inr ⟨s, member, rfl⟩)⟩
    rcases knownS with hs | hs <;> rcases knownT with ht | ht
    · obtain ⟨⟨m, hm⟩, n, hn⟩ := valid.groups s t hs ht differ same
      exact ⟨⟨m, Item.mem_addStructs (.inl hm)⟩, n, Item.mem_addStructs (.inl hn)⟩
    · have old := (valid.below s hs).2
      rw [same, new t ht] at old
      omega
    · have old := (valid.below t ht).2
      rw [← same, new s hs] at old
      omega
    · exact ⟨named s hs, named t ht⟩

namespace Safe

variable {K : Known}

theorem declareGroup {vs : List Variant} (valid : ∀ v ∈ vs, ∀ f ∈ v.fields, f.ty.Over K)
    (matrix : Bool) {α : Type} {Q : Known → α → Prop} {next : List Struct → Emit α}
    (then_ : ∀ L ss, Safe L (next ss) Q) :
    Safe K (do
      let ss ← Emit.numbering (Struct.declareGroup vs matrix)
      ss.forM Item.addStruct
      next ss) Q := by
  intro state own
  have ends := Struct.declareGroup_ends own.program.closed matrix vs valid state.program.ids
  refine Ends.bind ?_
  unfold Ends Emit.numbering at *
  cases run : Struct.declareGroup vs matrix state.program.ids with
  | ok ss ids =>
    rw [run] at ends
    have sub : K.Sub (K.add ss) := K.subset_add ss
    refine Ends.bind ?_
    rw [Ends, Item.forM_addStruct]
    refine Ends.mono (then_ (K.add ss) ss _ ?_) ?_ ?_
    · exact ⟨own.program.declareGroup ends, own.frame.mono sub⟩
    · rintro a t ⟨L, sub', state', holds⟩
      exact ⟨L, sub.trans sub', state', holds⟩
    · rintro f t ⟨L, sub', program, excused⟩
      exact ⟨L, sub.trans sub', program, excused⟩
  | error f ids =>
    rw [run] at ends
    exact ⟨K, .refl K, { own.program with below := own.program.below.mono ends.1 },
      .of_not_isDefect ends.2⟩

theorem fieldsOf {cx : Lowering} {fs : List FieldDecl} (sound : cx.Sound)
    (clean : ∀ f ∈ fs, f.ty.Clean) (seen : List String) :
    Safe K (Item.fields cx seen fs) fun L out => ∀ f ∈ out, f.ty.Over L := by
  induction fs generalizing K seen with
  | nil =>
    rw [Item.fields]
    exact pure (by simp)
  | cons f fs ih =>
    rw [Item.fields]
    have rest (M : Known) : Safe M (do
        let ty ← cx.type f.ty
        return ⟨f.name.name, ty⟩ :: (← Item.fields cx (f.name.name :: seen) fs))
        fun L out => ∀ f ∈ out, f.ty.Over L := by
      refine bind (type sound (clean f (by simp))) fun N _ _ t valid => ?_
      refine bind (ih (fun g member => clean g (by simp [member])) _) fun P sub _ gs owns => ?_
      exact pure (List.forall_mem_cons.mpr ⟨valid.mono sub, owns⟩)
    split
    · exact bind (locating (problem _)) fun L _ _ _ (_ : True) => rest L
    · exact rest K

theorem variants {cx : Lowering} {ds : List StructDecl} (sound : cx.Sound)
    (clean : ∀ d ∈ ds, ∀ f ∈ d.fields, f.ty.Clean) :
    Safe K (Item.variants cx ds) fun L vs => ∀ v ∈ vs, ∀ f ∈ v.fields, f.ty.Over L := by
  induction ds generalizing K with
  | nil =>
    rw [Item.variants]
    exact pure (by simp)
  | cons d ds ih =>
    rw [Item.variants]
    refine bind (look (Q := fun _ _ => True) fun _ _ => trivial) fun L _ _ types _ => ?_
    have rest (M : Known) : Safe M (do
        let v : Variant := ⟨d.name.name, ← Item.fields cx [] d.fields⟩
        return v :: (← Item.variants cx ds))
        fun L vs => ∀ v ∈ vs, ∀ f ∈ v.fields, f.ty.Over L := by
      refine bind (fieldsOf sound (clean d (by simp)) []) fun N _ _ fs valid => ?_
      refine bind (ih fun e member => clean e (by simp [member])) fun P sub _ vs owns => ?_
      exact pure (List.forall_mem_cons.mpr ⟨fun f member => (valid f member).mono sub, owns⟩)
    split
    · exact bind (locating (problem _)) fun M _ _ _ (_ : True) => rest M
    · exact rest L

theorem structGroup {g : StructGroup} (clean : ∀ v ∈ g.variants, ∀ f ∈ v.fields, f.ty.Clean) :
    Safe K (Item.structGroup g) fun _ _ => True := by
  unfold Item.structGroup
  refine bind (variants (Lowering.toTarget_sound .js) clean) fun L _ _ vs valid => ?_
  refine declareGroup valid g.matrix fun M ss => ?_
  split
  · exact declareSlots _
  · exact pure trivial

/-! ## Constants, parameters, assertions and functions -/

theorem constItem {ty : Option TypeExpr} {value : Expr} (cleanTy : ∀ t ∈ ty, t.Clean)
    (clean : value.Clean) (name : Ident) :
    Safe K (Item.const name ty value) fun _ _ => True := by
  have sound := Lowering.toTarget_sound .js
  unfold Item.const
  dsimp only
  refine bind (inBlock (sound.expr K value clean)) fun L _ _ found own => ?_
  have rest (M : Known) (v : Value) (own : v.Over M) : Safe M (do
      if !v.isConst || !found.2.isEmpty then
        Emit.locating value.span (Emit.problem .constUnknown)
      Emit.modifyProgram fun p => p.modifyScope (·.addConst name.name v)) fun _ _ => True := by
    have added (N : Known) (sub : M.Sub N) :
        Safe N (Emit.modifyProgram fun p => p.modifyScope (·.addConst name.name v))
          fun _ _ => True :=
      modifyProgram fun _ valid =>
        valid.modifyScope (valid.own.addConst name.name (own.mono sub)) rfl valid.declared
    split
    · exact bind (locating (problem _)) fun N sub _ _ (_ : True) => added N sub
    · exact added M (.refl M)
  cases ty with
  | some ty =>
    refine bind (type sound (cleanTy _ rfl)) fun M sub _ t valid => ?_
    exact bind (expect (own.mono sub) valid .js value.span) fun N _ _ w converted =>
      rest N w converted.1
  | none =>
    dsimp only
    rw [pure_bind]
    exact rest L found.1 own

theorem paramItem {ty : TypeExpr} (clean : ty.Clean) (name : Ident) :
    Safe K (Item.param name ty) fun _ _ => True := by
  unfold Item.param
  refine bind (type (Lowering.toTarget_sound .glsl) clean) fun L _ _ t valid => ?_
  cases void : t.isVoid with
  | true => exact bind (problem _) fun _ _ _ _ (h : False) => h.elim
  | false =>
    dsimp only
    rw [if_neg Bool.false_ne_true]
    refine modifyProgram fun p program => ?_
    have written := program.modifyOutput .glsl fun o =>
      { o with uniforms := o.uniforms ++ [⟨name.name, t.storage .glsl⟩] }
    exact written.modifyScope (written.own.addParam name.name valid void) rfl written.declared

theorem assertItem {cond : Expr} (clean : cond.Clean) (target : Target) :
    Safe K (Item.assert cond target) fun _ _ => True := by
  unfold Item.assert
  refine bind (inBlock (assert (Lowering.toTarget_sound target) clean)) fun L _ _ found _ => ?_
  obtain ⟨_, ls⟩ := found
  dsimp only
  split
  · exact modifyOutput .js _
  · exact pure trivial

/-- The foreign text of a clean body is clean. -/
theorem mem_sourceParts {body : Block} (clean : body.Clean) {b : SourceBlock}
    (member : b ∈ (Item.sourceParts body).1) : b.Clean := by
  have part {e : Expr} (clean : e.Clean) (found : Item.sourceOf? e = some b) : b.Clean := by
    cases clean with
    | source clean =>
      cases found
      exact clean
    | _ => cases found
  cases clean with
  | mk cleanStmts cleanTail =>
    simp only [Item.sourceParts, List.mem_filterMap, List.mem_append, List.mem_map,
      Option.mem_toList, id_eq] at member
    obtain ⟨_, ⟨s, inStmts, found⟩ | ⟨e, inTail, found⟩, rfl⟩ := member
    · cases cleanStmts s inStmts with
      | expr clean => exact part clean (Option.some.inj found)
      | _ => simp at found
    · exact part (cleanTail e inTail) found

theorem sourceBlocks {body : Block} (clean : body.Clean) :
    Safe K (Item.sourceBlocks body) fun _ blocks => ∀ bs ∈ blocks, ∀ b ∈ bs, b.Clean := by
  unfold Item.sourceBlocks
  split
  · exact pure (by simp)
  · rename_i blocks parts
    refine pure ?_
    rintro bs ⟨⟩ b member
    exact mem_sourceParts clean (by rw [parts]; exact member)
  · exact locating (problem _)

theorem declaredParams {f : UserFn} (clean : f.Clean) :
    Safe K (Item.declaredParams f) fun L p => ∀ q ∈ p.1.map Param.ty, q.Over L := by
  unfold Item.declaredParams
  dsimp only
  split
  · refine bind (signature (Lowering.toTarget_sound .js) clean (by simp)) fun L _ _ found own => ?_
    refine pure fun q member => ?_
    simp only [List.mem_map, exists_exists_and_eq_and] at member
    obtain ⟨⟨n, t⟩, zipped, rfl⟩ := member
    exact own.1 t (List.of_mem_zip zipped).2
  · refine pure fun q member => ?_
    simp only [List.mem_map, exists_exists_and_eq_and] at member
    obtain ⟨n, _, rfl⟩ := member
    trivial

/-- A function that has its name in the output. -/
theorem namedFn {decl : FnDecl} (clean : decl.Clean) (targets : List Target)
    (backend : Option String) : Safe K (do
      let source ← Item.sourceBlocks decl.body
      let id ← Emit.look (·.program.env.own.functions.length)
      let f : UserFn := ⟨id, decl, (Item.fnNames decl.name).1, backend, source⟩
      let (params, result) ← Item.declaredParams f
      let function : Function :=
        ⟨(Item.fnNames decl.name).2, params, result, .user f, decl.generics.length⟩
      Emit.modifyProgram fun p => p.modifyScope (·.addFn (Item.fnNames decl.name).1 function)
      if !!decl.generics.isEmpty then
        targets.forM fun target => do
          let _ ← f.instantiate (.toTarget target) []) fun _ _ => True := by
  refine bind (sourceBlocks clean.body) fun N _ _ source cleanSource => ?_
  refine bind (look (Q := fun _ _ => True) fun _ _ => trivial) fun P _ _ id _ => ?_
  have cleanFn : UserFn.Clean ⟨id, decl, (Item.fnNames decl.name).1, backend, source⟩ :=
    ⟨clean, cleanSource⟩
  refine bind (declaredParams cleanFn) fun R _ _ signature valid => ?_
  refine bind (modifyProgram fun p program => program.modifyScope
    (program.own.addFn _ (.user cleanFn valid)) rfl
    (Item.declared_addFn program.declared (.inr ⟨_, rfl⟩) _)) fun S _ _ _ _ => ?_
  split
  · refine forM fun T _ target _ => ?_
    exact bind (instantiate (Lowering.toTarget_sound target) cleanFn (by simp))
      fun _ _ _ _ _ => pure trivial
  · exact pure trivial

theorem fnItem {decl : FnDecl} (clean : decl.Clean) (targets : List Target) :
    Safe K (Item.fn decl targets) fun _ _ => True := by
  unfold Item.fn
  dsimp only
  split
  · rw [pure_bind]
    exact namedFn clean targets none
  · exact bind (fresh _) fun M _ _ backend _ => by
      rw [pure_bind]
      exact namedFn clean targets (some backend)

/-- Items that are clean and not `use`. -/
theorem lowerItem {item : Item} (clean : item.Clean) (targets : List Target)
    (resolved : ∀ name place, item.kind ≠ .useModule name place) :
    Safe K (item.lower targets) fun _ _ => True := by
  refine locating ?_
  cases clean with
  | fn clean => exact fnItem clean targets
  | structs clean => exact structGroup clean
  | const cleanTy clean => exact constItem cleanTy clean _
  | param clean => exact paramItem clean _
  | assert clean => exact forM fun L _ target _ => assertItem clean target
  | useModule => exact absurd rfl (resolved _ _)

end Safe

/-- What is left of a program after an item, however it ended. -/
theorem Program.Over.item {K : Known} {p : Program} (valid : p.Over K) {item : Item}
    (clean : item.Clean) (resolved : ∀ name place, item.kind ≠ .useModule name place)
    (targets : List Target) :
    ∃ L, K.Sub L ∧ (p.item item targets).2.Over L ∧
      ∀ f, (p.item item targets).1 = .error f → L.Excuses f := by
  have frame : Activation.Over K {} := ⟨by simp [Level.Over], by simp, by simp⟩
  have ends := Safe.lowerItem (K := K) clean targets resolved { program := p } ⟨valid, frame⟩
  unfold Program.item Program.run
  unfold Ends at ends
  cases run : item.lower targets { program := p } with
  | ok a s =>
    rw [run] at ends
    obtain ⟨L, sub, state, _⟩ := ends
    exact ⟨L, sub, state.program, by simp⟩
  | error f s =>
    rw [run] at ends
    obtain ⟨L, sub, program, excused⟩ := ends
    refine ⟨L, sub, program, ?_⟩
    rintro _ ⟨⟩
    exact excused

end Ember

import Ember.Lower.Call
import Ember.Proofs.Overloads
import Ember.Proofs.Safe.Reduce

/-!
# Types and calls, safely

What lowering is given to work with is sound if it is safe on clean syntax. Then types come out over
the known structs, a function that is resolved gets arguments that fit it, and what it does with them
is safe.
-/

set_option autoImplicit false

namespace Ember

open Emit

structure Lowering.Sound (cx : Lowering) : Prop where
  expr : ∀ (K : Known) (e : Expr), e.Clean → Safe K (cx.expr e) fun L v => v.Over L
  block : ∀ (K : Known) (b : Block), b.Clean → Safe K (cx.block b) fun L v => v.Over L
  join : ∀ (K : Known) (cond : Value) (yes no : Side) (what : String), cond.Over K →
    cond.ty.isVoid = false → yes.1.Over K → no.1.Over K →
    Safe K (cx.join cond yes no what) fun L v => v.Over L
  user : ∀ (K : Known) (f : UserFn) (args : List Value) (typeArgs : List Ty) (span : Span),
    f.Clean → (∀ v ∈ args, v.Over K) → (∀ t ∈ typeArgs, t.Over K) →
    Safe K (cx.user f args typeArgs span) fun L v => v.Over L

/-! ## Types -/

namespace Ty

theorem mkArray_gives {K : Known} {of : Ty} (valid : of.Over K) (len : Nat) :
    Gives (mkArray of len) (fun t => t = .array of len ∧ t.Over K) K.Excuses := by
  unfold mkArray
  cases void : of.isVoid with
  | true => exact K.excuses_problem _
  | false =>
    simp only [Bool.false_eq_true, if_false]
    split
    · exact K.excuses_problem _
    · exact ⟨rfl, valid, void, by omega⟩

theorem insertMember_ne_nil (s : Struct) (ss : List Struct) : Struct.insertMember s ss ≠ [] := by
  cases ss with
  | nil => simp [Struct.insertMember]
  | cons t ts =>
    rw [Struct.insertMember]
    split_ifs <;> simp

theorem mem_insertMember {s x : Struct} {ss : List Struct} (member : x ∈ Struct.insertMember s ss) :
    x = s ∨ x ∈ ss := by
  induction ss with
  | nil => simpa [Struct.insertMember] using member
  | cons t ts ih =>
    rw [Struct.insertMember] at member
    split_ifs at member
    · simpa using member
    · exact .inr member
    · rcases List.mem_cons.mp member with rfl | rest
      · exact .inr (by simp)
      · exact (ih rest).imp_right fun h => by simp [h]

theorem insertMember_ordered {s : Struct} {ss : List Struct}
    (ordered : (ss.map Struct.uid).Pairwise (· < ·)) :
    ((Struct.insertMember s ss).map Struct.uid).Pairwise (· < ·) := by
  induction ss with
  | nil => simp [Struct.insertMember]
  | cons t ts ih =>
    rw [List.map_cons, List.pairwise_cons] at ordered
    rw [Struct.insertMember]
    split_ifs with less same
    · rw [List.map_cons, List.pairwise_cons]
      refine ⟨fun n member => ?_, by rw [List.map_cons, List.pairwise_cons]; exact ordered⟩
      rcases List.mem_cons.mp member with rfl | rest
      · exact less
      · exact less.trans (ordered.1 n rest)
    · rw [List.map_cons, List.pairwise_cons]
      exact ordered
    · rw [List.map_cons, List.pairwise_cons]
      refine ⟨fun n member => ?_, ih ordered.2⟩
      obtain ⟨x, found, rfl⟩ := List.mem_map.mp member
      rcases mem_insertMember found with rfl | rest
      · omega
      · exact ordered.1 _ (List.mem_map_of_mem rest)

theorem members_ordered (members : List Struct) :
    ((members.foldr Struct.insertMember []).map Struct.uid).Pairwise (· < ·) ∧
      ∀ x ∈ members.foldr Struct.insertMember [], x ∈ members := by
  induction members with
  | nil => simp
  | cons s ss ih =>
    rw [List.foldr_cons]
    refine ⟨insertMember_ordered ih.1, fun x member => ?_⟩
    rcases mem_insertMember member with rfl | rest
    · simp
    · simp [ih.2 x rest]

/-- Alternatives come out with several structs, or as the only struct. -/
theorem mkAlt_gives {K : Known} {members : List Struct} (known : ∀ s ∈ members, K s)
    (nonempty : members ≠ []) : Gives (mkAlt members) (Ty.Over K) K.Excuses := by
  obtain ⟨ordered, from_members⟩ := members_ordered members
  have some_member : members.foldr Struct.insertMember [] ≠ [] := by
    cases members with
    | nil => simp at nonempty
    | cons s ss => exact insertMember_ne_nil _ _
  unfold mkAlt
  split
  · contradiction
  · rename_i first others listed
    rw [listed, List.map_cons, List.pairwise_cons] at ordered
    rw [listed] at from_members
    have first_known := known first (from_members first (by simp))
    split
    · exact K.excuses_problem _
    · rename_i same_group
      rw [List.find?_eq_none] at same_group
      split
      · exact first_known
      · rename_i several
        refine ⟨first_known, by simpa using several, fun s member => ⟨?_, ?_, ?_⟩⟩
        · exact known s (from_members s (by simp [member]))
        · simpa using same_group s member
        · exact (ordered.1 _ (List.mem_map_of_mem member)).ne'

/-- No struct comes in but those that were given. -/
theorem mkAlt_over {members : List Struct} {t : Ty} (made : mkAlt members = .ok t) :
    t.Over (· ∈ members) := by
  have gives := mkAlt_gives (K := (· ∈ members)) (fun _ member => member)
    (by rintro rfl; cases made)
  rwa [made] at gives

end Ty

theorem Program.Over.type? {K : Known} {p : Program} (valid : p.Over K) {name : String} {t : Ty}
    (found : p.env.type? name = some t) : t.Over K := by
  rcases eq_some_of_orElse found with own | root
  · exact valid.own.types _ (mem_of_lookup own)
  · exact valid.root.types _ (mem_of_lookup root)

namespace Safe

variable {K : Known} {cx : Lowering}

theorem arrayLength {len : Expr} (sound : cx.Sound) (clean : len.Clean) :
    Safe K (cx.arrayLength len) fun _ _ => True := by
  unfold Lowering.arrayLength
  refine bind (sound.expr K len clean).inBlock fun L _ _ p _ => ?_
  refine locating ?_
  split
  · split
    · exact pure trivial
    · exact problem _
  · split
    · exact problem _
    · exact problem _

theorem namedTy (name : String) : Safe K (Lowering.namedTy name) fun L t => t.Over L := by
  unfold Lowering.namedTy
  have params : Safe K (Emit.look (·.frame.typeParams)) fun L ps => ∀ p ∈ ps, p.2.Over L :=
    look fun _ valid => valid.frame.typeParams
  refine bind params fun L _ _ ps own => ?_
  split
  · rename_i ty found
    exact pure (own _ (mem_of_lookup found))
  · have env : Safe L (Emit.look (·.program.env)) fun M e => ∀ t, e.type? name = some t → t.Over M :=
      look fun _ valid t found => valid.program.type? found
    refine bind env fun M _ _ e types => ?_
    split
    · rename_i ty found
      exact pure (types ty found)
    · exact problem _

theorem memberStructs {t : Ty} (valid : t.Over K) (span : Span) :
    Safe K (Lowering.memberStructs t span) fun L ss => ss ≠ [] ∧ ∀ s ∈ ss, L s := by
  unfold Lowering.memberStructs
  split
  · exact pure ⟨by simp, fun x member => List.mem_singleton.mp member ▸ valid⟩
  · rename_i s ss
    refine pure ⟨by simp, fun x member => ?_⟩
    rcases List.mem_cons.mp member with rfl | rest
    · exact valid.1
    · exact (valid.2.2 x rest).1
  · exact locating (problem _)
  · exact locating (problem _)

mutual

theorem type {K : Known} {t : TypeExpr} (sound : cx.Sound) (clean : t.Clean) :
    Safe K (cx.type t) fun L ty => ty.Over L := by
  cases clean with
  | named _ =>
    rw [Lowering.type]
    refine locating ?_
    split
    · exact namedTy _
    · exact problem _
  | array of len =>
    rw [Lowering.type]
    refine locating ?_
    refine bind (type sound of) fun L _ _ element valid => ?_
    refine bind (arrayLength sound len) fun M sub _ n _ => ?_
    exact lift ((Ty.mkArray_gives (valid.mono sub) n).imp fun _ h => h.2)
  | alt nonempty members =>
    rw [Lowering.type]
    refine locating ?_
    refine bind (memberTypes sound members) fun L _ _ ss known => ?_
    exact lift (Ty.mkAlt_gives known.2 (known.1 nonempty))

theorem memberTypes {K : Known} {ts : List TypeExpr} (sound : cx.Sound) (clean : ∀ t ∈ ts, t.Clean) :
    Safe K (cx.memberTypes ts) fun L ss => (ts ≠ [] → ss ≠ []) ∧ ∀ s ∈ ss, L s := by
  match ts with
  | [] =>
    rw [Lowering.memberTypes]
    exact pure ⟨by simp, by simp⟩
  | ⟨kind, span⟩ :: ts =>
    rw [Lowering.memberTypes]
    refine bind (type sound (clean ⟨kind, span⟩ (by simp))) fun L _ _ ty valid => ?_
    refine bind (memberStructs valid span) fun M sub _ ss known => ?_
    refine bind (memberTypes sound fun t member => clean t (by simp [member])) fun N sub' _ ss' known' => ?_
    refine pure ⟨fun _ => by simp [known.1], fun s member => ?_⟩
    rcases List.mem_append.mp member with front | back
    · exact sub' s (known.2 s front)
    · exact known'.2 s back

end

theorem types {ts : List TypeExpr} (sound : cx.Sound) (clean : ∀ t ∈ ts, t.Clean) :
    Safe K (cx.types ts) fun L tys => ∀ t ∈ tys, t.Over L := by
  have each := mapM (K := K) (f := cx.type) (R := fun L _ t => t.Over L)
    (fun _ _ sub _ _ valid => valid.mono sub) fun _ _ t member => type sound (clean t member)
  refine each.mono fun L _ tys related t member => ?_
  obtain ⟨_, _, valid⟩ := exists_left_of_forall₂ related member
  exact valid

/-! ## Bodies of functions -/

theorem activation {f : UserFn} {typeArgs : List Ty} (valid : ∀ t ∈ typeArgs, t.Over K) :
    (f.activation typeArgs).Over K where
  level := by simp [UserFn.activation, Level.Over]
  outer := by simp [UserFn.activation]
  typeParams p member := by
    have zipped := List.mem_reverse.mp member
    exact valid p.2 (List.of_mem_zip zipped).2

theorem signature {f : UserFn} {typeArgs : List Ty} (sound : cx.Sound) (clean : f.Clean)
    (valid : ∀ t ∈ typeArgs, t.Over K) :
    Safe K (f.signature cx typeArgs) fun L p => (∀ t ∈ p.1, t.Over L) ∧ p.2.Over L := by
  unfold UserFn.signature
  refine inFrame (activation valid) ?_
  refine bind (types sound ?_) fun L _ _ params own => ?_
  · simpa using fun p member => clean.1.params p member
  · cases ret : f.decl.ret with
    | some ty =>
      refine bind (type sound (clean.1.ret ty ret)) fun M sub _ t own' => ?_
      exact pure ⟨fun t member => (own t member).mono sub, own'⟩
    | none =>
      refine bind voidTy fun M sub _ t unit => ?_
      exact pure ⟨fun t member => (own t member).mono sub, (Value.Of.unit unit).ty_over⟩

theorem bindParams {ps : List FnParam} {tys : List Ty} (valid : ∀ t ∈ tys, t.Over K) :
    Safe K (UserFn.bindParams ps tys) fun _ _ => True := by
  induction ps generalizing K tys with
  | nil => exact pure trivial
  | cons p ps ih =>
    cases tys with
    | nil => exact pure trivial
    | cons ty tys =>
      have own := valid ty (by simp)
      have rest := fun t (member : t ∈ tys) => valid t (by simp [member])
      rw [UserFn.bindParams]
      cases void : ty.isVoid with
      | true =>
        refine of_closed fun closed => ?_
        refine bind (bindName _ (closed.zero_over own void)) fun L sub _ _ _ => ?_
        exact ih fun t member => (rest t member).mono sub
      | false =>
        simp only [Bool.false_eq_true, if_false]
        refine bind (fresh _) fun L sub _ name _ => ?_
        refine bind (bindName _ (Value.over_code (own.mono sub) void)) fun M sub' _ _ _ => ?_
        refine bind (ih fun t member => (rest t member).mono (sub.trans sub')) fun N _ _ _ _ => ?_
        exact pure trivial

theorem sourceText {parts : List SourcePart} (sound : cx.Sound)
    (clean : ∀ e, SourcePart.interp e ∈ parts → e.Clean) :
    Safe K (UserFn.sourceText cx parts) fun _ _ => True := by
  induction parts generalizing K with
  | nil => exact pure trivial
  | cons part parts ih =>
    have rest := fun e (member : SourcePart.interp e ∈ parts) => clean e (by simp [member])
    cases part with
    | text t =>
      rw [UserFn.sourceText]
      exact bind (ih rest) fun _ _ _ _ _ => pure trivial
    | interp e =>
      rw [UserFn.sourceText]
      refine bind (sound.expr K e (clean e (by simp))) fun L _ _ v own => ?_
      have value : Safe L (Emit.locating e.span (liftM (v.nonVoid "interpolated expression")))
          fun M w => w.Over M ∧ w.ty.isVoid = false := by
        refine locating (lift ((v.nonVoid_gives L _).imp ?_))
        rintro _ ⟨rfl, kept⟩
        exact ⟨own, kept⟩
      refine bind value fun M _ _ w kept => ?_
      refine bind (toCode ⟨kept.1, rfl⟩ kept.2 cx.target) fun N _ _ c _ => ?_
      exact bind (ih rest) fun _ _ _ _ _ => pure trivial

theorem sourceBody {blocks : List SourceBlock} (sound : cx.Sound) (clean : ∀ b ∈ blocks, b.Clean) :
    Safe K (UserFn.sourceBody cx blocks) fun _ _ => True := by
  unfold UserFn.sourceBody
  split
  · exact problem _
  · rename_i b found
    have member : b ∈ blocks := by
      rcases eq_some_of_orElse found with own | general
      · exact List.mem_of_find?_eq_some own
      · exact List.mem_of_find?_eq_some general
    obtain ⟨target, parts⟩ := b
    cases clean _ member with
    | mk parts => exact bind (sourceText sound parts) fun _ _ _ _ _ => pure trivial

theorem locatingTail {α : Type} {act : Emit α} {Q : Known → α → Prop} (body : Block)
    (h : Safe K act Q) : Safe K (UserFn.locatingTail body act) Q := by
  unfold UserFn.locatingTail
  split
  · exact locating h
  · exact h

theorem ordinaryBody {f : UserFn} {ret : Ty} (sound : cx.Sound) (clean : f.Clean)
    (valid : ret.Over K) : Safe K (f.ordinaryBody cx ret) fun _ _ => True := by
  unfold UserFn.ordinaryBody
  refine bind (sound.block K _ clean.1.body) fun L sub _ v own => ?_
  refine bind (locatingTail _ (convert own (valid.mono sub) cx.target)) fun M sub' _ w own' => ?_
  cases void : ret.isVoid with
  | true => exact bind (discard cx.target w) fun _ _ _ _ _ => pure trivial
  | false => exact bind (toCode own' void cx.target) fun _ _ _ _ _ => pure trivial

theorem emit {f : UserFn} {inst : Instance} {typeArgs : List Ty} (sound : cx.Sound)
    (clean : f.Clean) (valid : ∀ t ∈ typeArgs, t.Over K) (params : ∀ t ∈ inst.params, t.Over K)
    (ret : inst.ret.Over K) : Safe K (f.emit cx inst typeArgs) fun _ _ => True := by
  unfold UserFn.emit
  refine inFrame (activation valid) ?_
  refine bind (bindParams params) fun L sub _ _ _ => ?_
  refine bind (inBlock (Q := fun _ _ => True) ?_) fun _ _ _ _ _ => pure trivial
  cases source : f.source with
  | some blocks => exact sourceBody sound (clean.2 blocks source)
  | none => exact ordinaryBody sound clean (ret.mono sub)

/-! ## Calls of declared functions -/

def InstanceOver (K : Known) (inst : Instance) : Prop :=
  (∀ t ∈ inst.params, t.Over K) ∧ inst.ret.Over K

theorem instantiate {f : UserFn} {typeArgs : List Ty} (sound : cx.Sound) (clean : f.Clean)
    (valid : ∀ t ∈ typeArgs, t.Over K) :
    Safe K (f.instantiate cx typeArgs) fun L inst => InstanceOver L inst := by
  unfold UserFn.instantiate
  have lookup : Safe K (Emit.look (·.program)) fun L p => ∀ i ∈ p.instances, InstanceOver L i.2 :=
    look fun _ state => state.program.instances
  refine bind lookup fun L sub _ p instances => ?_
  dsimp only
  split
  · rename_i inst found
    obtain ⟨entry, listed, rfl⟩ := Option.map_eq_some_iff.mp found
    exact pure (instances entry (List.mem_of_find?_eq_some listed))
  · have validL := fun t member => (valid t member).mono sub
    refine bind (signature sound clean validL) fun M sub' _ types own => ?_
    have rest (N : Known) (more : M.Sub N) (backend : String) : Safe N (do
        let inst : Instance := ⟨backend, types.1, types.2⟩
        Emit.modifyProgram fun p =>
          { p with instances := (⟨f.id, cx.target, typeArgs⟩, inst) :: p.instances }
        let code ← f.emit cx inst typeArgs
        Emit.modifyProgram fun p => p.modifyOutput cx.target fun o =>
          { o with functions := o.functions ++ [code] }
        return inst) fun P inst => InstanceOver P inst := by
      have params := fun t member => (own.1 t member).mono more
      have ret := own.2.mono more
      refine bind (modifyProgram fun p state => ?_) fun P sub3 _ _ _ => ?_
      · refine { state with instances := fun i member => ?_ }
        rcases List.mem_cons.mp member with rfl | old
        · exact ⟨params, ret⟩
        · exact state.instances i old
      · have paramsP := fun t member => (params t member).mono sub3
        have retP := ret.mono sub3
        refine bind (emit sound clean (fun t member =>
          (validL t member).mono ((sub'.trans more).trans sub3)) paramsP retP)
          fun Q sub4 _ code _ => ?_
        refine bind (modifyOutput _ _) fun R sub5 _ _ _ => ?_
        exact pure ⟨fun t member => (paramsP t member).mono (sub4.trans sub5),
          retP.mono (sub4.trans sub5)⟩
    split
    · rw [pure_bind]
      exact rest M (.refl M) _
    · exact bind (fresh _) fun N more _ backend _ => rest N more backend

theorem bindArgs {ps : List FnParam} {vs : List Value} (valid : ∀ v ∈ vs, v.Over K) :
    Safe K (UserFn.bindArgs ps vs) fun _ _ => True := by
  induction ps generalizing K vs with
  | nil => exact pure trivial
  | cons p ps ih =>
    cases vs with
    | nil => exact pure trivial
    | cons v vs =>
      rw [UserFn.bindArgs]
      refine bind (bindName _ (valid v (by simp))) fun L sub _ _ _ => ?_
      exact ih fun u member => (valid u (by simp [member])).mono sub

theorem compute {f : UserFn} {inst : Instance} {args : List Value} {typeArgs : List Ty}
    (sound : cx.Sound) (clean : f.Clean) (own : InstanceOver K inst)
    (validArgs : ∀ v ∈ args, v.Over K) (valid : ∀ t ∈ typeArgs, t.Over K) :
    Safe K (f.compute cx inst args typeArgs) fun L v => ∀ w ∈ v, w.Of L inst.ret := by
  unfold UserFn.compute
  have body : Safe K (do
      UserFn.bindArgs f.decl.params args
      let v ← cx.block f.decl.body
      liftM (v.convert cx.target inst.ret) : Emit Value) fun L v => v.Of L inst.ret := by
    refine bind (bindArgs validArgs) fun L sub _ _ _ => ?_
    refine bind (sound.block L _ clean.1.body) fun M sub' _ v h => ?_
    exact convert h (own.2.mono (sub.trans sub')) cx.target
  refine bind (computing (inFrame (activation valid) body.inBlock)) fun L _ _ p h => ?_
  refine pure ?_
  split
  · rintro _ ⟨⟩
    exact h
  · simp

theorem convertArgs {vs : List Value} {tys : List Ty} (validArgs : ∀ v ∈ vs, v.Over K)
    (valid : ∀ t ∈ tys, t.Over K) (span : Span) :
    Safe K (UserFn.convertArgs cx span vs tys) fun L ws =>
      (∀ w ∈ ws, w.Over L) ∧ List.Forall₂ (fun w t => w.ty = t) ws (tys.take ws.length) := by
  induction vs generalizing K tys with
  | nil => exact pure ⟨by simp, by simp⟩
  | cons v vs ih =>
    cases tys with
    | nil => exact pure ⟨by simp, by simp⟩
    | cons ty tys =>
      rw [UserFn.convertArgs]
      refine bind (expect (validArgs v (by simp)) (valid ty (by simp)) cx.target span)
        fun L sub _ w own => ?_
      refine bind (ih (fun u member => (validArgs u (by simp [member])).mono sub)
        fun t member => (valid t (by simp [member])).mono sub) fun M sub' _ ws rest => ?_
      refine pure ⟨fun u member => ?_, .cons own.2 rest.2⟩
      rcases List.mem_cons.mp member with rfl | later
      · exact own.1.mono sub'
      · exact rest.1 u later

theorem argCodes {vs : List Value} {tys : List Ty} (validArgs : ∀ v ∈ vs, v.Over K)
    (typed : List.Forall₂ (fun v t => v.ty = t) vs (tys.take vs.length)) (target : Target) :
    Safe K (liftM (UserFn.argCodes target vs tys)) fun _ _ => True := by
  refine of_closed fun closed => lift ?_
  induction vs generalizing tys with
  | nil => exact trivial
  | cons v vs ih =>
    cases tys with
    | nil => exact trivial
    | cons ty tys =>
      rw [List.length_cons, List.take_succ_cons, List.forall₂_cons] at typed
      have rest := ih (fun u member => validArgs u (by simp [member])) typed.2
      rw [UserFn.argCodes]
      cases void : ty.isVoid with
      | true => exact rest
      | false =>
        have own : v.Of K ty := ⟨validArgs v (by simp), typed.1⟩
        exact .bind ((own.toCode_gives closed void target).imp fun _ _ => .bind (rest.imp
          fun _ _ => trivial))

theorem writeCall {inst : Instance} {args : List Value} (own : InstanceOver K inst)
    (validArgs : ∀ v ∈ args, v.Over K)
    (typed : List.Forall₂ (fun v t => v.ty = t) args (inst.params.take args.length)) :
    Safe K (UserFn.writeCall cx inst args) fun L v => v.Of L inst.ret := by
  unfold UserFn.writeCall
  refine bind (argCodes validArgs typed cx.target) fun L sub closed codes _ => ?_
  have ret := own.2.mono sub
  cases void : inst.ret.isVoid with
  | true =>
    refine bind (line _) fun M sub' closedM _ _ => ?_
    exact pure ⟨closedM.zero_over (ret.mono sub') void, rfl⟩
  | false => exact pure (Value.Of.code ret void)

theorem answer {f : UserFn} {inst : Instance} {args : List Value} {typeArgs : List Ty}
    (sound : cx.Sound) (clean : f.Clean) (own : InstanceOver K inst)
    (validArgs : ∀ v ∈ args, v.Over K) (valid : ∀ t ∈ typeArgs, t.Over K) (span : Span) :
    Safe K (f.answer cx inst args typeArgs span) fun L v => v.Of L inst.ret := by
  unfold UserFn.answer
  refine bind (convertArgs validArgs own.1 span) fun M sub _ args' fits => ?_
  have depth : Safe M (Emit.look (·.constDepth)) fun _ _ => True := look fun _ _ => trivial
  refine bind depth fun N sub' _ depth _ => ?_
  have more := sub.trans sub'
  have ownN : InstanceOver N inst := ⟨fun t member => (own.1 t member).mono more, own.2.mono more⟩
  have fitsN := fun v member => (fits.1 v member).mono sub'
  split
  · refine bind (compute sound clean ownN fitsN fun t member =>
      (valid t member).mono more) fun P sub3 _ known result => ?_
    cases known with
    | some v => exact pure (result v rfl)
    | none =>
      exact writeCall ⟨fun t member => (ownN.1 t member).mono sub3, ownN.2.mono sub3⟩
        (fun v member => (fitsN v member).mono sub3) fits.2
  · rw [pure_bind]
    exact writeCall ownN fitsN fits.2

/-- The function may be written by another lowering than the call is. -/
theorem userCall {writer : Lowering} {f : UserFn} {args : List Value} {typeArgs : List Ty}
    (written : writer.Sound) (sound : cx.Sound) (clean : f.Clean)
    (validArgs : ∀ v ∈ args, v.Over K) (valid : ∀ t ∈ typeArgs, t.Over K) (span : Span) :
    Safe K (do f.answer cx (← f.instantiate writer typeArgs) args typeArgs span)
      fun L v => v.Over L := by
  refine bind (instantiate written clean valid) fun L sub _ inst own => ?_
  exact (answer sound clean own (fun v member => (validArgs v member).mono sub)
    (fun t member => (valid t member).mono sub) span).mono fun _ _ _ h => h.1

end Safe

/-! ## Functions and their arguments -/

def ParamTy.Takes (K : Known) (p : ParamTy) (v : Value) : Prop :=
  match p with
  | .exact ty => v.Of K ty
  | .vector k => v.Shaped K k
  | .any => v.Over K

theorem Behaviour.Fits.params_over {K : Known} (closed : K.Closed) {params : List ParamTy}
    {b : Behaviour} (fits : b.Fits K params) : ∀ p ∈ params, p.Over K := by
  cases fits with
  | construct known =>
    intro p member
    obtain ⟨f, found, rfl⟩ := List.mem_map.mp member
    exact closed.fields _ known f found
  | splat _ _ => simp [ParamTy.Over, Ty.Over]
  | matrixProduct known _ valid _ =>
    intro p member
    rcases List.mem_cons.mp member with rfl | rest
    · exact known
    · rw [List.mem_singleton.mp rest]
      exact valid
  | map _ _ forms =>
    intro p member
    rcases forms p member with rfl | rfl
    · trivial
    · trivial
  | reduce _ =>
    intro p member
    rw [List.eq_of_mem_replicate member]
    trivial
  | count => simp [ParamTy.Over]
  | normalize => simp [ParamTy.Over]
  | cast _ _ => simp [ParamTy.Over, Ty.Over]
  | user _ valid => exact valid

theorem Function.length_of_scores {ps : List Param} {ts : List Ty} {n : Nat}
    (scored : Function.scores ps ts = some n) : ps.length = ts.length := by
  induction ps generalizing ts n with
  | nil =>
    cases ts with
    | nil => rfl
    | cons t ts => simp [Function.scores] at scored
  | cons p ps ih =>
    cases ts with
    | nil => simp [Function.scores] at scored
    | cons t ts =>
      simp only [Function.scores, Option.bind_eq_bind, Option.bind_eq_some_iff] at scored
      obtain ⟨_, _, m, rest, _⟩ := scored
      simp [ih rest]

/-- A call means a function that takes as many arguments. -/
theorem resolve_gives (K : Known) (name : String) (candidates : List Candidate) (args : List Ty) :
    Gives (resolve name candidates args)
      (fun f => (∃ c ∈ candidates, c.function = f) ∧ f.params.length = args.length) K.Excuses := by
  unfold resolve
  dsimp only
  split
  · exact K.excuses_problem _
  · split
    · exact K.excuses_problem _
    · rename_i s c found
      obtain ⟨member, scored⟩ := Candidate.accepts_of_best found
      exact ⟨⟨c, member, rfl⟩, Function.length_of_scores scored⟩
    · exact K.excuses_problem _

namespace Safe

variable {K : Known} {cx : Lowering}

theorem arguments_gives (closed : K.Closed) {vs : List Value} {ps : List Param}
    (valid : ∀ v ∈ vs, v.Over K) (params : ∀ p ∈ ps.map Param.ty, p.Over K)
    (count : ps.length = vs.length) :
    Gives (cx.arguments vs ps)
      (fun ws => List.Forall₂ (fun p w => p.Takes K w) (ps.map Param.ty) ws) K.Excuses := by
  induction vs generalizing ps with
  | nil =>
    rw [List.length_eq_zero_iff.mp count]
    exact .nil
  | cons v vs ih =>
    cases ps with
    | nil => simp at count
    | cons p ps =>
      have own := valid v (by simp)
      have taken : Gives (cx.argument v p.ty) (fun w => p.ty.Takes K w) K.Excuses := by
        cases form : p.ty with
        | exact ty =>
          have ty_over : ty.Over K := by
            have h := params p.ty (by simp)
            rw [form] at h
            exact h
          exact closed.convert_gives own ty_over cx.target
        | vector k =>
          unfold Lowering.argument
          dsimp only
          split
          case isTrue shaped =>
            obtain ⟨shape, found, same⟩ := Option.any_eq_true _ _ |>.mp shaped
            have kind : shape.1 = k := by simpa using same
            exact ⟨own, shape.2, by rw [found, ← kind]⟩
          case isFalse =>
            have scalar : (Ty.scalar k).Over K := trivial
            exact (closed.convert_gives own scalar cx.target).imp fun w h =>
              Value.Of.shaped h (Ty.shape?_scalar k)
        | any => exact own
      rw [Lowering.arguments]
      refine .bind (taken.imp fun w hw => .bind ((ih (fun u member => valid u (by simp [member]))
        (fun q member => params q (by simp [List.mem_map.mp member])) (by simpa using count)).imp
        fun ws hws => ?_))
      exact .cons hw hws

/-- What a function does is safe on arguments that fit it. -/
theorem run {b : Behaviour} {params : List ParamTy} {args : List Value} {typeArgs : List Ty}
    (sound : cx.Sound) (fits : b.Fits K params)
    (taken : List.Forall₂ (fun p w => ParamTy.Takes K p w) params args)
    (valid : ∀ t ∈ typeArgs, t.Over K) (span : Span) :
    Safe K (b.run cx args typeArgs span) fun L v => v.Over L := by
  cases fits with
  | construct known =>
    refine of_closed fun closed => lift (.of_exists ?_)
    obtain ⟨w, run, own, _⟩ :=
      closed.construct_ok known (List.forall₂_map_left_iff.mp taken) cx.target
    exact ⟨w, run, own⟩
  | @splat s k w known shape =>
    obtain ⟨v, rfl, own⟩ : ∃ v, args = [v] ∧ v.Of K (.scalar k) := by
      cases taken with
      | cons own none_left =>
        cases none_left
        exact ⟨_, rfl, own⟩
    refine bind (cache own cx.target) fun L sub closed u own => ?_
    rw [shape]
    have valid : (Ty.struct s).Over L := sub s known
    have scalars : Value.Scalars L k (List.replicate w u) := fun x member => by
      rw [List.eq_of_mem_replicate member]
      exact own
    obtain ⟨r, run, own', _⟩ := closed.fromScalars_ok valid shape (by simp) scalars cx.target
    exact lift (.of_exists ⟨r, run, own'⟩)
  | @matrixProduct m column w known matrix _ shape =>
    obtain ⟨a, v, rfl, ownM, ownV⟩ : ∃ a v, args = [a, v] ∧ a.Of K (.struct m) ∧ v.Of K column := by
      cases taken with
      | cons ownM rest =>
        cases rest with
        | cons ownV none_left =>
          cases none_left
          exact ⟨_, _, rfl, ownM, ownV⟩
    exact matrixProduct ownM matrix ownV shape cx.target
  | @map op k _ supports arity forms =>
    refine (mapOp supports (fun v member => ?_) (taken.length_eq.symm.trans arity) cx.target).mono
      fun _ _ _ h => h.1
    obtain ⟨p, found, h⟩ := exists_left_of_forall₂ taken member
    rcases forms p found with rfl | rfl
    · exact h
    · exact Value.Of.shaped h (Ty.shape?_scalar k)
  | @reduce r k supports =>
    refine (reduce supports (fun v member => ?_) (by
      rw [← taken.length_eq, List.length_replicate]) cx.target).mono fun _ _ _ h => h.1
    obtain ⟨p, found, h⟩ := exists_left_of_forall₂ taken member
    rw [List.eq_of_mem_replicate found] at h
    exact h
  | count =>
    cases taken with
    | cons own none_left =>
      cases none_left
      exact count _
  | normalize =>
    cases taken with
    | cons own none_left =>
      cases none_left
      exact (normalize own cx.target).mono fun _ _ _ h => h.1
  | cast source goal =>
    cases taken with
    | cons own none_left =>
      cases none_left
      exact cast source goal own cx.target
  | user clean _ =>
    refine sound.user K _ args typeArgs span clean (fun v member => ?_) valid
    obtain ⟨p, _, h⟩ := exists_left_of_forall₂ taken member
    cases p with
    | exact ty => exact h.1
    | vector k => exact h.1
    | any => exact h

theorem dispatch {candidates : List Candidate} {args : List Value} {typeArgs : List Ty}
    (sound : cx.Sound) (functions : ∀ c ∈ candidates, c.function.Over K)
    (validArgs : ∀ v ∈ args, v.Over K) (valid : ∀ t ∈ typeArgs, t.Over K) (display : String)
    (span : Span) : Safe K (cx.dispatch display candidates args typeArgs span) fun L v => v.Over L := by
  refine of_closed fun closed => ?_
  unfold Lowering.dispatch
  refine bind (lift (Q := fun L f => f.Over L ∧ f.params.length = args.length)
    ((resolve_gives K display candidates (args.map Value.ty)).imp ?_)) fun L sub closedL f found => ?_
  · rintro f ⟨⟨c, member, rfl⟩, count⟩
    exact ⟨functions c member, by simpa using count⟩
  have generics : Gives (Lowering.checkGenerics display f typeArgs) (fun _ => True) L.Excuses := by
    unfold Lowering.checkGenerics
    split_ifs
    · trivial
    · exact L.excuses_problem _
    · exact L.excuses_problem _
  refine bind (lift (Q := fun _ _ => True) generics) fun M sub' closedM _ _ => ?_
  have more := sub.trans sub'
  have fits : f.behaviour.Fits M (f.params.map Param.ty) := found.1.mono sub'
  refine bind (lift (Q := fun N ws =>
    List.Forall₂ (fun p w => ParamTy.Takes N p w) (f.params.map Param.ty) ws)
    (arguments_gives closedM (fun v member => (validArgs v member).mono more)
      (fits.params_over closedM) found.2)) fun N sub'' _ ws taken => ?_
  exact run sound (fits.mono sub'') taken (fun t member => (valid t member).mono (more.trans sub''))
    span

end Safe

theorem Scope.Over.candidates {K : Known} {s : Scope} (valid : s.Over K) (depth : Nat)
    (name : String) : ∀ c ∈ s.candidates depth name, c.function.Over K := by
  intro c member
  obtain ⟨p, kept, rfl⟩ := List.mem_map.mp member
  exact valid.functions p (List.mem_filter.mp kept).1

theorem Program.Over.candidates {K : Known} {p : Program} (valid : p.Over K) (name : String) :
    ∀ c ∈ p.env.candidates name, c.function.Over K := by
  intro c member
  rcases List.mem_append.mp member with own | root
  · exact valid.own.candidates 0 name c own
  · exact valid.root.candidates 1 name c root

namespace Safe

variable {K : Known} {cx : Lowering} {args : List Value} {typeArgs : List Ty}

theorem call (sound : cx.Sound) (validArgs : ∀ v ∈ args, v.Over K)
    (valid : ∀ t ∈ typeArgs, t.Over K) (name : String) (span : Span) :
    Safe K (cx.call name args typeArgs span) fun L v => v.Over L := by
  have env : Safe K (Emit.look (·.program.env)) fun L e =>
      ∀ c ∈ e.candidates name, c.function.Over L := look fun _ state => state.program.candidates name
  refine bind env fun L sub _ e functions => ?_
  exact dispatch sound functions (fun v member => (validArgs v member).mono sub)
    (fun t member => (valid t member).mono sub) name span

theorem callBuiltin (sound : cx.Sound) (validArgs : ∀ v ∈ args, v.Over K)
    (valid : ∀ t ∈ typeArgs, t.Over K) (name : String) (span : Span) :
    Safe K (cx.callBuiltin name args typeArgs span) fun L v => v.Over L := by
  have env : Safe K (Emit.look (·.program.env)) fun L e =>
      ∀ c ∈ e.builtins name, c.function.Over L :=
    look fun _ state => state.program.root.candidates 0 name
  refine bind env fun L sub _ e functions => ?_
  exact dispatch sound functions (fun v member => (validArgs v member).mono sub)
    (fun t member => (valid t member).mono sub) _ span

theorem operator (sound : cx.Sound) (validArgs : ∀ v ∈ args, v.Over K) (key symbol : String)
    (span : Span) : Safe K (cx.operator key symbol args span) fun L v => v.Over L := by
  have env : Safe K (Emit.look (·.program.env)) fun L e =>
      ∀ c ∈ e.candidates key, c.function.Over L := look fun _ state => state.program.candidates key
  refine bind env fun L sub _ e functions => ?_
  exact dispatch sound functions (fun v member => (validArgs v member).mono sub) (by simp) symbol
    span

end Safe
end Ember

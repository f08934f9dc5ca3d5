import Ember.Lower.Expr
import Ember.Proofs.Safe.Call

/-!
# The rules of lowering, safely

Each rule is safe if what it gets to work with is sound, so lowering up to any depth is.
-/

set_option autoImplicit false

namespace Ember

open Emit

/-! ## Structs that come about on the way -/

namespace Known

/-- A struct declared alone has a group of its own. -/
theorem alone {K : Known} {matrix : Bool} {v : Variant} {s : Struct} {ids ids' : Ids}
    (below : K.Below ids.next)
    (declared : Struct.Declared (Ty.Over K) matrix ids.next none [v] ⟨ids.next + 1⟩ [s] ids') {a b : Struct}
    (knownA : K.add [s] a) (knownB : K.add [s] b) (differ : a.uid ≠ b.uid)
    (same : a.group = b.group) : K a ∧ K b := by
  obtain ⟨_, _, new⟩ := declared.new (List.mem_singleton_self s)
  have group := new.group_eq
  rcases knownA with ha | ha <;> rcases knownB with hb | hb
  · exact ⟨ha, hb⟩
  · rw [List.mem_singleton.mp hb] at same
    have old := (below a ha).2
    omega
  · rw [List.mem_singleton.mp ha] at same
    have old := (below b hb).2
    omega
  · rw [List.mem_singleton.mp ha, List.mem_singleton.mp hb] at differ
    exact absurd rfl differ

end Known

/-- A program as it was, over the structs that were there and a new one. -/
theorem Program.Over.declare {K : Known} {p : Program} (valid : p.Over K) {matrix : Bool}
    {v : Variant} {s : Struct} {ids : Ids}
    (declared : Struct.Declared (Ty.Over K) matrix p.ids.next none [v] ⟨p.ids.next + 1⟩ [s] ids) :
    Program.Over (K.add [s]) { p with ids } where
  closed := valid.closed.add valid.below declared
  below := valid.below.add declared
  own := valid.own.mono (K.subset_add [s])
  root := valid.root.mono (K.subset_add [s])
  builtins := valid.builtins.mono (K.subset_add [s])
  instances i member := by
    have old := valid.instances i member
    exact ⟨fun t h => (old.1 t h).mono (K.subset_add [s]), old.2.mono (K.subset_add [s])⟩
  groups a b knownA knownB differ same := by
    obtain ⟨ha, hb⟩ := Known.alone valid.below declared knownA knownB differ same
    exact valid.groups a b ha hb differ same
  declared := valid.declared
  prelude := valid.prelude

/-! ## Parts of rules -/

namespace Lowering

variable {cx : Lowering} {v : Value} {mutable : Bool}

def bound (cx : Lowering) (name : String) (mutable : Bool) (v : Value) : Emit Value := do
  if v.ty.isVoid then return .const v.ty.zero v.ty
  if !mutable && (v.isConst || (v.isSimple cx.target && !v.assignable)) then return v
  let backend ← fresh name
  let init ← if mutable || v.assignable then liftM (ownedCode cx.target v)
    else liftM (v.toCode cx.target)
  declareVar backend v.ty (some init) mutable
  return ⟨.code (.name backend), v.ty, mutable⟩

theorem bindLocal_eq (name : String) :
    cx.bindLocal name mutable v = (do bindName name (← cx.bound name mutable v)) := by
  unfold bindLocal bound
  split
  · rfl
  · split
    · rfl
    · cases mutable || v.assignable <;> simp [bind_assoc]

def arrayValue (target : Target) (ty : Ty) (items : List Value) : Emit Value := do
  match Value.consts? items with
  | some cs => return .const (.aggregate cs) ty
  | none =>
    let codes ← items.mapM fun v => liftM (v.toCode target)
    return .code (Code.arrayOf target ty codes) ty

def arrayFrom (cx : Lowering) (values : List Value) : Emit Value :=
  match values with
  | [] => problem .emptyArray
  | first :: rest => do
    let of ← elementTy first.ty rest
    let ty ← Ty.mkArray of (first :: rest).length
    arrayValue cx.target ty (← (first :: rest).mapM fun v => liftM (v.convert cx.target of))

theorem arrayLit_eq (items : List Expr) :
    cx.arrayLit items = (do cx.arrayFrom (← cx.elements items)) := rfl

end Lowering

namespace Safe

variable {K : Known}

theorem declareStruct {v : Variant} (valid : ∀ f ∈ v.fields, f.ty.Over K) :
    Safe K (Emit.numbering (Struct.declare v false)) fun L s => L s ∧ s.fields = v.fields := by
  intro state own
  have ends := Struct.declare_ends own.program.closed false v valid state.program.ids
  unfold Ends Emit.numbering at *
  cases run : Struct.declare v false state.program.ids with
  | ok s ids =>
    rw [run] at ends
    obtain ⟨w, listed, new⟩ := ends.new (List.mem_singleton_self s)
    have new : s.fields = v.fields := List.mem_singleton.mp listed ▸ new.fields_eq
    exact ⟨K.add [s], K.subset_add [s],
      ⟨own.program.declare ends, own.frame.mono (K.subset_add [s])⟩, .inr (by simp), new⟩
  | error f ids =>
    rw [run] at ends
    exact ⟨K, .refl K, { own.program with below := own.program.below.mono ends.1 },
      .of_not_isDefect ends.2⟩

theorem symbolTy (name : String) : Safe K (Lowering.symbolTy name) fun L t => t.IsUnit L := by
  unfold Lowering.symbolTy
  have env : Safe K (Emit.look (·.program.env)) fun L e => ∀ t, e.symbol? name = some t →
      t.IsUnit L := look fun s valid t found => by
    rcases eq_some_of_orElse found with own | root
    · exact valid.program.own.symbols _ (mem_of_lookup own)
    · exact valid.program.root.symbols _ (mem_of_lookup root)
  refine bind env fun L _ _ e symbols => ?_
  split
  · rename_i ty found
    exact pure (symbols ty found)
  · refine bind (declareStruct (by simp)) fun M _ _ s new => ?_
    have unit : (Ty.struct s).IsUnit M := ⟨s, rfl, new⟩
    refine bind (modifyProgram fun p valid => valid.modifyScope ?_ rfl valid.declared)
      fun N sub _ _ _ => pure (unit.mono sub)
    exact { valid.own with symbols := List.forall_mem_cons.mpr ⟨unit, valid.own.symbols⟩ }

theorem declareSlots (s : Struct) : Safe K (Lowering.declareSlots s) fun _ _ => True := by
  unfold Lowering.declareSlots
  split
  · exact modifyOutput _ _
  · exact pure trivial

theorem anonStruct {values : List (Ident × Value)} (valid : ∀ p ∈ values, p.2.Over K)
    (symbol : String) : Safe K (Lowering.anonStruct symbol values) fun L s => L s := by
  unfold Lowering.anonStruct
  dsimp only
  refine bind (look (Q := fun L (e : Environment) => ∀ key s, e.anon? key = some s → L s)
    fun st state key s found => ?_) fun L sub _ e known => ?_
  · obtain ⟨entry, listed, rfl⟩ := Option.map_eq_some_iff.mp found
    rcases eq_some_of_orElse listed with own | root
    · exact state.program.own.anon _ (List.mem_of_find?_eq_some own)
    · exact state.program.root.anon _ (List.mem_of_find?_eq_some root)
  · split
    · rename_i s found
      exact pure (known _ s found)
    · refine bind (declareStruct ?_) fun M _ _ s new => ?_
      · intro f member
        obtain ⟨p, found, rfl⟩ := List.mem_map.mp member
        exact (valid p found).ty.mono sub
      · refine bind (declareSlots s) fun N sub' _ _ _ => ?_
        have known := sub' s new.1
        refine bind (modifyProgram fun p state => state.modifyScope ?_ rfl state.declared)
          fun P sub'' _ _ _ => pure (sub'' s known)
        exact { state.own with anon := List.forall_mem_cons.mpr ⟨known, state.own.anon⟩ }

/-! ## Patterns -/

variable {cx : Lowering}

theorem patternStruct {t : Ty} (valid : t.Over K) (name : Ident) :
    Safe K (Lowering.patternStruct name t) fun _ s => t = .struct s := by
  have env : Safe K (Emit.look (·.program.env)) fun L e => ∀ u, e.type? name.name = some u →
      u.Over L := look fun _ state u found => state.program.type? found
  refine bind env fun L sub closed e types => locating ?_
  split
  · rename_i s found
    split
    · rename_i same
      exact pure (closed.eq_of_same (types _ found) (valid.mono sub) same).symm
    · exact problem _
  · exact problem _
  · exact problem _

theorem patternField (s : Struct) (name : Ident) :
    Safe K (Lowering.patternField s name) fun _ i => ∃ f, s.fields[i]? = some f := by
  unfold Lowering.patternField
  split
  · rename_i i found
    refine pure ?_
    have lt := (List.findIdx?_eq_some_iff_findIdx_eq.mp found).1
    exact ⟨_, List.getElem?_eq_getElem lt⟩
  · exact locating (problem _)

theorem checkFields (s : Struct) (names : List String) :
    Safe K (Lowering.checkFields s names) fun _ _ => True := by
  unfold Lowering.checkFields
  split
  · exact problem _
  · split
    · exact problem _
    · exact pure trivial

theorem checkArrayPattern (t : Ty) (count : Nat) (rest : Bool) :
    Safe K (Lowering.checkArrayPattern t count rest) fun _ _ => True := by
  unfold Lowering.checkArrayPattern
  split
  · exact problem _
  · split
    · exact problem _
    · exact pure trivial

theorem elementAt {v : Value} (h : v.Over K) (i : Nat) :
    Safe K (cx.elementAt v i) fun L w => w.Over L :=
  index h (Value.Of.int _).1 cx.target

theorem bound {v : Value} (h : v.Over K) (name : String)
    (mutable : Bool) : Safe K (cx.bound name mutable v) fun L u => u.Of L v.ty := by
  refine of_closed fun closed => ?_
  unfold Lowering.bound
  split
  case isTrue void => exact pure ⟨closed.zero_over h.ty void, rfl⟩
  case isFalse kept =>
    have kept : v.ty.isVoid = false := by simpa using kept
    split
    · exact pure ⟨h, rfl⟩
    · refine bind (fresh name) fun L sub _ backend _ => ?_
      have own : v.Of L v.ty := ⟨h.mono sub, rfl⟩
      have rest (M : Known) (sub' : L.Sub M) (init : Code) : Safe M (do
          Emit.declareVar backend v.ty (some init) mutable
          return (⟨.code (.name backend), v.ty, mutable⟩ : Value)) fun N u => u.Of N v.ty :=
        bind (declareVar backend v.ty (some init) mutable) fun N sub'' _ _ _ =>
          pure ⟨Value.over_code (own.mono (sub'.trans sub'')).ty_over kept, rfl⟩
      split
      · exact bind (ownedCode own kept cx.target) fun M sub' _ init _ => rest M sub' init
      · exact bind (toCode own kept cx.target) fun M sub' _ init _ => rest M sub' init

theorem bindLocal {v : Value} (h : v.Over K) (name : String) (mutable : Bool) :
    Safe K (cx.bindLocal name mutable v) fun _ _ => True := by
  rw [Lowering.bindLocal_eq]
  exact bind (bound h name mutable) fun _ _ _ _ own => bindName name own.1

mutual

theorem bindPattern {K : Known} {p : Pat} {v : Value} (h : v.Over K) :
    Safe K (cx.bindPattern p v) fun _ _ => True := by
  match p with
  | ⟨.ignore, _⟩ =>
    rw [Lowering.bindPattern]
    exact discard cx.target v
  | ⟨.lit _, _⟩ =>
    rw [Lowering.bindPattern]
    exact pure trivial
  | ⟨.bind name mutable, _⟩ =>
    rw [Lowering.bindPattern]
    exact bindLocal h name mutable
  | ⟨.struct name fields more, span⟩ =>
    rw [Lowering.bindPattern]
    refine bind (patternStruct h.ty name) fun L sub _ s ty => ?_
    have rest (M : Known) (sub' : L.Sub M) : Safe M (do
        cx.bindFields s fields (← Emit.cache cx.target v)) fun _ _ => True :=
      bind (cache ⟨h.mono (sub.trans sub'), ty⟩ cx.target) fun N _ _ w own => bindFields own
    split
    · exact bind (locating (checkFields s _)) fun M sub' _ _ _ => rest M sub'
    · exact rest L (.refl L)
  | ⟨.array items more, _⟩ =>
    rw [Lowering.bindPattern]
    refine bind (checkArrayPattern v.ty items.length more) fun L sub _ _ _ => ?_
    refine bind (cache ⟨h.mono sub, rfl⟩ cx.target) fun M _ _ w own => ?_
    exact bindItems 0 own.1

theorem bindFields {K : Known} {s : Struct} {fs : List FieldPat} {v : Value}
    (h : v.Of K (.struct s)) : Safe K (cx.bindFields s fs v) fun _ _ => True := by
  match fs with
  | [] =>
    rw [Lowering.bindFields]
    exact pure trivial
  | ⟨name, pat⟩ :: fs =>
    rw [Lowering.bindFields]
    refine bind (patternField s name) fun L sub _ i found => ?_
    obtain ⟨f, at_i⟩ := found
    refine bind (field (h.mono sub) rfl at_i cx.target) fun M sub' _ part own => ?_
    refine bind (bindPattern own.1) fun N sub'' _ _ _ => ?_
    exact bindFields (h.mono ((sub.trans sub').trans sub''))

theorem bindItems {K : Known} {ps : List Pat} {v : Value} (i : Nat) (h : v.Over K) :
    Safe K (cx.bindItems i ps v) fun _ _ => True := by
  match ps with
  | [] =>
    rw [Lowering.bindItems]
    exact pure trivial
  | p :: ps =>
    rw [Lowering.bindItems]
    refine bind (elementAt h i) fun L sub _ part own => ?_
    refine bind (bindPattern own) fun M sub' _ _ _ => ?_
    exact bindItems (i + 1) (h.mono (sub.trans sub'))

end

theorem literal (l : Lit) : (Lowering.literal l).Over K := by
  cases l with
  | int n => exact (Value.Of.int n).1
  | float x => exact (Value.Of.float _).1
  | bool b => exact (Value.Of.bool b).1

theorem both {a b : Value} (sound : cx.Sound) (ha : a.Over K) (hb : b.Over K) (span : Span) :
    Safe K (cx.both a b span) fun L v => v.Over L := by
  unfold Lowering.both
  split
  · exact pure hb
  · exact pure ha
  · exact pure ha
  · exact pure hb
  · exact operator sound (by simp [ha, hb]) _ _ span

mutual

theorem testPattern {K : Known} {p : Pat} {v : Value} (sound : cx.Sound) (h : v.Over K) :
    Safe K (cx.testPattern p v) fun L w => w.Over L := by
  match p with
  | ⟨.ignore, _⟩ =>
    rw [Lowering.testPattern]
    exact pure (Value.Of.bool true).1
  | ⟨.bind name mutable, _⟩ =>
    rw [Lowering.testPattern]
    exact pure (Value.Of.bool true).1
  | ⟨.lit l, span⟩ =>
    rw [Lowering.testPattern]
    exact operator sound (by simp [h, literal l]) _ _ span
  | ⟨.struct name fields more, span⟩ =>
    rw [Lowering.testPattern]
    refine bind (patternStruct h.ty name) fun L sub _ s ty => ?_
    exact testFields sound span (Value.Of.bool true).1 ⟨h.mono sub, ty⟩
  | ⟨.array items more, span⟩ =>
    rw [Lowering.testPattern]
    refine bind (checkArrayPattern v.ty items.length more) fun L sub _ _ _ => ?_
    exact testItems sound span 0 (Value.Of.bool true).1 (h.mono sub)

theorem testFields {K : Known} {s : Struct} {all : Value} {fs : List FieldPat} {v : Value}
    (sound : cx.Sound) (span : Span) (valid : all.Over K) (h : v.Of K (.struct s)) :
    Safe K (cx.testFields span s all fs v) fun L w => w.Over L := by
  match fs with
  | [] =>
    rw [Lowering.testFields]
    exact pure valid
  | ⟨name, pat⟩ :: fs =>
    rw [Lowering.testFields]
    refine bind (patternField s name) fun L sub _ i found => ?_
    obtain ⟨f, at_i⟩ := found
    refine bind (field (h.mono sub) rfl at_i cx.target) fun M sub' _ part own => ?_
    refine bind (testPattern sound own.1) fun N sub'' _ test tested => ?_
    have grown := (sub.trans sub').trans sub''
    refine bind (both sound (valid.mono grown) tested span) fun P more _ all' valid' => ?_
    exact testFields sound span valid' (h.mono (grown.trans more))

theorem testItems {K : Known} {all : Value} {ps : List Pat} {v : Value} (sound : cx.Sound)
    (span : Span) (i : Nat) (valid : all.Over K) (h : v.Over K) :
    Safe K (cx.testItems span i all ps v) fun L w => w.Over L := by
  match ps with
  | [] =>
    rw [Lowering.testItems]
    exact pure valid
  | p :: ps =>
    rw [Lowering.testItems]
    refine bind (elementAt h i) fun L sub _ part own => ?_
    refine bind (testPattern sound own) fun M sub' _ test tested => ?_
    have grown := sub.trans sub'
    refine bind (both sound (valid.mono grown) tested span) fun N more _ all' valid' => ?_
    exact testItems sound span (i + 1) valid' (h.mono (grown.trans more))

end

/-! ## Struct and array literals -/

theorem headStruct {values : List (Ident × Value)} (valid : ∀ p ∈ values, p.2.Over K)
    (head : StructHead) : Safe K (Lowering.headStruct head values) fun L s => L s := by
  cases head with
  | symbol name => exact anonStruct valid name.name
  | named name =>
    have env : Safe K (Emit.look (·.program.env)) fun L e => ∀ u, e.type? name.name = some u →
        u.Over L := look fun _ state u found => state.program.type? found
    refine bind env fun L _ _ e types => locating ?_
    split
    · rename_i s found
      exact pure (types _ found)
    · exact problem _
    · exact problem _

theorem initValues {inits : List FieldInit} (sound : cx.Sound)
    (clean : ∀ i ∈ inits, i.value.Clean) (seen : List Ident) :
    Safe K (cx.initValues seen inits) fun L vs => ∀ p ∈ vs, p.2.Over L := by
  induction inits generalizing K seen with
  | nil =>
    rw [Lowering.initValues]
    exact pure (by simp)
  | cons init inits ih =>
    obtain ⟨name, e⟩ := init
    rw [Lowering.initValues]
    have rest (M : Known) : Safe M (do
        let v ← cx.expr e
        return (name, v) :: (← cx.initValues (name :: seen) inits))
        fun L vs => ∀ p ∈ vs, p.2.Over L := by
      refine bind (sound.expr M e (clean ⟨name, e⟩ (by simp))) fun N sub _ v own => ?_
      refine bind (ih (fun i member => clean i (by simp [member])) _) fun P sub' _ vs owns => ?_
      refine pure fun p member => ?_
      rcases List.mem_cons.mp member with rfl | later
      · exact own.mono sub'
      · exact owns p later
    split
    · exact bind (locating (problem _)) fun L _ _ _ (_ : True) => rest L
    · exact rest K

theorem placeValues {s : Struct} {values : List (Ident × Value)} (known : K s)
    (valid : ∀ p ∈ values, p.2.Over K) :
    Safe K (cx.placeValues s values)
      fun L ps => ∀ p ∈ ps, ∃ f, s.fields[p.1]? = some f ∧ p.2.Of L f.ty := by
  induction values generalizing K with
  | nil =>
    rw [Lowering.placeValues]
    exact pure (by simp)
  | cons entry values ih =>
    obtain ⟨name, v⟩ := entry
    rw [Lowering.placeValues]
    refine bind (patternField s name) fun L sub closed i found => ?_
    obtain ⟨f, at_i⟩ := found
    have fieldTy := closed.fields s (sub s known) f (List.mem_of_getElem? at_i)
    simp only [at_i]
    refine bind (expect ((valid (name, v) (by simp)).mono sub) fieldTy cx.target name.span)
      fun M sub' _ w own => ?_
    have grown := sub.trans sub'
    refine bind (ih (grown s known) fun p member => (valid p (by simp [member])).mono grown)
      fun N sub'' _ ps placed => ?_
    refine pure fun p member => ?_
    rcases List.mem_cons.mp member with rfl | later
    · exact ⟨f, at_i, own.mono sub''⟩
    · exact placed p later

theorem completeFields_gives (closed : K.Closed) {s : Struct} {placed : List (Nat × Value)}
    (known : K s) (values : ∀ p ∈ placed, ∃ f, s.fields[p.1]? = some f ∧ p.2.Of K f.ty)
    {fs : List Field} {i : Nat} (rest : s.fields.drop i = fs) :
    Gives (Lowering.completeFields s placed i fs)
      (fun vs => List.Forall₂ (fun f (v : Value) => v.Of K f.ty) fs vs) K.Excuses := by
  induction fs generalizing i with
  | nil =>
    rw [Lowering.completeFields]
    exact .nil
  | cons f fs ih =>
    obtain ⟨at_i, rest'⟩ := getElem?_of_drop rest
    rw [Lowering.completeFields]
    split
    · rename_i v found
      obtain ⟨g, at_g, own⟩ := values _ (mem_of_lookup found)
      cases Option.some.inj (at_g.symm.trans at_i)
      exact .bind ((ih rest').imp fun vs each => .cons own each)
    · split
      · rename_i void
        have fieldTy := closed.fields s known f (List.mem_of_getElem? at_i)
        have zero : (Value.const f.ty.zero f.ty).Of K f.ty := ⟨closed.zero_over fieldTy void, rfl⟩
        exact .bind ((ih rest').imp fun vs each => .cons zero each)
      · exact K.excuses_problem _

theorem structLit {inits : List FieldInit} (sound : cx.Sound)
    (clean : ∀ i ∈ inits, i.value.Clean) (head : StructHead) :
    Safe K (cx.structLit head inits) fun L v => v.Over L := by
  unfold Lowering.structLit
  refine bind (initValues sound clean []) fun L _ _ values valid => ?_
  refine bind (headStruct valid head) fun M sub _ s known => ?_
  refine bind (placeValues known fun p member => (valid p member).mono sub)
    fun N sub' closed placed own => ?_
  have known := sub' s known
  refine bind (lift (Q := fun N vs => List.Forall₂ (fun f (v : Value) => v.Of N f.ty) s.fields vs)
    (completeFields_gives closed known own rfl)) fun P sub'' closed vs each => ?_
  refine lift (.of_exists ?_)
  obtain ⟨v, run, own, _⟩ := closed.construct_ok (sub'' s known) each cx.target
  exact ⟨v, run, own⟩

theorem nonVoid (v : Value) (what : String) :
    Safe K (liftM (v.nonVoid what)) fun _ w => w = v ∧ v.ty.isVoid = false :=
  lift (Value.nonVoid_gives K v what)

theorem elements {items : List Expr} (sound : cx.Sound) (clean : ∀ e ∈ items, e.Clean) :
    Safe K (cx.elements items) fun L vs => ∀ v ∈ vs, v.Over L ∧ v.ty.isVoid = false := by
  induction items generalizing K with
  | nil =>
    rw [Lowering.elements]
    exact pure (by simp)
  | cons e es ih =>
    rw [Lowering.elements]
    refine bind (sound.expr K e (clean e (by simp))) fun L _ _ v own => ?_
    refine bind (locating (nonVoid v _)) fun M sub _ w same => ?_
    obtain ⟨rfl, kept⟩ := same
    refine bind (ih fun i member => clean i (by simp [member])) fun N sub' _ vs owns => ?_
    refine pure fun u member => ?_
    rcases List.mem_cons.mp member with rfl | later
    · exact ⟨own.mono (sub.trans sub'), kept⟩
    · exact owns u later

theorem elementTy_gives {of : Ty} {vs : List Value} (valid : of.Over K)
    (values : ∀ v ∈ vs, v.Over K) :
    Gives (Lowering.elementTy of vs) (fun t => t.Over K) K.Excuses := by
  induction vs generalizing of with
  | nil => exact valid
  | cons v vs ih =>
    have later : ∀ v ∈ vs, v.Over K := fun u member => values u (by simp [member])
    rw [Lowering.elementTy]
    split_ifs
    · exact ih valid later
    · exact ih (values v (by simp)).ty later
    · exact K.excuses_problem _

theorem arrayValue {of : Ty} {ws : List Value} (each : ∀ w ∈ ws, w.Of K of)
    (array : (Ty.array of ws.length).Over K) (target : Target) :
    Safe K (Lowering.arrayValue target (.array of ws.length) ws)
      fun L v => v.Of L (.array of ws.length) := by
  unfold Lowering.arrayValue
  split
  · rename_i cs consts
    refine pure ⟨Value.over_const array ?_, rfl⟩
    have held := Value.consts?_eq_some consts
    rw [Ty.Holds]
    refine ⟨cs, rfl, held.length_eq.symm, fun c member => ?_⟩
    obtain ⟨w, inWs, payload⟩ := exists_left_of_forall₂ held member
    have own := each w inWs
    exact own.2 ▸ own.1.const c payload
  · refine bind (mapM (R := fun _ _ _ => True) (fun _ _ _ _ _ => id) fun L more w member =>
      toCode ((each w member).mono more) array.2.1 _) fun L more _ codes _ => ?_
    exact pure ⟨Value.over_code (array.mono more) rfl, rfl⟩

theorem arrayFrom {values : List Value} (own : ∀ v ∈ values, v.Over K) :
    Safe K (cx.arrayFrom values) fun L v => v.Over L := by
  cases values with
  | nil => exact problem _
  | cons first rest =>
    rw [Lowering.arrayFrom]
    have firstTy := (own first (by simp)).ty
    refine bind (lift (elementTy_gives firstTy fun v member => own v (by simp [member])))
      fun M sub _ of valid => ?_
    refine bind (lift (Q := fun N t => t = .array of (first :: rest).length ∧ t.Over N)
      (Ty.mkArray_gives valid _)) fun N sub' _ t array => ?_
    obtain ⟨rfl, array⟩ := array
    refine bind (mapM (R := fun P _ w => w.Of P of) ?_ ?_) fun P sub'' _ ws each => ?_
    · exact fun _ _ more _ _ own => own.mono more
    · intro P more v member
      exact convert ((own v member).mono ((sub.trans sub').trans more)) (array.1.mono more) _
    · have converted : ∀ w ∈ ws, w.Of P of := fun w member => by
        obtain ⟨_, _, own⟩ := exists_left_of_forall₂ each member
        exact own
      have array := array.mono sub''
      rw [each.length_eq] at array ⊢
      exact (arrayValue converted array cx.target).mono fun _ _ _ made => made.1

theorem arrayLit {items : List Expr} (sound : cx.Sound) (clean : ∀ e ∈ items, e.Clean) :
    Safe K (cx.arrayLit items) fun L v => v.Over L := by
  rw [Lowering.arrayLit_eq]
  exact bind (elements sound clean) fun _ _ _ _ own => arrayFrom fun v member => (own v member).1

/-! ## Conditions, matches and loops -/

theorem joinTy_gives {a b : Ty} (ha : a.Over K) (hb : b.Over K) (what : String) :
    Gives (Lowering.joinTy what a b) (fun t => t.Over K) K.Excuses := by
  unfold Lowering.joinTy
  split_ifs
  · exact ha
  · exact hb
  · exact K.excuses_problem _

theorem joinSides {cond : Value} {yes no : Side} (test : cond.Over K)
    (kept : cond.ty.isVoid = false) (ha : yes.1.Over K) (hb : no.1.Over K) (target : Target)
    (what : String) :
    Safe K (Lowering.joinSides target cond yes no what) fun L v => v.Over L := by
  unfold Lowering.joinSides
  refine bind (lift (joinTy_gives ha.ty hb.ty what)) fun L sub _ t valid => ?_
  refine bind (convert (ha.mono sub) valid target) fun M sub' _ a own => ?_
  refine bind (convert (hb.mono (sub.trans sub')) (valid.mono sub') target)
    fun N sub'' _ b own' => ?_
  have own := own.mono sub''
  refine bind (toCode ⟨test.mono ((sub.trans sub').trans sub''), rfl⟩ kept target)
    fun P more _ c _ => ?_
  have own := own.mono more
  have own' := own'.mono more
  cases void : t.isVoid with
  | true =>
    rw [if_pos rfl]
    split
    · exact bind (line _) fun _ _ _ _ _ => voidValue
    · exact voidValue
  | false =>
    rw [if_neg Bool.false_ne_true]
    split
    · refine bind (toCode own void target) fun Q sub₁ _ x _ => ?_
      refine bind (toCode (own'.mono sub₁) void target) fun R sub₂ _ y _ => ?_
      exact pure (Value.over_code (own'.mono (sub₁.trans sub₂)).ty_over void)
    · refine bind temp fun Q sub₁ _ name _ => ?_
      refine bind (declareVar name t none true) fun R sub₂ _ _ _ => ?_
      have own := own.mono (sub₁.trans sub₂)
      have own' := own'.mono (sub₁.trans sub₂)
      refine bind (toCode own void target) fun S sub₃ _ x _ => ?_
      refine bind (toCode (own'.mono sub₃) void target) fun T sub₄ _ y _ => ?_
      refine bind (line _) fun U sub₅ _ _ _ => ?_
      exact pure (Value.over_code ((own'.mono sub₃).mono (sub₄.trans sub₅)).ty_over void)

theorem value_mono {L M : Known} (sub : L.Sub M) (v : Value) (h : v.Over L) : v.Over M :=
  h.mono sub

theorem ifElse {cond : Expr} {yes : Block} {no : Option Expr} (sound : cx.Sound)
    (cleanCond : cond.Clean) (cleanYes : yes.Clean) (cleanNo : ∀ e ∈ no, e.Clean) :
    Safe K (cx.ifElse cond yes no) fun L v => v.Over L := by
  unfold Lowering.ifElse
  refine bind (sound.expr K cond cleanCond) fun L _ _ v own => ?_
  refine bind (expect own (t := .bool) trivial cx.target cond.span) fun M _ _ c test => ?_
  split
  · exact nested (sound.block M yes cleanYes) fun _ _ => value_mono
  · exact sound.expr M _ (cleanNo _ rfl)
  · exact voidValue
  · refine bind (inBlock (sound.block M yes cleanYes)) fun N sub _ a ownYes => ?_
    have rest (P : Known) (sub' : N.Sub P) (b : Side) (ownNo : b.1.Over P) :
        Safe P (cx.join c a b "`if`") fun L v => v.Over L := by
      have test := test.mono (sub.trans sub')
      exact sound.join P c a b _ test.1 (by rw [test.2]; rfl) (ownYes.mono sub') ownNo
    split
    · exact bind (inBlock (sound.expr N _ (cleanNo _ rfl))) fun P sub' _ b ownNo =>
        rest P sub' b ownNo
    · refine bind voidValue fun P sub' _ b ownNo => ?_
      rw [pure_bind]
      exact rest P sub' (b, []) ownNo

theorem arm {subject : Value} {a : MatchArm} (sound : cx.Sound) (h : subject.Over K)
    (clean : a.body.Clean) : Safe K (cx.arm subject a) fun L v => v.Over L := by
  unfold Lowering.arm
  exact bind (bindPattern h) fun L _ _ _ _ => sound.expr L a.body clean

theorem arms {subject : Value} {as : List MatchArm} (sound : cx.Sound) (h : subject.Over K)
    (clean : ∀ a ∈ as, a.body.Clean) (span : Span) :
    Safe K (cx.arms subject span as) fun L v => v.Over L := by
  induction as generalizing K with
  | nil =>
    rw [Lowering.arms]
    exact locating (problem _)
  | cons a as ih =>
    have later : ∀ b ∈ as, b.body.Clean := fun b member => clean b (by simp [member])
    rw [Lowering.arms]
    refine bind (locating (testPattern sound h)) fun L sub _ test tested => ?_
    have h := h.mono sub
    split
    · exact nested (arm sound h (clean a (by simp))) fun _ _ => value_mono
    · exact ih h later
    · rename_i unknown
      obtain ⟨c, payload⟩ := Value.const?_eq_none.mp unknown
      refine bind (inBlock (arm sound h (clean a (by simp)))) fun M sub' _ yes ownYes => ?_
      refine bind (inBlock (ih (h.mono sub') later)) fun N sub'' _ no ownNo => ?_
      exact sound.join N test yes no _ (tested.mono (sub'.trans sub'')) (tested.code c payload)
        (ownYes.mono sub'') ownNo

theorem matchArms {subject : Expr} {as : List MatchArm} (sound : cx.Sound)
    (cleanSubject : subject.Clean) (clean : ∀ a ∈ as, a.body.Clean) (span : Span) :
    Safe K (cx.matchArms subject as span) fun L v => v.Over L := by
  unfold Lowering.matchArms
  refine bind (sound.expr K subject cleanSubject) fun L _ _ v own => ?_
  refine bind (nonVoid v _) fun M sub _ w same => ?_
  obtain ⟨rfl, _⟩ := same
  refine bind (cache ⟨own.mono sub, rfl⟩ cx.target) fun N _ _ u cached => ?_
  exact arms sound cached.1 clean span

theorem loopLabel (label : Option Ident) : Safe K (cx.loopLabel label) fun _ _ => True := by
  unfold Lowering.loopLabel
  split
  · exact pure trivial
  · split
    · exact bind (fresh _) fun _ _ _ _ _ => pure trivial
    · exact locating (throw (K.excuses_unsupported _))

theorem rangeCounter {start stop : Expr} (sound : cx.Sound) (cleanStart : start.Clean)
    (cleanStop : stop.Clean) (pat : Pat) :
    Safe K (cx.rangeCounter pat start stop) fun L c => c.element.Over L := by
  unfold Lowering.rangeCounter
  refine bind (sound.expr K start cleanStart) fun L _ _ v own => ?_
  refine bind (expect own (t := .i32) trivial cx.target start.span) fun M _ _ a first => ?_
  refine bind (sound.expr M stop cleanStop) fun N sub _ w own' => ?_
  refine bind (expect own' (t := .i32) trivial cx.target stop.span) fun P sub' _ b last => ?_
  refine bind (cache last cx.target) fun Q sub'' _ b last => ?_
  refine bind (fresh _) fun R more _ var _ => ?_
  have first := first.mono (((sub.trans sub').trans sub'').trans more)
  refine bind (toCode first rfl cx.target) fun S more' _ x _ => ?_
  refine bind (toCode (last.mono (more.trans more')) rfl cx.target) fun T _ _ y _ => ?_
  exact pure (Value.over_code trivial rfl)

theorem arrayCounter {iter : Expr} (sound : cx.Sound) (clean : iter.Clean) :
    Safe K (cx.arrayCounter iter) fun L c => c.element.Over L := by
  unfold Lowering.arrayCounter
  refine bind (sound.expr K iter clean) fun L _ _ v own => ?_
  split
  · exact locating (problem _)
  · rename_i of len found
    have array := Ty.eq_of_array? found
    refine bind (cachedCode ⟨own, array⟩ rfl cx.target) fun M sub _ c _ => ?_
    refine bind temp fun N sub' _ var _ => ?_
    have valid := (own.mono (sub.trans sub')).ty
    rw [array] at valid
    exact pure (Value.over_code valid.1 valid.2.1)

theorem counter {iter : Expr} (sound : cx.Sound) (clean : iter.Clean) (pat : Pat) :
    Safe K (cx.counter pat iter) fun L c => c.element.Over L := by
  unfold Lowering.counter
  split
  · rename_i start stop kind
    obtain ⟨_, span⟩ := iter
    cases kind
    cases clean with
    | range cleanStart cleanStop =>
      exact rangeCounter sound (cleanStart _ rfl) (cleanStop _ rfl) pat
  · exact locating (problem _)
  · exact arrayCounter sound clean

/-- A loop over what its pattern takes. -/
theorem takenLoop {iter : Expr} {body : Block} (sound : cx.Sound) (cleanIter : iter.Clean)
    (cleanBody : body.Clean) (label : Option Ident) (pat : Pat) : Safe K (do
      let backend ← cx.loopLabel label
      let c ← cx.counter pat iter
      let (_, ls) ← Emit.inLoop ⟨label.map Ident.name, backend⟩ (Emit.inBlock do
        cx.bindPattern pat c.element
        Emit.discard cx.target (← cx.block body))
      Emit.line (.loop backend c.var c.start c.stop ls)
      Emit.voidValue) fun L v => v.Over L := by
  refine bind (loopLabel label) fun N _ _ backend _ => ?_
  refine bind (counter sound cleanIter pat) fun P _ _ c own => ?_
  refine bind (inLoop (inBlock (Q := fun _ _ => True) ?_)) fun R _ _ ls _ => ?_
  · refine bind (bindPattern own) fun R _ _ _ _ => ?_
    exact bind (sound.block R body cleanBody) fun _ _ _ v _ => discard cx.target v
  · exact bind (line _) fun _ _ _ _ _ => voidValue

theorem forLoop {iter : Expr} {body : Block} (sound : cx.Sound) (cleanIter : iter.Clean)
    (cleanBody : body.Clean) (label : Option Ident) (pat : Pat) :
    Safe K (cx.forLoop label pat iter body) fun L v => v.Over L := by
  unfold Lowering.forLoop
  split
  · exact bind (locating (problem _)) fun L _ _ _ (_ : True) =>
      takenLoop sound cleanIter cleanBody label pat
  · exact takenLoop sound cleanIter cleanBody label pat

/-! ## Statements -/

theorem letBind {ty : Option TypeExpr} {value : Expr} (sound : cx.Sound)
    (cleanTy : ∀ t ∈ ty, t.Clean) (clean : value.Clean) (pat : Pat) :
    Safe K (cx.letBind pat ty value) fun _ _ => True := by
  unfold Lowering.letBind
  refine bind (sound.expr K value clean) fun L _ _ v own => ?_
  have rest (M : Known) (w : Value) (own : w.Over M) : Safe M (do
      if !pat.isIrrefutable then Emit.locating pat.span (Emit.problem (.refutable "let"))
      cx.bindPattern pat w) fun _ _ => True := by
    split
    · exact bind (locating (problem _)) fun N sub _ _ (_ : True) => bindPattern (own.mono sub)
    · exact bindPattern own
  cases ty with
  | some ty =>
    refine bind (type sound (cleanTy _ rfl)) fun M sub _ t valid => ?_
    exact bind (expect (own.mono sub) valid cx.target value.span) fun N _ _ w converted =>
      rest N w converted.1
  | none =>
    dsimp only
    rw [pure_bind]
    exact rest L v own

theorem assigned {place v : Value} (sound : cx.Sound) (hp : place.Over K) (hv : v.Over K)
    (op : AssignOp) (span : Span) : Safe K (cx.assigned op place v span) fun L w => w.Over L := by
  unfold Lowering.assigned
  split
  · exact operator sound (by simp [hp, hv]) _ _ span
  · exact pure hv

theorem assign {target value : Expr} (sound : cx.Sound) (cleanTarget : target.Clean)
    (clean : value.Clean) (op : AssignOp) :
    Safe K (cx.assign op target value) fun _ _ => True := by
  unfold Lowering.assign
  refine bind (sound.expr K target cleanTarget) fun L _ _ place hp => ?_
  refine bind (sound.expr L value clean) fun M sub _ v hv => ?_
  have hp := hp.mono sub
  cases void : place.ty.isVoid with
  | true =>
    rw [if_pos rfl]
    exact discard cx.target v
  | false =>
    rw [if_neg Bool.false_ne_true]
    split
    · exact locating (problem _)
    · refine bind (assigned sound hp hv op value.span) fun N sub' _ w own => ?_
      refine bind (expect own (hp.mono sub').ty cx.target value.span) fun P sub'' _ w own => ?_
      refine bind (toCode ⟨hp.mono (sub'.trans sub''), rfl⟩ void cx.target) fun Q more _ p _ => ?_
      exact bind (ownedCode (own.mono more) void cx.target) fun _ _ _ _ _ => line _

theorem assert {cond : Expr} (sound : cx.Sound) (clean : cond.Clean) :
    Safe K (cx.assert cond) fun _ _ => True := by
  unfold Lowering.assert
  refine bind (sound.expr K cond clean) fun L _ _ v own => ?_
  refine bind (expect own (t := .bool) trivial cx.target cond.span) fun M _ _ c test => ?_
  split
  · exact pure trivial
  · exact locating (problem _)
  · split
    · exact bind (toCode test rfl cx.target) fun _ _ _ _ _ => line _
    · exact pure trivial

theorem jump (kind : JumpKind) (label : Option Ident) :
    Safe K (cx.jump kind label) fun _ _ => True := by
  unfold Lowering.jump
  refine bind (look (Q := fun _ _ => True) fun _ _ => trivial) fun L _ _ loops _ => ?_
  dsimp only
  split
  · exact problem _
  · exact problem _
  · exact line _
  · split
    · exact line _
    · exact throw (L.excuses_unsupported _)

theorem stmt {s : Stmt} (sound : cx.Sound) (clean : s.Clean) :
    Safe K (cx.stmt s) fun _ _ => True := by
  refine locating ?_
  cases clean with
  | empty => exact pure trivial
  | letBind cleanTy clean => exact letBind sound cleanTy clean _
  | assign cleanTarget clean => exact assign sound cleanTarget clean _
  | expr clean => exact bind (sound.expr K _ clean) fun _ _ _ v _ => discard cx.target v
  | assert clean => exact assert sound clean
  | breakLoop => exact jump _ _
  | continueLoop => exact jump _ _

theorem stmts {ss : List Stmt} (sound : cx.Sound) (clean : ∀ s ∈ ss, s.Clean) :
    Safe K (cx.stmts ss) fun _ _ => True := by
  induction ss generalizing K with
  | nil =>
    rw [Lowering.stmts]
    exact pure trivial
  | cons s ss ih =>
    rw [Lowering.stmts]
    exact bind (stmt sound (clean s (by simp))) fun L _ _ _ _ =>
      ih fun t member => clean t (by simp [member])

theorem blockStep {b : Block} (sound : cx.Sound) (clean : b.Clean) :
    Safe K (cx.blockStep b) fun L v => v.Over L := by
  cases clean with
  | mk cleanStmts cleanTail =>
    refine bind (stmts sound cleanStmts) fun L _ _ _ _ => ?_
    dsimp only
    split
    · exact sound.expr L _ (cleanTail _ rfl)
    · exact voidValue

/-! ## Expressions -/

theorem ident (sound : cx.Sound) (name : String) (span : Span) :
    Safe K (cx.ident name span) fun L v => v.Over L := by
  unfold Lowering.ident
  have env : Safe K (Emit.look (·.program.env)) fun L e => ∀ v, e.const? name = some v →
      v.Over L := look fun s state v found => by
    rcases eq_some_of_orElse found with own | root
    · exact state.program.own.consts _ (mem_of_lookup own)
    · exact state.program.root.consts _ (mem_of_lookup root)
  refine bind env fun L _ _ e consts => ?_
  refine bind (local? name) fun M sub _ found own => ?_
  split
  · exact pure (own _ rfl)
  · split
    · rename_i v found
      exact pure ((consts v found).mono sub)
    · split
      · exact call sound (by simp) (by simp) name span
      · split
        · exact problem _
        · exact problem _

theorem builtin (sound : cx.Sound) (name : String) (span : Span) :
    Safe K (cx.builtin name span) fun L v => v.Over L := by
  unfold Lowering.builtin
  have env : Safe K (Emit.look (·.program.env)) fun L e => ∀ v,
      e.root.consts.lookup name = some v → v.Over L :=
    look fun s state v found => state.program.root.consts _ (mem_of_lookup found)
  refine bind env fun L _ _ e consts => ?_
  split
  · rename_i v found
    exact pure (consts v found)
  · exact callBuiltin sound (by simp) (by simp) name span

theorem param (name : String) : Safe K (cx.param name) fun L v => v.Over L := by
  unfold Lowering.param
  have env : Safe K (Emit.look (·.program.env)) fun L e => ∀ t, e.param? name = some t →
      t.Over L ∧ t.isVoid = false := look fun s state t found => by
    rcases eq_some_of_orElse found with own | root
    · exact state.program.own.params _ (mem_of_lookup own)
    · exact state.program.root.params _ (mem_of_lookup root)
  refine bind env fun L _ _ e params => ?_
  split
  · exact problem _
  · rename_i t found
    exact pure (Value.over_code (params t found).1 (params t found).2)

theorem exprs {es : List Expr} (sound : cx.Sound) (clean : ∀ e ∈ es, e.Clean) :
    Safe K (cx.exprs es) fun L vs => ∀ v ∈ vs, v.Over L := by
  induction es generalizing K with
  | nil =>
    rw [Lowering.exprs]
    exact pure (by simp)
  | cons e es ih =>
    rw [Lowering.exprs]
    refine bind (sound.expr K e (clean e (by simp))) fun L _ _ v own => ?_
    refine bind (ih fun i member => clean i (by simp [member])) fun M sub _ vs owns => ?_
    refine pure fun u member => ?_
    rcases List.mem_cons.mp member with rfl | later
    · exact own.mono sub
    · exact owns u later

theorem callExpr {callee : Expr} {typeArgs : List TypeExpr} {args : List Expr}
    (sound : cx.Sound) (cleanTypes : ∀ t ∈ typeArgs, t.Clean) (clean : ∀ e ∈ args, e.Clean)
    (span : Span) : Safe K (cx.callExpr callee typeArgs args span) fun L v => v.Over L := by
  unfold Lowering.callExpr
  refine bind (exprs sound clean) fun L _ _ values own => ?_
  refine bind (types sound cleanTypes) fun M sub _ tys valid => ?_
  have own : ∀ v ∈ values, v.Over M := fun v member => (own v member).mono sub
  split
  · refine bind (look (Q := fun _ _ => True) fun _ _ => trivial) fun N sub' _ env _ => ?_
    refine bind (local? _) fun P sub'' _ found _ => ?_
    have grown := sub'.trans sub''
    have rest (Q : Known) (more : P.Sub Q) (name : String) :
        Safe Q (cx.call name values tys span) fun L v => v.Over L :=
      call sound (fun v member => (own v member).mono (grown.trans more))
        (fun t member => (valid t member).mono (grown.trans more)) name span
    split
    · exact bind (problem _) fun Q more _ _ (_ : True) => rest Q more _
    · exact rest P (.refl P) _
  · exact callBuiltin sound own valid _ span
  · exact locating (problem _)

theorem exprStep {e : Expr} (sound : cx.Sound) (clean : e.Clean) :
    Safe K (cx.exprStep e) fun L v => v.Over L := by
  refine locating ?_
  cases clean with
  | lit => exact pure (literal _)
  | ident => exact ident sound _ _
  | builtin => exact builtin sound _ _
  | param => exact param _
  | symbol =>
    exact bind (symbolTy _) fun _ _ _ t unit => pure (Value.Of.unit unit).1
  | binary cleanLhs cleanRhs =>
    refine bind (sound.expr K _ cleanLhs) fun L _ _ a ha => ?_
    refine bind (sound.expr L _ cleanRhs) fun M sub _ b hb => ?_
    exact operator sound (by simp [ha.mono sub, hb]) _ _ _
  | unary clean =>
    refine bind (sound.expr K _ clean) fun L _ _ a ha => ?_
    exact operator sound (by simp [ha]) _ _ _
  | deriv clean =>
    refine bind (lift (Q := fun _ d => d.Clean) ?_) fun L _ _ d clean => sound.expr L d clean
    exact (clean.derivative _).mono (fun _ => id) fun _ => Known.Excuses.of_not_isDefect
  | range _ _ => exact problem _
  | call _ cleanTypes clean => exact callExpr sound cleanTypes clean _
  | methodCall cleanReceiver clean =>
    refine bind (exprs sound (by simpa using ⟨cleanReceiver, clean⟩)) fun L _ _ vs own => ?_
    exact call sound own (by simp) _ _
  | field clean =>
    exact bind (sound.expr K _ clean) fun L _ _ v own => fieldNamed own _ cx.target
  | index cleanBase cleanIndex =>
    refine bind (sound.expr K _ cleanBase) fun L _ _ b own => ?_
    exact bind (sound.expr L _ cleanIndex) fun M sub _ i own' => index (own.mono sub) own' cx.target
  | structLit clean => exact structLit sound clean _
  | array clean => exact arrayLit sound clean
  | block clean => exact nested (sound.block K _ clean) fun _ _ => value_mono
  | ifElse cleanCond cleanYes cleanNo => exact ifElse sound cleanCond cleanYes cleanNo
  | matchArms cleanSubject clean => exact matchArms sound cleanSubject clean _
  | forLoop cleanIter cleanBody => exact forLoop sound cleanIter cleanBody _ _
  | source _ => exact problem _

end Safe

/-- Lowering is sound up to any depth. -/
theorem Lowering.ofDepth_sound (target : Target) (n : Nat) : (Lowering.ofDepth target n).Sound := by
  have join : ∀ (K : Known) (cond : Value) (yes no : Side) (what : String), cond.Over K →
      cond.ty.isVoid = false → yes.1.Over K → no.1.Over K →
      Safe K (Lowering.joinSides target cond yes no what) fun L v => v.Over L :=
    fun _ _ _ _ what test kept ha hb => Safe.joinSides test kept ha hb target what
  induction n with
  | zero =>
    have deep {α : Type} (K : Known) (Q : Known → α → Prop) (span : Span) :
        Safe K (Emit.locating span (throw (.unsupported .depth))) Q :=
      Safe.locating (Safe.throw (K.excuses_unsupported _))
    exact ⟨fun K e _ => deep K _ _, fun K b _ => deep K _ _, join,
      fun K _ _ _ span _ _ _ => deep K _ span⟩
  | succ n ih =>
    exact ⟨fun _ _ clean => Safe.exprStep ih clean, fun _ _ clean => Safe.blockStep ih clean, join,
      fun _ _ _ _ span clean validArgs valid => Safe.userCall ih ih clean validArgs valid span⟩

theorem Lowering.toTarget_sound (target : Target) : (Lowering.toTarget target).Sound :=
  ofDepth_sound target _

end Ember

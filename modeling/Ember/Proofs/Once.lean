import Ember.Proofs.Running.Writing
import Ember.Proofs.SimpleTexts

/-!
# Operands are computed once

JavaScript takes vectors apart, and the code of some operations has an operand in it twice. So what
computes something is kept in a variable before it is taken apart. Projections of a name are as good
as the name: the scalars of a value that can be repeated can be repeated, however deep the fields
that hold them are, and no further variable is needed for them.
-/

set_option autoImplicit false

namespace Ember

/-! ## Texts -/

theorem tempName_simple (n : Nat) : isSimpleText (tempName n).toList = true := by
  have start : (tempName n).toList = '_' :: 't' :: (toString n).toList := by
    rw [tempName, String.toList_append]
    rfl
  have words : ('_' :: 't' :: (toString n).toList).dropWhile isWordChar = [] := by
    refine List.dropWhile_eq_nil_iff.mpr (List.forall_mem_cons.mpr ⟨rfl, ?_⟩)
    refine List.forall_mem_cons.mpr ⟨rfl, fun c digit => ?_⟩
    simp [isWordChar, Char.isAlphanum, Text.isDigit_of_mem_toString digit]
  rw [start, isSimpleText, words, isProjections]
  rfl

/-! ## Fields -/

structure Value.Repeats (v : Value) : Prop where
  scalar : v.ty.isScalar = true
  simple : v.isSimple .js = true

theorem Value.isSimple_const {v : Value} {c : Constant} (payload : v.payload = .const c) :
    v.isSimple .js = true := by
  simp [isSimple, payload]

/-- The action is a computation, and it gives scalars that can be repeated. -/
def Emit.Parts (act : Emit (List Value)) : Prop :=
  ∃ x : Except Failure (List Value), act = liftM x ∧ ∀ us, x = .ok us → ∀ u ∈ us, u.Repeats

theorem Emit.Parts.defect (d : Defect) : Parts (Emit.defect d) := ⟨.error (.defect d), rfl, nofun⟩

theorem Emit.Parts.append {act next : Emit (List Value)} (h : Parts act) (g : Parts next) :
    Parts (do return (← act) ++ (← next)) := by
  obtain ⟨x, rfl, first⟩ := h
  obtain ⟨y, rfl, second⟩ := g
  refine ⟨(do return (← x) ++ (← y)), by cases x <;> cases y <;> rfl, ?_⟩
  intro us found
  obtain ⟨as, left, found⟩ := ok_of_bind found
  obtain ⟨bs, right, found⟩ := ok_of_bind found
  cases found
  exact List.forall_mem_append.mpr ⟨first as left, second bs right⟩

section Parts

variable {K : Known} (grounded : K.Grounded)

include grounded

namespace Emit

theorem fieldScalars_parts {s : Struct} {v : Value} (simple : v.isSimple .js = true)
    (ty : v.ty = .struct s) (known : K s) {fs : List Field} {i : Nat}
    (fields : s.fields.drop i = fs)
    (each : ∀ f ∈ fs, ∀ u : Value, u.ty = f.ty → u.isSimple .js = true →
      Parts (scalarsAt .js f.ty u)) : Parts (fieldScalars .js i fs v) := by
  induction fs generalizing i with
  | nil => exact ⟨.ok [], by rw [fieldScalars]; rfl, by rintro _ ⟨⟩ _ ⟨⟩⟩
  | cons f fs ih =>
    obtain ⟨place, rest⟩ := getElem?_of_drop fields
    have others := ih rest fun g member => each g (by simp [member])
    obtain ⟨name, type⟩ := f
    rw [fieldScalars]
    split
    · exact others
    · cases found : v.field .js i with
      | error f => exact ⟨.error f, rfl, nofun⟩
      | ok u =>
        obtain ⟨same, simple'⟩ := Value.field_simple grounded (by rw [ty]; rfl) known place
          simple found
        exact (each _ (by simp) u same simple').append others

/-- What can be repeated comes apart into such scalars, and nothing is written for that. -/
theorem scalarsAt_parts {t : Ty} {v : Value} (valid : t.Over K) (ty : v.ty = t)
    (simple : v.isSimple .js = true) : Parts (scalarsAt .js t v) := by
  induction t using Ty.induct generalizing v with
  | scalar k =>
    refine ⟨.ok [v], by rw [scalarsAt]; rfl, ?_⟩
    rintro _ ⟨⟩ u member
    obtain rfl : u = v := by simpa using member
    exact ⟨by rw [ty]; rfl, simple⟩
  | struct s ih =>
    rw [scalarsAt]
    split
    · have fields := fieldScalars_parts grounded simple ty valid (i := 0) rfl
        fun f member u same simple' => ih f member (grounded.fields s valid f member) same simple'
      obtain ⟨uid, group, name, fs, matrix, js, glsl⟩ := s
      rw [structScalars, cache, simple, Bool.true_or, if_pos rfl, pure_bind]
      exact fields
    · exact .defect _
  | array of len _ =>
    rw [scalarsAt]
    exact .defect _
  | alt first others _ _ =>
    rw [scalarsAt]
    exact .defect _

end Emit

end Parts

/-! ## Lines -/

def Value.computed? (v : Value) : Option String :=
  (v.code?.map (Code.text .js)).filter fun text => !isSimpleText text.toList

/-- Values with names from `n` on for what is computed. -/
def Value.keptFrom : Nat → List Value → List Value
  | _, [] => []
  | n, v :: vs =>
    match v.computed? with
    | none => v :: keptFrom n vs
    | some _ => .code (.name (tempName n)) v.ty :: keptFrom (n + 1) vs

def keepTexts (n : Nat) (texts : List String) : List String :=
  (texts.zipIdx n).map fun p => "const " ++ tempName p.2 ++ " = " ++ p.1 ++ ";"

theorem Value.computed?_eq_none {v : Value} : v.computed? = none ↔ v.isSimple .js = true := by
  unfold computed? code? isSimple
  cases v.payload with
  | const c => simp
  | code c => simp [Option.filter]

namespace Writes

variable {s : Emission}

/-- What computes something is kept in a variable. -/
theorem keeps {v : Value} (kept : v.ty.isVoid = false) :
    Writes (Emit.cache .js v) s fun u ls n =>
      v.computed? = none ∧ u = v ∧ ls = [] ∧ n = s.next ∨
      ∃ text, v.computed? = some text ∧ u = .code (.name (tempName s.next)) v.ty ∧
        ls.flatMap (Line.texts .js) = keepTexts s.next [text] ∧ n = s.next + 1 := by
  unfold Emit.cache
  split
  · rename_i simple
    rw [kept, Bool.or_false] at simple
    exact pure (.inl ⟨Value.computed?_eq_none.mpr simple, rfl, rfl, rfl⟩)
  · rename_i computed
    rw [kept, Bool.or_false] at computed
    refine after (.lift _) fun c found => bind temp ?_
    rintro name _ _ _ ⟨rfl, rfl, rfl⟩
    refine bind (lines (R := fun _ ls n => ls = _ ∧ n = s.next + 1) ⟨rfl, rfl⟩) ?_
    rintro _ _ _ _ ⟨rfl, rfl⟩
    refine pure (.inr ⟨c.text .js, ?_, rfl, rfl, rfl⟩)
    cases payload : v.payload with
    | const c => exact absurd (Value.isSimple_const payload) computed
    | code d =>
      obtain rfl : d = c := by simpa [Value.toCode, payload] using found
      simpa [Value.computed?, Value.code?, payload, Value.isSimple, Option.filter] using computed

end Writes

section Operands

variable {K : Known} (grounded : K.Grounded) {s : Emission}

include grounded

/-- What comes apart keeps something. -/
theorem Emit.kept_of_scalars {v : Value} {us : List Value} {t : Emission} (valid : v.ty.Over K)
    (run : scalars .js v s = .ok us t) : v.ty.isVoid = false := by
  unfold scalars at run
  generalize v.ty = type at valid run ⊢
  cases type with
  | scalar k => rfl
  | struct st =>
    rw [scalarsAt] at run
    split at run
    · rename_i shaped
      obtain ⟨⟨k, w⟩, shape⟩ := Option.isSome_iff_exists.mp shaped
      have same := grounded.storage_void valid .glsl
      rw [grounded.storage_of_shape valid shape] at same
      simpa using same
    · cases run
  | array of len =>
    rw [scalarsAt] at run
    cases run
  | alt first others =>
    rw [scalarsAt] at run
    cases run

/-- Operands come apart into scalars that can be repeated, and only what computes something is
written, once and in order. -/
theorem Writes.keepsAll {args : List Value} (valid : ∀ v ∈ args, v.ty.Over K) :
    Writes (Emit.components .js args) s fun parts ls n =>
      ls.flatMap (Line.texts .js) = keepTexts s.next (args.filterMap Value.computed?) ∧
      n = s.next + (args.filterMap Value.computed?).length ∧
      List.Forall₂ (fun v us => Emit.scalars .js v = Pure.pure us ∧ ∀ u ∈ us, u.Repeats)
        (Value.keptFrom s.next args) parts := by
  induction args generalizing s with
  | nil => exact pure ⟨rfl, rfl, .nil⟩
  | cons v vs ih =>
    have own : v.ty.Over K := valid v (by simp)
    have others (s : Emission) := ih (s := s) fun u member => valid u (by simp [member])
    unfold Emit.components
    cases void : v.ty.isVoid with
    | true =>
      intro parts t run
      rw [Emit.cache, void, Bool.or_true, if_pos rfl, pure_bind] at run
      obtain ⟨us, m, apart, _⟩ := bind_eq_ok.mp run
      rw [Emit.kept_of_scalars grounded own apart] at void
      cases void
    | false =>
      have apart (u : Value) (type : u.ty = v.ty) (simple : u.isSimple .js = true) :
          Emit.Parts (Emit.scalars .js u) := by
        unfold Emit.scalars
        exact Emit.scalarsAt_parts grounded (type ▸ own) rfl simple
      refine bind (keeps void) ?_
      rintro u ls n more (⟨none, rfl, rfl, rfl⟩ | ⟨text, some_, rfl, written, rfl⟩)
      · obtain ⟨x, lifted, repeats⟩ := apart u rfl (Value.computed?_eq_none.mp none)
        rw [lifted]
        refine after (.lift x) fun us found => bind (others _) ?_
        rintro parts ms m _ ⟨lines, rfl, each⟩
        refine pure ⟨?_, ?_, ?_⟩
        · simpa [List.filterMap_cons_none none] using lines
        · simp [List.filterMap_cons_none none]
        · rw [Value.keptFrom, none]
          exact .cons ⟨lifted.trans (by rw [found]; rfl), repeats us found⟩ (by simpa using each)
      · obtain ⟨x, lifted, repeats⟩ := apart (.code (.name (tempName s.next)) v.ty) rfl
          (tempName_simple s.next)
        rw [lifted]
        refine after (.lift x) fun us found => bind (others _) ?_
        rintro parts ms m _ ⟨lines, rfl, each⟩
        refine pure ⟨?_, ?_, ?_⟩
        · rw [List.append_nil, List.flatMap_append, written, lines, List.filterMap_cons_some some_]
          rfl
        · simp only [Emission.next_wrote, List.filterMap_cons_some some_, List.length_cons]
          omega
        · rw [Value.keptFrom, some_]
          exact .cons ⟨lifted.trans (by rw [found]; rfl), repeats us found⟩ each

theorem Observes.checkDivisor {op : ScalarOp} {kind : ScalarKind} {args : List Value}
    (valid : ∀ v ∈ args, v.ty.Over K) :
    Observes (Emit.checkDivisor .js op kind args) s fun _ => True := by
  unfold Emit.checkDivisor
  split
  · cases found : args[1]? with
    | none => exact pure trivial
    | some divisor =>
      dsimp only
      split
      · rename_i const
        obtain ⟨c, payload⟩ : ∃ c, divisor.payload = .const c := by
          obtain ⟨c, given⟩ := Option.isSome_iff_exists.mp const
          exact ⟨c, Value.const?_eq_some.mp given⟩
        obtain ⟨x, lifted, _⟩ := Emit.scalarsAt_parts grounded
          (valid divisor (List.mem_of_getElem? found)) rfl (Value.isSimple_const payload)
        rw [Emit.scalars, lifted]
        refine bind (lift x) fun us _ => ?_
        split
        · exact throw _
        · exact pure trivial
      · exact pure trivial
  · exact pure trivial

end Operands

/-! ## Operations -/

/-- An action for each item that is a computation. -/
theorem Observes.mapM_lift {ι α : Type} {f : ι → Except Failure α} {g : ι → Emit α} {is : List ι}
    {s : Emission} (each : ∀ i, g i = liftM (f i)) :
    Observes (is.mapM g) s fun as => is.mapM f = .ok as := by
  have lifted : is.mapM g = liftM (is.mapM f) := by
    induction is with
    | nil => rfl
    | cons i is ih =>
      rw [List.mapM_cons, List.mapM_cons, each i, ih]
      cases f i with
      | error f => rfl
      | ok a => cases is.mapM f <;> rfl
  rw [lifted]
  exact lift _

theorem Observes.vectorTy_look (kind : ScalarKind) (width : Nat) {s : Emission} :
    Observes (Emit.vectorTy kind width) s fun _ => True := by
  unfold Emit.vectorTy
  exact bind (look _) fun b _ t s' run => ⟨(lift _ t s' run).1, trivial⟩

/-- Code that can be repeated: a scalar, or a name and projections. -/
def Code.Repeatable (c : Code) : Prop :=
  (∃ x, c = .lit x) ∨ isSimpleText (c.text .js).toList = true

theorem Value.Repeats.toCode {v : Value} {c : Code} (h : v.Repeats)
    (written : v.toCode .js = .ok c) : c.Repeatable := by
  obtain ⟨⟨d⟩ | ⟨d⟩, ty, place⟩ := v
  · obtain ⟨k, rfl⟩ : ∃ k, ty = .scalar k := by
      have scalar := h.scalar
      cases ty <;> simp_all [Ty.isScalar, Ty.scalarKind?]
    cases d with
    | scalar x =>
      obtain rfl : Code.lit x = c := by simpa [Value.toCode, Code.ofConst] using written
      exact .inl ⟨x, rfl⟩
    | aggregate cs => simp [Value.toCode, Code.ofConst] at written
  · cases written
    exact .inr h.simple

theorem forall₂_of_mapM {ι α : Type} {f : ι → Except Failure α} {is : List ι} {as : List α}
    (run : is.mapM f = .ok as) : List.Forall₂ (fun i a => f i = .ok a) is as := by
  induction is generalizing as with
  | nil =>
    cases run
    exact .nil
  | cons i is ih =>
    rw [List.mapM_cons] at run
    obtain ⟨a, first, run⟩ := ok_of_bind run
    obtain ⟨rest, others, run⟩ := ok_of_bind run
    cases run
    exact .cons first (ih others)

namespace Emit

theorem mem_of_pick {parts : List (List Value)} {i : Nat} {operands : List Value}
    (picked : pick parts i = .ok operands) {v : Value} (member : v ∈ operands) :
    ∃ us ∈ parts, v ∈ us := by
  obtain ⟨us, listed, found⟩ := exists_left_of_forall₂ (forall₂_of_mapM picked) member
  refine ⟨us, listed, ?_⟩
  split at found
  · cases found
    simp
  · split at found
    · rename_i place
      cases found
      exact List.mem_of_getElem? place
    · cases found

/-- What an operation makes of operands: a constant, or code with operands in it that can be
repeated. -/
def Applies (op : ScalarOp) (operands : List Value) (r : Value) : Prop :=
  r.isConst = true ∨ ∃ kind codes, operands.mapM (·.toCode .js) = .ok codes ∧
    r = .code (op.code .js kind codes) (.scalar (op.resultKind kind)) ∧ ∀ c ∈ codes, c.Repeatable

theorem applies_of_scalarOp {op : ScalarOp} {operands : List Value} {r : Value}
    (repeats : ∀ v ∈ operands, v.Repeats) (run : scalarOp .js op operands = .ok r) :
    Applies op operands r := by
  unfold scalarOp at run
  split at run
  · cases run
  · rename_i kind _
    dsimp only at run
    split at run
    · obtain ⟨c, _, run⟩ := ok_of_bind run
      cases run
      exact .inl rfl
    · obtain ⟨codes, written, run⟩ := ok_of_bind run
      cases run
      refine .inr ⟨kind, codes, written, rfl, fun c member => ?_⟩
      obtain ⟨v, listed, code⟩ := exists_left_of_forall₂ (forall₂_of_mapM written) member
      exact (repeats v listed).toCode code

/-- The result is made component by component from the scalars of the operands, or of the variables
from `n` on that keep them. -/
def Broadcasts (op : ScalarOp) (args : List Value) (n width : Nat) (outTy : Ty) (r : Value) :
    Prop :=
  ∃ parts results,
    List.Forall₂ (fun v us => scalars .js v = pure us) (Value.keptFrom n args) parts ∧
    List.Forall₂ (fun i u => ∃ operands, pick parts i = .ok operands ∧
      scalarOp .js op operands = .ok u ∧ Applies op operands u) (List.range width) results ∧
    Value.fromScalars .js outTy results = .ok r

theorem mapTo_writes {K : Known} (grounded : K.Grounded) {op : ScalarOp} {kind : ScalarKind}
    {width : Nat} {inTy outTy : Ty} {args : List Value} {s : Emission}
    (valid : ∀ v ∈ args, v.ty.Over K) :
    Writes (mapTo .js op kind width inTy outTy args) s fun r ls n =>
      ls.flatMap (Line.texts .js) = keepTexts s.next (args.filterMap Value.computed?) ∧
      n = s.next + (args.filterMap Value.computed?).length ∧
      Broadcasts op args s.next width outTy r := by
  unfold mapTo
  refine .after (.checkDivisor grounded valid) fun _ _ => ?_
  rw [show (Target.js == .glsl) = false from rfl, Bool.false_and, if_neg Bool.false_ne_true]
  refine .bind (.keepsAll grounded valid) ?_
  rintro parts ls n _ ⟨lines, numbers, each⟩
  have repeats : ∀ us ∈ parts, ∀ u ∈ us, u.Repeats := by
    intro us member
    obtain ⟨_, _, _, all⟩ := exists_left_of_forall₂ each member
    exact all
  refine .after (.mapM_lift (f := fun i => pick parts i >>= scalarOp .js op) fun i => ?_)
    fun results run => ?_
  · cases pick parts i <;> rfl
  refine .of_observes (.lift _) fun r made => ?_
  refine ⟨by simpa using lines, by simpa using numbers, parts, results, ?_, ?_, made⟩
  · exact each.imp fun _ _ h => h.1
  · refine (forall₂_of_mapM run).imp fun i u found => ?_
    obtain ⟨operands, picked, applied⟩ := ok_of_bind found
    refine ⟨operands, picked, applied, applies_of_scalarOp (fun v member => ?_) applied⟩
    obtain ⟨us, listed, inside⟩ := mem_of_pick picked member
    exact repeats us listed v inside

/-- An operation on vectors in JavaScript writes one line for each operand that computes something,
in order, and changes nothing else. The code for a component holds no operand that would be computed
again where it is repeated. -/
theorem mapOp_once {op : ScalarOp} {args : List Value} {s t : Emission} {r : Value}
    (formed : ∀ v ∈ args, v.ty.Formed) (run : mapOp .js op args s = .ok r t) :
    (∃ ls, t = s.wrote ls (s.next + (args.filterMap Value.computed?).length) ∧
      ls.flatMap (Line.texts .js) = keepTexts s.next (args.filterMap Value.computed?)) ∧
    ∃ shaped kind width outTy, shapedTy none args = .ok shaped ∧
      commonShape shaped args = some (kind, width) ∧
      Broadcasts op args s.next width outTy r := by
  have valid (v : Value) (member : v ∈ args) : v.ty.Over Known.formed := (formed v member).valid
  unfold mapOp at run
  obtain ⟨shaped, m, first, rest⟩ := bind_eq_ok.mp run
  obtain ⟨found, rfl⟩ := Steady.run_lift first
  cases shape : commonShape shaped args with
  | none =>
    rw [shape] at rest
    cases rest
  | some pair =>
    rw [shape] at rest
    obtain ⟨outTy, made⟩ : ∃ outTy,
        mapTo .js op pair.1 pair.2 (shaped.getD (.scalar pair.1)) outTy args m = .ok r t := by
      dsimp only at rest
      split at rest
      · exact ⟨_, rest⟩
      · obtain ⟨outTy, _, looked, last⟩ := bind_eq_ok.mp rest
        obtain ⟨rfl, _⟩ := Observes.vectorTy_look _ _ _ _ looked
        exact ⟨outTy, last⟩
    obtain ⟨ls, n, _, rfl, lines, rfl, broadcasts⟩ :=
      mapTo_writes Ty.Formed.grounded valid r t made
    exact ⟨⟨ls, rfl, lines⟩, shaped, pair.1, pair.2, outTy, found, shape, broadcasts⟩

/-- The remainder of a vector of floats has both operands in it twice. -/
theorem mapOp_once_rem : ∃ (pair : Struct) (r : Value) (t : Emission),
    Struct.declareGroup [⟨"v", [⟨"x", .f32⟩, ⟨"y", .f32⟩]⟩] false ⟨1⟩ = .ok [pair] ⟨3⟩ ∧
    mapOp .js .rem [.code (.call "f" []) (.struct pair), .code (.name "k") .f32] default = .ok r t ∧
    (r.code?.map (Code.text .js)) = some
      "[(_t1[0] - k * Math.floor(_t1[0] / k)), (_t1[1] - k * Math.floor(_t1[1] / k))]" ∧
    ∃ ls, t = (default : Emission).wrote ls 2 ∧
      ls.flatMap (Line.texts .js) = ["const _t1 = f();"] := by
  obtain ⟨pair, declared, value⟩ : ∃ pair,
      Struct.declareGroup [⟨"v", [⟨"x", .f32⟩, ⟨"y", .f32⟩]⟩] false ⟨1⟩ = .ok [pair] ⟨3⟩ ∧
      ((mapOp .js .rem [.code (.call "f" []) (.struct pair), .code (.name "k") .f32]).run'
          default).bind (·.code?.map (Code.text .js)) = some
        "[(_t1[0] - k * Math.floor(_t1[0] / k)), (_t1[1] - k * Math.floor(_t1[1] / k))]" :=
    ⟨_, rfl, by decide +kernel⟩
  have built : (Ty.struct pair).Formed := .struct (by
    simp only [List.mem_cons, List.not_mem_nil, or_false, forall_eq, forall_eq_or_imp]
    exact ⟨.scalar _, .scalar _⟩) declared (by simp)
  have formed : ∀ v ∈ [Value.code (.call "f" []) (.struct pair), .code (.name "k") .f32],
      v.ty.Formed := by
    simp only [List.mem_cons, List.not_mem_nil, or_false, forall_eq, forall_eq_or_imp]
    exact ⟨built, .scalar _⟩
  have call : isSimpleText ((Code.call "f" []).text .js).toList = false := by decide +kernel
  have name : isSimpleText ((Code.name "k").text .js).toList = true := by decide +kernel
  have computed : [Value.code (.call "f" []) (.struct pair), .code (.name "k") .f32].filterMap
      Value.computed? = [(Code.call "f" []).text .js] := by
    simp [Value.computed?, Value.code?, Value.code, Option.filter, call, name]
  unfold EStateM.run' EStateM.run at value
  cases run : mapOp .js .rem [.code (.call "f" []) (.struct pair), .code (.name "k") .f32]
      default with
  | error f t =>
    rw [run] at value
    cases value
  | ok r t =>
    rw [run] at value
    obtain ⟨ls, written, lines⟩ := (mapOp_once formed run).1
    rw [computed] at written lines
    exact ⟨pair, r, t, declared, run, value, ls, written, lines⟩

end Emit

end Ember

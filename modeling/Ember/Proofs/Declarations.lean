import Ember.Proofs.Outputs

/-!
# Structs of GLSL, and where they are used

GLSL is written as its uniforms, its structs and its functions, in this order. Structs and functions
use structs that are declared above them, each of them once. Uniforms stand above all structs, so
the whole is in order if and only if no uniform is of a struct.
-/

set_option autoImplicit false

namespace Ember

/-! ## Parts of the text -/

inductive GlslPart where
  | uniform (u : Uniform)
  | struct (d : SlotStruct)
  | function (f : FnCode)

def GlslPart.text : GlslPart → String
  | .uniform u => u.text
  | .struct d => d.text
  | .function f => f.text .glsl

def Output.glslParts (o : Output) : List GlslPart :=
  o.uniforms.map .uniform ++ o.structs.map .struct ++ o.functions.map .function

/-- Texts that stand in another, one below the other. -/
def StandIn : List String → List Char → Prop
  | [], _ => True
  | t :: ts, cs => ∃ above below, cs = above ++ t.toList ++ below ∧ StandIn ts below

namespace StandIn

variable {ts us : List String} {a b : List Char}

theorem below (h : StandIn ts b) (a : List Char) : StandIn ts (a ++ b) := by
  cases ts with
  | nil => trivial
  | cons t ts =>
    obtain ⟨above, rest, rfl, others⟩ := h
    exact ⟨a ++ above, rest, by simp, others⟩

theorem append (first : StandIn ts a) (second : StandIn us b) : StandIn (ts ++ us) (a ++ b) := by
  induction ts generalizing a with
  | nil => exact second.below a
  | cons t ts ih =>
    obtain ⟨above, rest, rfl, others⟩ := first
    exact ⟨above, rest ++ b, by simp, ih others⟩

theorem above (h : StandIn ts a) (b : List Char) : StandIn ts (a ++ b) := by
  have whole : StandIn (ts ++ []) (a ++ b) := h.append trivial
  simpa using whole

theorem one (t : String) : StandIn [t] t.toList := ⟨[], [], by simp, trivial⟩

/-- Sections with something between them, each with texts of its own. -/
theorem intercalate (gap : String) {ss : List (List String × String)}
    (each : ∀ s ∈ ss, StandIn s.1 s.2.toList) :
    StandIn (ss.flatMap Prod.fst) (String.intercalate gap (ss.map Prod.snd)).toList := by
  induction ss with
  | nil => trivial
  | cons s ss ih =>
    have first := each s (by simp)
    have rest := ih fun t member => each t (by simp [member])
    cases ss with
    | nil => simpa using first
    | cons t ts =>
      have text : (String.intercalate gap ((s :: t :: ts).map Prod.snd)).toList =
          s.2.toList ++
            (gap.toList ++ (String.intercalate gap ((t :: ts).map Prod.snd)).toList) := by
        simp
      rw [text, List.flatMap_cons]
      exact first.append (rest.below _)

/-- Texts that are sections themselves. -/
theorem lines (gap : String) (ts : List String) :
    StandIn ts (String.intercalate gap ts).toList := by
  have each : ∀ s ∈ ts.map fun t => ([t], t), StandIn s.1 s.2.toList := by
    simp only [List.forall_mem_map]
    exact fun t _ => one t
  have whole := intercalate gap each
  simpa [List.flatMap_map, Function.comp_def] using whole

end StandIn

/-- The sections of GLSL text, each with the parts that stand in it. -/
def Output.sections (o : Output) (header : Bool) : List (List String × String) :=
  (if header then [([], version)] else []) ++
  (if o.uniforms.isEmpty then []
    else [(o.uniforms.map Uniform.text, String.intercalate "\n" (o.uniforms.map Uniform.text))]) ++
  o.structs.map (fun d => ([d.text], d.text)) ++
  o.functions.map (fun f => ([f.text .glsl], f.text .glsl)) ++
  (if o.main.isEmpty then []
    else [([], String.intercalate "\n" (o.main.flatMap (·.texts .glsl)))])

theorem Output.sections_fst (o : Output) (header : Bool) :
    (o.sections header).flatMap Prod.fst = o.glslParts.map GlslPart.text := by
  have uniforms : (if o.uniforms.isEmpty then ([] : List (List String × String))
      else [(o.uniforms.map Uniform.text,
        String.intercalate "\n" (o.uniforms.map Uniform.text))]).flatMap Prod.fst =
      o.uniforms.map Uniform.text := by
    split <;> simp_all
  have outer (b : Bool) (text : String) :
      (if b then [(([] : List String), text)] else []).flatMap Prod.fst = [] := by
    cases b <;> rfl
  have last : (if o.main.isEmpty then ([] : List (List String × String)) else
      [([], String.intercalate "\n" (o.main.flatMap (·.texts .glsl)))]).flatMap Prod.fst = [] := by
    split <;> rfl
  unfold sections
  simp only [List.flatMap_append, uniforms, outer, last]
  simp [glslParts, GlslPart.text, List.flatMap_map, Function.comp_def, ← List.map_eq_flatMap]

theorem Output.sections_snd (o : Output) (header : Bool) :
    o.text .glsl header = (let all := String.intercalate "\n\n" ((o.sections header).map Prod.snd)
      if all.isEmpty then all else all ++ "\n") := by
  unfold sections text
  cases header <;> cases o.uniforms <;> cases o.main <;> simp [Function.comp_def]

/-- The parts stand in the text in their order. -/
theorem Output.standIn_text (o : Output) (header : Bool) :
    StandIn (o.glslParts.map GlslPart.text) (o.text .glsl header).toList := by
  have each : ∀ s ∈ o.sections header, StandIn s.1 s.2.toList := by
    unfold sections
    simp only [List.forall_mem_append, List.forall_mem_map]
    refine ⟨⟨⟨⟨?_, ?_⟩, fun d _ => .one _⟩, fun f _ => .one _⟩, ?_⟩
    · split <;> simp [StandIn]
    · split
      · simp
      · exact List.forall_mem_singleton.mpr (StandIn.lines _ _)
    · split <;> simp [StandIn]
  have whole := StandIn.intercalate "\n\n" each
  rw [o.sections_fst] at whole
  rw [o.sections_snd]
  dsimp only
  split
  · exact whole
  · rw [String.toList_append]
    exact whole.above _

/-! ## Structs before their uses -/

def Line.Use.StructsIn (P : Nat → Prop) : Line.Use → Prop
  | .code c => ∀ f, Mention.fn f ∈ c.mentions → ∀ id, NamesStruct f id → P id
  | .storage r => ∀ id ∈ r.ids, P id
  | .new _ => True

def GlslPart.StructsIn (P : Nat → Prop) : GlslPart → Prop
  | .uniform u => ∀ id ∈ u.storage.ids, P id
  | .struct d => ∀ r ∈ d.slots, ∀ id ∈ r.ids, P id
  | .function f => (∀ q ∈ f.params, ∀ id ∈ q.2.ids, P id) ∧ (∀ id ∈ f.result.ids, P id) ∧
      Line.AllScoped (fun _ u => u.StructsIn P) (fun _ => True) f.body

def GlslPart.struct? : GlslPart → Option SlotStruct
  | .struct d => some d
  | .uniform _ | .function _ => none

/-- Every part uses only structs that are declared above it. -/
def GlslPart.InOrder (above : List SlotStruct) : List GlslPart → Prop
  | [] => True
  | part :: parts => part.StructsIn (fun id => ∃ d ∈ above, d.id = id) ∧
      InOrder (above ++ part.struct?.toList) parts

namespace GlslPart.InOrder

variable {above : List SlotStruct}

theorem append_iff {xs ys : List GlslPart} :
    InOrder above (xs ++ ys) ↔
      InOrder above xs ∧ InOrder (above ++ xs.filterMap GlslPart.struct?) ys := by
  induction xs generalizing above with
  | nil => simp [InOrder]
  | cons x xs ih =>
    rw [List.cons_append, InOrder, InOrder, ih, and_assoc, List.append_assoc]
    cases declared : x.struct? <;> simp [declared]

/-- Parts that declare no struct. -/
theorem iff_forall {xs : List GlslPart} (none : ∀ x ∈ xs, x.struct? = none) :
    InOrder above xs ↔ ∀ x ∈ xs, x.StructsIn fun id => ∃ d ∈ above, d.id = id := by
  induction xs with
  | nil => simp [InOrder]
  | cons x xs ih =>
    rw [InOrder, none x (by simp), Option.toList_none, List.append_nil,
      ih fun y member => none y (by simp [member]), List.forall_mem_cons]

theorem structs {ds : List SlotStruct} (h : SlotStruct.Ordered (above ++ ds)) :
    InOrder above (ds.map .struct) := by
  induction ds generalizing above with
  | nil => trivial
  | cons d ds ih =>
    rw [List.map_cons, InOrder]
    exact ⟨(h above d ds rfl).1, ih (by simpa [GlslPart.struct?] using h)⟩

end GlslPart.InOrder

theorem FnCode.Scoped.structsIn {calls : String → Prop} {structs P : Nat → Prop} {outside : Names}
    {f : FnCode} (h : f.Scoped calls structs outside) (sub : ∀ id, structs id → P id) :
    (GlslPart.function f).StructsIn P := by
  refine ⟨fun q member id inside => sub id ((h.params q member).2 id inside),
    fun id inside => sub id (h.result id inside), ?_⟩
  refine Line.AllScoped.relate (R := fun _ _ => True) (fun _ _ _ _ => trivial)
    (fun _ _ u _ ok => ?_) f.body trivial h.body
  cases u with
  | code c => exact fun g member id named => sub id ((ok _ member).2.2 id named)
  | storage r => exact fun id inside => sub id (ok id inside)
  | new x => trivial

/-- The structs of a list in order have numbers of their own. -/
theorem SlotStruct.Ordered.nodup {ds : List SlotStruct} (h : SlotStruct.Ordered ds) :
    (ds.map SlotStruct.id).Nodup := by
  induction ds using List.reverseRecOn with
  | nil => simp
  | append_singleton ds d ih =>
    have front : SlotStruct.Ordered ds := fun above e below same =>
      h above e (below ++ [d]) (by simp [same])
    have apart := (h ds d [] rfl).2
    rw [List.map_append, List.nodup_append]
    refine ⟨ih front, by simp, ?_⟩
    simpa using apart

/-- Uniforms stand above all structs. -/
theorem Output.inOrder_iff (o : Output) : GlslPart.InOrder [] o.glslParts ↔
    (∀ u ∈ o.uniforms, u.storage.ids = []) ∧
      GlslPart.InOrder [] (o.structs.map .struct ++ o.functions.map .function) := by
  have uniforms : GlslPart.InOrder [] (o.uniforms.map .uniform) ↔
      ∀ u ∈ o.uniforms, u.storage.ids = [] := by
    rw [GlslPart.InOrder.iff_forall (by simp [GlslPart.struct?])]
    simp [GlslPart.StructsIn, List.eq_nil_iff_forall_not_mem]
  have none : (o.uniforms.map GlslPart.uniform).filterMap GlslPart.struct? = [] := by
    simp [List.filterMap_map, Function.comp_def, GlslPart.struct?]
  rw [glslParts, List.append_assoc, GlslPart.InOrder.append_iff, none, uniforms, List.append_nil]

/-- Structs come before those that use them, and functions after all. -/
theorem Program.Scoped.inOrder {p : Program} (h : p.Scoped)
    (ordered : SlotStruct.Ordered p.glsl.structs) :
    GlslPart.InOrder [] (p.glsl.structs.map .struct ++ p.glsl.functions.map .function) := by
  have declared : (p.glsl.structs.map GlslPart.struct).filterMap GlslPart.struct? =
      p.glsl.structs := by
    simp [List.filterMap_map, Function.comp_def, GlslPart.struct?]
  refine GlslPart.InOrder.append_iff.mpr ⟨.structs ordered, ?_⟩
  rw [declared, List.nil_append, GlslPart.InOrder.iff_forall (by simp [GlslPart.struct?])]
  simp only [List.forall_mem_map]
  exact fun f member => (h.functions .glsl f member).structsIn fun _ => id

/-- In what is compiled, each struct is declared once, and above the structs and functions that use
it. The uniforms stand above all of them, so the whole is in order if and only if none of them is of
a struct. -/
theorem compile_structs_inOrder {name text : String} {lib : Library} {options : Options}
    {c : Compiled} (run : compile name text lib options = .ok c) {o : Output}
    (output : (.glsl, o) ∈ c.outputs) :
    StandIn (o.glslParts.map GlslPart.text) (o.text .glsl c.header).toList ∧
    (o.structs.map SlotStruct.id).Nodup ∧
    (∀ u ∈ o.uniforms, ∀ id ∈ u.storage.ids, ∃ d ∈ o.structs, d.id = id) ∧
    GlslPart.InOrder [] (o.structs.map .struct ++ o.functions.map .function) ∧
    (GlslPart.InOrder [] o.glslParts ↔ ∀ u ∈ o.uniforms, u.storage.ids = []) := by
  obtain ⟨items, p, reached, outputs⟩ := compile_reached run
  rw [outputs] at output
  obtain ⟨_, _, same⟩ := List.mem_map.mp output
  cases same
  have inScope := reached.scoped
  obtain ⟨g, tidy⟩ := reached.scoping.tidy
  have rest := inScope.inOrder tidy.ordered
  refine ⟨Output.standIn_text _ _, tidy.ordered.nodup, inScope.stored, rest, ?_⟩
  rw [Output.inOrder_iff]
  exact and_iff_left rest

def nesting : String :=
  "struct A { x: i32, y: f32 }; struct B { a: A, z: i32 }; fn f(b: B) -> A { let c = b; c.a }"

theorem nesting_compiles :
    (compile "main" nesting (.ofModules []) { targets := [.glsl] }).toOption.any
      (fun c => c.outputs.any fun q => q.1 == .glsl && q.2.structs.length == 2 &&
        q.2.functions.length == 1 && q.2.uniforms.isEmpty) = true := by
  decide +kernel

theorem compile_structs_nesting : ∃ c o,
    compile "main" nesting (.ofModules []) { targets := [.glsl] } = .ok c ∧
    (.glsl, o) ∈ c.outputs ∧ o.structs.length = 2 ∧ o.functions.length = 1 ∧
    GlslPart.InOrder [] o.glslParts := by
  obtain ⟨c, _, o, run, output, checked⟩ := exists_output (fun t o => t == .glsl &&
    o.structs.length == 2 && o.functions.length == 1 && o.uniforms.isEmpty) nesting_compiles
  simp only [Bool.and_eq_true, beq_iff_eq, List.isEmpty_iff] at checked
  obtain ⟨⟨⟨rfl, structs⟩, functions⟩, uniforms⟩ := checked
  have inOrder := (compile_structs_inOrder run output).2.2.2.2.mpr (by simp [uniforms])
  exact ⟨c, o, run, output, structs, functions, inOrder⟩

/-- A uniform of a struct stands above the struct. -/
theorem exists_structs_not_inOrder : ∃ c o,
    compile "main" "struct A { x: f32, y: i32 }; param $p: A;" (.ofModules [])
      { targets := [.glsl] } = .ok c ∧
    (.glsl, o) ∈ c.outputs ∧ ¬ GlslPart.InOrder [] o.glslParts := by
  have compiles : (compile "main" "struct A { x: f32, y: i32 }; param $p: A;" (.ofModules [])
      { targets := [.glsl] }).toOption.any (fun c => c.outputs.any fun q => q.1 == .glsl &&
        q.2.uniforms.any fun u => !u.storage.ids.isEmpty) = true := by decide +kernel
  obtain ⟨c, _, o, run, output, checked⟩ := exists_output (fun t o => t == .glsl &&
    o.uniforms.any fun u => !u.storage.ids.isEmpty) compiles
  simp only [Bool.and_eq_true, beq_iff_eq, List.any_eq_true] at checked
  obtain ⟨rfl, u, member, struct⟩ := checked
  refine ⟨c, o, run, output, fun inOrder => ?_⟩
  have none := (o.inOrder_iff.mp inOrder).1 u member
  simp [none] at struct

end Ember

import Ember.Proofs.Reached

/-!
# Names in what compilations write

All that a function declares has a coined name, and a coined variable that it mentions is in scope
there. The variable of a uniform looks coined only if the name of the uniform ends in a number. Then
it can be the same as that of a parameter, and other functions mention it all the same.
-/

set_option autoImplicit false

namespace Ember

/-- What is seen of an output of a compilation by evaluating it. -/
theorem exists_output {name text : String} {lib : Library} {options : Options}
    (check : Target → Output → Bool)
    (h : (compile name text lib options).toOption.any
      (fun c => c.outputs.any fun q => check q.1 q.2) = true) :
    ∃ c target o, compile name text lib options = .ok c ∧ (target, o) ∈ c.outputs ∧
      check target o = true := by
  cases run : compile name text lib options with
  | error halt => simp [run, Except.toOption] at h
  | ok c =>
    rw [run] at h
    obtain ⟨q, member, checked⟩ := List.any_eq_true.mp h
    exact ⟨c, q.1, q.2, rfl, member, checked⟩

/-! ## Names that are declared -/

mutual

/-- The variables that a line declares, also those in the blocks inside of it. -/
def Line.binders : Line → List String
  | .declare _ x _ _ => [x]
  | .branch _ yes no => bindersOfAll yes ++ bindersOfAll no
  | .loop _ x _ _ body => x :: bindersOfAll body
  | .assign _ _ | .eval _ | .require _ | .give _ | .jump _ _ | .foreign _ => []

def Line.bindersOfAll : List Line → List String
  | [] => []
  | l :: ls => l.binders ++ bindersOfAll ls

end

namespace Line

variable {ok : Names → Use → Prop} {P : String → Prop}

mutual

theorem Scoped.binders (new : ∀ (names : Names) (x : String), ok names (.new x) → P x) :
    ∀ {names : Names} (l : Line), l.Scoped ok names → ∀ x ∈ l.binders, P x
  | _, .declare r y init _, h => by
    rw [Scoped] at h
    simpa [Line.binders] using new _ y h.2.1
  | _, .branch cond yes no, h => by
    rw [Scoped] at h
    rw [Line.binders]
    exact List.forall_mem_append.mpr
      ⟨AllScoped.binders new yes h.2.1, AllScoped.binders new no h.2.2⟩
  | _, .loop _ y start stop body, h => by
    rw [Scoped] at h
    rw [Line.binders]
    exact List.forall_mem_cons.mpr ⟨new _ y h.1, AllScoped.binders new body h.2.2.2⟩
  | _, .assign _ _, _ | _, .eval _, _ | _, .require _, _ | _, .give _, _ | _, .jump _ _, _
  | _, .foreign _, _ => by simp [Line.binders]

theorem AllScoped.binders (new : ∀ (names : Names) (x : String), ok names (.new x) → P x) :
    ∀ {names : Names} (ls : List Line), AllScoped ok names ls → ∀ x ∈ bindersOfAll ls, P x
  | _, [], _ => by simp [bindersOfAll]
  | _, l :: ls, h => by
    rw [AllScoped] at h
    rw [bindersOfAll]
    exact List.forall_mem_append.mpr ⟨Scoped.binders new l h.1, AllScoped.binders new ls h.2⟩

end

end Line

def FnCode.binders (f : FnCode) : List String :=
  f.name :: f.params.map Prod.fst ++ Line.bindersOfAll f.body

theorem FnCode.Scoped.coined {calls : String → Prop} {structs : Nat → Prop} {outside : Names}
    {f : FnCode} (h : f.Scoped calls structs outside) : ∀ x ∈ f.binders, Ids.Coined x := by
  refine List.forall_mem_append.mpr ⟨List.forall_mem_cons.mpr ⟨h.name, ?_⟩, ?_⟩
  · exact List.forall_mem_map.mpr fun q member => (h.params q member).1
  · exact Line.AllScoped.binders (fun _ _ coined => coined) f.body h.body

theorem compile_coined {name text : String} {lib : Library} {options : Options} {c : Compiled}
    (run : compile name text lib options = .ok c) {target : Target} {o : Output}
    (output : (target, o) ∈ c.outputs) : ∀ f ∈ o.functions, ∀ x ∈ f.binders, Ids.Coined x := by
  obtain ⟨items, p, reached, outputs⟩ := compile_reached run
  rw [outputs] at output
  obtain ⟨_, _, same⟩ := List.mem_map.mp output
  cases same
  exact fun f member => (reached.scoped.functions target f member).coined

/-! ## Variables in scope -/

theorem Ids.not_coined_external (name : String) : ¬ Ids.Coined (Target.js.external name) := by
  intro coined
  have dollar : '$' ∈ (Target.js.external name).toList := by simp [Target.external]
  cases coined.isNameChar dollar

/-- Code mentions no coined variable that is not in scope, and what is declared gets a coined
name. -/
def Line.Use.Bound (names : Names) : Line.Use → Prop
  | .code c => ∀ x, Mention.var x ∈ c.mentions → Ids.Coined x → names x
  | .storage _ => True
  | .new x => Ids.Coined x

/-- Lines with nothing but what `names` and the lines around them bring into scope. -/
def Line.InScope (names : Names) (ls : List Line) : Prop :=
  Line.AllScoped (fun names u => u.Bound names) names ls

/-- A name that is a number, or ends in `_` and a number. -/
def EndsInNumber (name : String) : Prop :=
  ∃ front digits, name.toList = front ++ digits ∧ (front = [] ∨ ∃ stem, front = stem ++ ['_']) ∧
    digits ≠ [] ∧ ∀ c ∈ digits, c.isDigit = true

theorem EndsInNumber.last {name : String} (h : EndsInNumber name) :
    name.toList.getLast?.any Char.isDigit = true := by
  obtain ⟨front, digits, text, _, some_, all⟩ := h
  rw [text, List.getLast?_append_of_ne_nil _ some_, List.getLast?_eq_some_getLast some_]
  exact all _ (List.getLast_mem some_)

/-- The variable of a uniform looks coined only if the name of the uniform ends in a number. -/
theorem Ids.Coined.endsInNumber {name : String} (h : Ids.Coined (Target.glsl.external name)) :
    EndsInNumber name := by
  have text : (Target.glsl.external name).toList = 'u' :: '_' :: name.toList := by
    simp [Target.external]
  obtain ⟨digits, some_, all, temp | ⟨front, fresh, _⟩⟩ := h.ends
  · simp [text] at temp
  · rw [text] at fresh
    match front, fresh with
    | [], fresh => simp at fresh
    | [a], fresh =>
      simp only [List.cons_append, List.nil_append, List.cons.injEq] at fresh
      exact ⟨[], digits, fresh.2.2, .inl rfl, some_, all⟩
    | a :: b :: stem, fresh =>
      simp only [List.cons_append, List.cons.injEq] at fresh
      refine ⟨stem ++ ['_'], digits, ?_, .inr ⟨stem, rfl⟩, some_, all⟩
      rw [fresh.2.2]
      simp

/-- A value from outside looks coined only in GLSL, as a uniform whose name ends in a number. -/
theorem Program.Scoped.not_coined {p : Program} (h : p.Scoped) {target : Target}
    (apart : target = .glsl → ∀ u ∈ (p.output target).uniforms, ¬ EndsInNumber u.name) {x : String}
    (seen : p.Sees target x) : ¬ Ids.Coined x := by
  obtain ⟨q, member, rfl⟩ := seen
  cases target with
  | js => exact Ids.not_coined_external q.1
  | glsl =>
    intro coined
    refine apart rfl ⟨q.1, q.2.storage .glsl⟩ ?_ coined.endsInNumber
    change _ ∈ p.glsl.uniforms
    rw [h.uniforms]
    exact List.mem_map_of_mem (List.mem_reverse.mpr member)

theorem Program.Scoped.inScope {p : Program} {target : Target}
    (apart : ∀ x, p.Sees target x → ¬ Ids.Coined x) {xs : List String} {ls : List Line}
    (lines : Line.AllScoped (fun names u => u.Ok (fun _ => True) p.Declares names)
      ((p.Sees target).plus xs) ls) : Line.InScope (· ∈ xs) ls := by
  -- only coined names count, so values from outside are left out
  refine Line.AllScoped.relate (R := fun ns ms => ∀ x, Ids.Coined x → ns x → ms x)
    (fun ns ms ys sub x coined inside => inside.imp_left (sub x coined))
    (fun ns ms u sub ok => ?_) ls
    (fun x coined inside => inside.resolve_left fun seen => apart x seen coined) lines
  cases u with
  | code c => exact fun x member coined => sub x coined ((ok _ member).2 coined)
  | storage r => trivial
  | new x => exact ok

/-- Whatever is compiled, a coined variable that a function mentions is one of its parameters, or
declared before in the same block or in one around it. So it is in the lines that the target runs
by itself. In GLSL, no value from outside may have a name that ends in a number. -/
theorem compile_inScope {name text : String} {lib : Library} {options : Options} {c : Compiled}
    (run : compile name text lib options = .ok c) {target : Target} {o : Output}
    (output : (target, o) ∈ c.outputs)
    (apart : target = .glsl → ∀ u ∈ o.uniforms, ¬ EndsInNumber u.name) :
    (∀ f ∈ o.functions, Line.InScope (· ∈ f.params.map Prod.fst) f.body) ∧
      (target = .js → Line.InScope (· ∈ []) o.main) := by
  obtain ⟨items, p, reached, outputs⟩ := compile_reached run
  rw [outputs] at output
  obtain ⟨_, _, same⟩ := List.mem_map.mp output
  cases same
  have whole := reached.scoped
  have outside (x : String) (seen : p.Sees target x) := whole.not_coined apart seen
  refine ⟨fun f member => Program.Scoped.inScope outside (whole.functions target f member).body, ?_⟩
  rintro rfl
  have main := whole.main
  rw [← Names.plus_nil (p.Sees .js)] at main
  exact Program.Scoped.inScope outside main

/-- A loop with a variable of its own, in which one from around it changes, and a value from
outside. -/
def doubling : String :=
  "param $k: i32; fn f(a: i32) -> i32 { let mut s = a; for i in 0..$k { let t = s * s; s = t; } s }"

def Output.hasLoop (o : Output) : Bool :=
  o.functions.any fun f => f.body.any fun
    | .loop _ _ _ _ _ => true
    | _ => false

theorem doubling_compiles :
    (compile "main" doubling (.ofModules []) { targets := [.glsl] }).toOption.any
      (fun c => c.outputs.any fun q => q.2.uniforms.map Uniform.name == ["k"] && q.2.hasLoop) =
        true := by decide +kernel

theorem doubling_inScope : ∃ c target o,
    compile "main" doubling (.ofModules []) { targets := [.glsl] } = .ok c ∧
    (target, o) ∈ c.outputs ∧ o.uniforms.map Uniform.name = ["k"] ∧ o.hasLoop = true ∧
    ∀ f ∈ o.functions, Line.InScope (· ∈ f.params.map Prod.fst) f.body := by
  obtain ⟨c, target, o, run, output, checked⟩ := exists_output
    (fun _ o => o.uniforms.map Uniform.name == ["k"] && o.hasLoop) doubling_compiles
  simp only [Bool.and_eq_true, beq_iff_eq] at checked
  obtain ⟨names, loops⟩ := checked
  refine ⟨c, target, o, run, output, names, loops, (compile_inScope run output ?_).1⟩
  intro _ u member numbered
  have name : u.name ∈ o.uniforms.map Uniform.name := List.mem_map_of_mem member
  rw [names, List.mem_singleton] at name
  exact absurd numbered.last (by rw [name]; decide)

/-- A function that mentions a uniform, where another has a parameter of that name. -/
def sharing : String :=
  "param $a_28: f32; fn f(u_a: f32) -> f32 { u_a - $a_28 } fn g() -> f32 { $a_28 * 2.0 }"

/-- Whether a function without parameters gives what mentions a parameter of another. -/
def Output.borrows (o : Output) : Bool :=
  o.functions.any fun f => o.functions.any fun g => g.params.isEmpty &&
    match g.body with
    | [.give c] => (f.params.map Prod.fst).any fun x => c.mentions.any fun
      | .var y => x == y
      | _ => false
    | _ => false

theorem exists_not_inScope : ∃ c o,
    compile "main" sharing (.ofModules []) { targets := [.glsl] } = .ok c ∧
    (.glsl, o) ∈ c.outputs ∧ ∃ f ∈ o.functions, ∃ g ∈ o.functions, ∃ x ∈ f.params.map Prod.fst,
      Ids.Coined x ∧ g.params = [] ∧ ¬ Line.InScope (· ∈ g.params.map Prod.fst) g.body := by
  have borrows : (compile "main" sharing (.ofModules []) { targets := [.glsl] }).toOption.any
      (fun c => c.outputs.any fun q => q.1 == .glsl && q.2.borrows) = true := by decide +kernel
  obtain ⟨c, _, o, run, output, checked⟩ :=
    exists_output (fun t o => t == .glsl && o.borrows) borrows
  simp only [Bool.and_eq_true, beq_iff_eq, Output.borrows, List.any_eq_true,
    List.isEmpty_iff] at checked
  obtain ⟨rfl, f, fMember, g, gMember, none, found⟩ := checked
  split at found
  · rename_i code body
    obtain ⟨x, param, found⟩ := List.any_eq_true.mp found
    obtain ⟨m, mention, found⟩ := List.any_eq_true.mp found
    have coined := compile_coined run output f fMember x (by simp [FnCode.binders, param])
    refine ⟨c, o, run, output, f, fMember, g, gMember, x, param, coined, none, fun inScope => ?_⟩
    cases m with
    | var y =>
      obtain rfl : x = y := by simpa using found
      rw [body, Line.InScope, Line.allScoped_singleton, Line.Scoped] at inScope
      simpa [none] using inScope x mention coined
    | fn _ | part _ => cases found
  · cases found

/-! ## Names of uniforms -/

/-- The uniforms are the values from outside that the items declare, in their order. What a function
declares is the variable of a uniform only if the name of that one ends in a number. -/
theorem compile_names {name text : String} {lib : Library} {options : Options} {c : Compiled}
    (run : compile name text lib options = .ok c) {o : Output} (output : (.glsl, o) ∈ c.outputs) :
    (∃ (items : List Item) (p : Program), p.Reached (items.map (·, options.targets)) ∧ p.glsl = o ∧
      o.uniforms.map Uniform.name = items.filterMap fun i => i.kind.param?) ∧
    ∀ f ∈ o.functions, ∀ x ∈ f.binders, ∀ u ∈ o.uniforms, x = Target.glsl.external u.name →
      EndsInNumber u.name := by
  obtain ⟨items, p, reached, outputs⟩ := compile_reached run
  rw [outputs] at output
  obtain ⟨_, _, same⟩ := List.mem_map.mp output
  cases same
  have inScope := reached.scoped
  refine ⟨⟨items, p, reached, rfl, ?_⟩, fun f member x declared u _ same => ?_⟩
  · have names := reached.params
    have uniforms : (p.output .glsl).uniforms = _ := inScope.uniforms
    rw [uniforms, List.map_map]
    rw [List.filterMap_map] at names
    have ordered := congrArg List.reverse names
    simpa [Function.comp_def] using ordered
  · subst same
    exact ((inScope.functions .glsl f member).coined _ declared).endsInNumber

def scaling : String := "param $k: i32; fn f(k: i32) -> i32 { let u_k = k * $k; u_k + u_k }"

theorem scaling_compiles :
    (compile "main" scaling (.ofModules []) { targets := [.glsl] }).toOption.any
      (fun c => c.outputs.any fun q => q.1 == .glsl &&
        q.2.uniforms.map Uniform.name == ["k"] && !q.2.functions.isEmpty) = true := by
  decide +kernel

theorem compile_names_scaling : ∃ c o,
    compile "main" scaling (.ofModules []) { targets := [.glsl] } = .ok c ∧
    (.glsl, o) ∈ c.outputs ∧ o.uniforms.map Uniform.name = ["k"] ∧ o.functions ≠ [] ∧
    ∀ f ∈ o.functions, Target.glsl.external "k" ∉ f.binders := by
  obtain ⟨c, target, o, run, output, checked⟩ := exists_output (fun t o => t == .glsl &&
    o.uniforms.map Uniform.name == ["k"] && !o.functions.isEmpty) scaling_compiles
  simp only [Bool.and_eq_true, beq_iff_eq, Bool.not_eq_true', List.isEmpty_eq_false_iff] at checked
  obtain ⟨⟨rfl, names⟩, written⟩ := checked
  refine ⟨c, o, run, output, names, written, fun f member declared => ?_⟩
  obtain ⟨u, uniform, same⟩ : ∃ u ∈ o.uniforms, u.name = "k" := by
    have listed : "k" ∈ o.uniforms.map Uniform.name := by simp [names]
    exact List.mem_map.mp listed
  have numbered := (compile_names run output).2 f member _ declared u uniform (by rw [same])
  exact absurd numbered.last (by rw [same]; decide)

/-- A parameter gets the name of a uniform, and a uniform is declared twice. -/
theorem exists_names_clash :
    (∃ c o, compile "main" "param $a_28: f32; fn f(u_a: f32) -> f32 { u_a - $a_28 }" (.ofModules [])
      { targets := [.glsl] } = .ok c ∧ (.glsl, o) ∈ c.outputs ∧
      ∃ f ∈ o.functions, ∃ u ∈ o.uniforms, Target.glsl.external u.name ∈ f.binders) ∧
    ∃ c o, compile "main" "param $p: f32; param $p: f32;" (.ofModules []) { targets := [.glsl] } =
      .ok c ∧ (.glsl, o) ∈ c.outputs ∧ ¬ (o.uniforms.map Uniform.name).Nodup := by
  have clash : (compile "main" "param $a_28: f32; fn f(u_a: f32) -> f32 { u_a - $a_28 }"
      (.ofModules []) { targets := [.glsl] }).toOption.any (fun c => c.outputs.any fun q =>
        q.1 == .glsl && q.2.functions.any fun f => q.2.uniforms.any fun u =>
          f.binders.contains (Target.glsl.external u.name)) = true := by decide +kernel
  have twice : (compile "main" "param $p: f32; param $p: f32;" (.ofModules [])
      { targets := [.glsl] }).toOption.any (fun c => c.outputs.any fun q =>
        q.1 == .glsl && !decide (q.2.uniforms.map Uniform.name).Nodup) = true := by decide +kernel
  constructor
  · obtain ⟨c, _, o, run, output, checked⟩ := exists_output (fun t o => t == .glsl &&
      o.functions.any fun f => o.uniforms.any fun u =>
        f.binders.contains (Target.glsl.external u.name)) clash
    simp only [Bool.and_eq_true, beq_iff_eq, List.any_eq_true, List.contains_iff_mem] at checked
    obtain ⟨rfl, found⟩ := checked
    exact ⟨c, o, run, output, found⟩
  · obtain ⟨c, _, o, run, output, checked⟩ := exists_output (fun t o => t == .glsl &&
      !decide (o.uniforms.map Uniform.name).Nodup) twice
    simp only [Bool.and_eq_true, beq_iff_eq, Bool.not_eq_true', decide_eq_false_iff_not] at checked
    obtain ⟨rfl, found⟩ := checked
    exact ⟨c, o, run, output, found⟩

end Ember

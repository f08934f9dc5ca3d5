import Ember.Proofs.Worlds.Scoped
import Ember.Session

/-!
# What compilations reach

A program is reached if items of texts without issues lead to it, one after another, each lowered
for some targets. All that a compilation writes stands in a program that it reaches.
-/

set_option autoImplicit false

namespace Ember

def Item.Parsed (i : Item) : Prop :=
  ∃ chunk text, (Script.parse chunk text).issues = [] ∧ i ∈ (Script.parse chunk text).result.items

/-- Programs that items lead to from the start, each lowered for its targets. -/
inductive Program.Reached : List (Item × List Target) → Program → Prop
  | start {p : Program} : Program.start = .ok p → Reached [] p
  | item {rs : List (Item × List Target)} {p q : Program} {i : Item} {targets : List Target} :
    Reached rs p → i.Parsed → p.item i targets = (.ok (), q) → Reached (rs ++ [(i, targets)]) q

/-- A value from outside has a plain name. -/
theorem Item.Parsed.plain {i : Item} (h : i.Parsed) {name : Ident} {ty : TypeExpr}
    (kind : i.kind = .param name ty) : Text.Plain name.name := by
  obtain ⟨chunk, text, quiet, member⟩ := h
  have word := Script.parse_namesParam quiet i member name ty kind
  exact Text.plain_of_forall fun c inside => Ids.isPlain_of_isNameChar (word c inside)

/-- What an action does to a program, if it ends well. -/
theorem Program.of_run {α : Type} {p q : Program} {act : Emit α} {a : α}
    {good : α → Emission → Prop} {bad : Failure → Emission → Prop}
    (ends : Ends act { program := p } good bad) (run : p.run act = (.ok a, q)) :
    ∃ s, s.program = q ∧ good a s := by
  unfold Program.run at run
  unfold Ends at ends
  split at run
  · rename_i _ s lowered
    cases run
    rw [lowered] at ends
    exact ⟨s, rfl, ends⟩
  · cases run

theorem Discipline.Ready.rests {D : Discipline .usual} {p : Program} (h : D.Ready p) :
    D.Rests { program := p } := ⟨h, rfl, rfl, rfl⟩

theorem Discipline.Ready.item {D : Discipline .usual} {p q : Program} (h : D.Ready p) {i : Item}
    {targets : List Target} (parsed : i.Parsed)
    (admits : ∀ name ty, i.kind = .param name ty → D.Admits name.name)
    (run : p.item i targets = (.ok (), q)) : D.Ready q := by
  have ends := h.rests.lower i (fun _ _ kind => ⟨parsed.plain kind, admits _ _ kind⟩) targets
  rw [Lowerings.lower_usual] at ends
  obtain ⟨s, rfl, ready⟩ := Program.of_run ends run
  exact ready

/-- What a discipline keeps holds of all programs that are reached, if it does at the start. -/
theorem Program.Reached.ready {D : Discipline .usual} (admits : ∀ name, D.Admits name)
    (keeps : ∀ p, Program.start = .ok p → D.Keeps p) {rs : List (Item × List Target)} {p : Program}
    (h : p.Reached rs) : D.Ready p := by
  induction h with
  | start start => exact ⟨keeps _ start, tidy_of_start start⟩
  | item _ parsed run ih => exact ih.item parsed (fun _ _ _ => admits _) run

theorem Program.Reached.scoping {rs : List (Item × List Target)} {p : Program} (h : p.Reached rs) :
    Discipline.scoping.Ready p :=
  h.ready (D := .scoping) (fun _ => trivial) fun _ start => ⟨scoped_of_start start, trivial⟩

theorem Program.Reached.scoped {rs : List (Item × List Target)} {p : Program} (h : p.Reached rs) :
    p.Scoped := h.scoping.keeps.1

/-! ## Values from outside -/

def ItemKind.param? : ItemKind → Option String
  | .param name _ => some name.name
  | _ => none

/-- The item of a value from outside declares that one alone. -/
theorem Discipline.Ready.paramItem {p q : Program} (h : (Discipline.scopingAs p.params).Ready p)
    {i : Item} {targets : List Target} {name : Ident} {ty : TypeExpr}
    (kind : i.kind = .param name ty) (run : p.item i targets = (.ok (), q)) :
    ∃ t, q.params = (name.name, t) :: p.params := by
  have ends : Ends (Item.param name ty) { program := p }
      (fun _ u => ∃ t, u.program.params = (name.name, t) :: p.params) (fun _ _ => True) := by
    unfold Item.param
    refine Ends.bind ((h.rests.lives (t := .glsl) fun w _ =>
      Lives.type (Lowering.ofDepth_scoping .glsl p _) ty).mono (fun t u found => ?_) fun _ _ => id)
    obtain ⟨_, inside, _, _⟩ := found
    dsimp only
    split
    · trivial
    · exact ⟨t, congrArg ((name.name, t) :: ·) inside.holds.params⟩
  have lowered : i.lower targets = Emit.locating i.span (Item.param name ty) := by
    unfold Item.lower
    rw [kind]
  unfold Program.item at run
  rw [lowered] at run
  obtain ⟨s, rfl, found⟩ := Program.of_run (ends.locating i.span) run
  exact found

theorem Program.Reached.params {rs : List (Item × List Target)} {p : Program} (h : p.Reached rs) :
    p.params.map Prod.fst = (rs.filterMap fun r => r.1.kind.param?).reverse := by
  induction h with
  | start start =>
    have own := (isBare_of_start start).own
    simp [Program.params, own, root_params_of_start start]
  | @item rs p q i targets reached parsed run ih =>
    have ready : (Discipline.scopingAs p.params).Ready p :=
      ⟨⟨reached.scoped, rfl⟩, reached.scoping.tidy⟩
    rw [List.filterMap_append, List.reverse_append, ← ih]
    by_cases found : ∃ name ty, i.kind = .param name ty
    · obtain ⟨name, ty, kind⟩ := found
      obtain ⟨t, params⟩ := ready.paramItem kind run
      simp [params, ItemKind.param?, kind]
    · have others (name : Ident) (ty : TypeExpr) : i.kind ≠ .param name ty := fun kind =>
        found ⟨name, ty, kind⟩
      have params : q.params = p.params :=
        (ready.item parsed (fun name ty kind => absurd kind (others name ty)) run).keeps.2
      have none : i.kind.param? = none := by
        unfold ItemKind.param?
        split
        · rename_i name ty kind
          exact absurd kind (others name ty)
        · rfl
      simp [params, none]

/-! ## Compilations -/

namespace Session

variable {α β : Type} {targets : List Target}

def Leads (targets : List Target) (act : Compile α) : Prop :=
  ∀ (s t : Session) (a : α) (is : List Item), act s = .ok a t →
    s.program.Reached (is.map (·, targets)) →
    ∃ js, t.program.Reached ((is ++ js).map (·, targets))

namespace Leads

theorem same {act : Compile α} (h : ∀ s a t, act s = .ok a t → t.program = s.program) :
    Leads targets act := by
  intro s t a is run reached
  refine ⟨[], ?_⟩
  rw [List.append_nil, h s a t run]
  exact reached

theorem throw (stop : Stop) : Leads targets (MonadExcept.throw stop : Compile α) :=
  same fun _ _ _ run => by cases run

theorem bind {act : Compile α} {next : α → Compile β} (h : Leads targets act)
    (then_ : ∀ a, Leads targets (next a)) : Leads targets (act >>= next) := by
  intro s t b is run reached
  change EStateM.bind act next s = _ at run
  unfold EStateM.bind at run
  cases first : act s with
  | ok a m =>
    rw [first] at run
    obtain ⟨js, reached⟩ := h s m a is first reached
    obtain ⟨ks, reached⟩ := then_ a m t b _ run reached
    exact ⟨js ++ ks, by simpa using reached⟩
  | error stop m => simp [first] at run

theorem forM {f : Item → Compile Unit} {is : List Item} (h : ∀ i ∈ is, Leads targets (f i)) :
    Leads targets (is.forM f) := by
  induction is with
  | nil =>
    refine same fun s _ t run => ?_
    cases run
    rfl
  | cons i is ih =>
    exact bind (h i (by simp)) fun _ => ih fun j member => h j (by simp [member])

theorem item {i : Item} (parsed : i.Parsed) : Leads targets (Session.item targets i) := by
  intro s t _ is run reached
  unfold Session.item at run
  split at run
  · rename_i q lowered
    cases run
    exact ⟨[i], by simpa using reached.item parsed lowered⟩
  · cases run

theorem use {lib : Library} {unit : String → String → Compile Unit}
    (h : ∀ name text, Leads targets (unit name text)) (name : String) (span : Span) :
    Leads targets (Session.use lib unit name span) := by
  have here : Leads targets (MonadState.get : Compile Session) := same fun _ _ _ run => by
    cases run
    rfl
  unfold Session.use
  refine bind here fun s => ?_
  split
  · exact throw _
  · refine bind here fun s' => ?_
    split
    · exact same fun _ _ _ run => by
        cases run
        rfl
    · split
      · exact h name _
      · exact throw _

theorem unit {lib : Library} (n : Nat) (name text : String) :
    Leads targets (Session.unit lib targets n name text) := by
  induction n generalizing name text with
  | zero => exact throw _
  | succ n ih =>
    rw [Session.unit]
    have added : Leads targets (modifyGet fun s : Session =>
        ((s.sources.add name text).1, { s with sources := (s.sources.add name text).2 }) :
          Compile Nat) := same fun _ _ _ run => by
      cases run
      rfl
    have changed (f : Session → Session) (kept : ∀ s, (f s).program = s.program) :
        Leads targets (modify f : Compile Unit) := same fun s _ _ run => by
      cases run
      exact kept s
    refine bind added fun chunk => ?_
    dsimp only
    split
    · exact same fun _ _ _ run => by cases run
    · rename_i quiet
      refine bind (changed _ fun _ => rfl) fun _ => bind (forM fun i member => ?_) fun _ =>
        changed _ fun _ => rfl
      split
      · exact use ih _ _
      · exact item ⟨chunk, text, by simpa using quiet, member⟩

end Leads
end Session

/-- What a compilation writes stands in a program that it reaches. -/
theorem compile_reached {name text : String} {lib : Library} {options : Options} {c : Compiled}
    (run : compile name text lib options = .ok c) : ∃ (items : List Item) (p : Program),
      p.Reached (items.map (·, options.targets)) ∧
      c.outputs = options.targets.map fun t => (t, p.output t) := by
  unfold compile at run
  split at run
  · cases run
  · rename_i p start
    split at run
    · cases run
    · rename_i s unit
      cases run
      obtain ⟨items, reached⟩ := Session.Leads.unit _ name text { program := p } s () [] unit
        (.start start)
      exact ⟨items, s.program, by simpa using reached, rfl⟩

end Ember

import Mathlib
import Ember.Proofs.Ends
import Ember.Session

/-!
# Units are read once, depth first

A compilation reads a root and the units that it uses, one inside the other. `Units.Walk` is the
walk it takes through them: depth first, into each unit at its first use. The items of a unit carry
the number of the source they stand in, which is how many units were read before, so what a unit
says is said relative to the order of the walk.

A compilation ends, since units are never used deeper than there are names. It succeeds if no unit
on the way is missing or has issues, none uses itself, at once or through others, and the items of
the walk can be declared one after the other. `Units.Loads` is the walk together with what the
compilation checks on it: a run that succeeds takes it, and it is there if the graph of uses is as it
should be.
-/

set_option autoImplicit false

namespace Ember

def Item.used? (i : Item) : Option String :=
  match i.kind with
  | .useModule name _ => some name
  | _ => none

def Program.items? (targets : List Target) : List Item → Program → Option Program
  | [], p => some p
  | i :: is, p =>
    match p.item i targets with
    | (.ok _, q) => q.items? targets is
    | (.error _, _) => none

theorem Program.items?_append (targets : List Target) (is js : List Item) (p : Program) :
    p.items? targets (is ++ js) = (p.items? targets is).bind (·.items? targets js) := by
  induction is generalizing p with
  | nil => rfl
  | cons i is ih =>
    rw [List.cons_append, Program.items?, Program.items?]
    split
    · exact ih _
    · rfl

/-- A unit to compile, and the units that can be used. -/
structure Units where
  root : String
  text : String
  others : List (String × String)

namespace Units

variable (u : Units)

/-- The text of a unit. No other unit has the name of the root. -/
def text? (name : String) : Option String :=
  if name = u.root then some u.text else u.others.lookup name

def script (chunk : Nat) (name : String) : List Item :=
  match u.text? name with
  | some text => (Script.parse chunk text).result.items
  | none => []

/-- A unit that is there and has no issues. -/
def Reads (chunk : Nat) (name : String) : Prop :=
  ∃ text, u.text? name = some text ∧ (Script.parse chunk text).issues = []

/-- The walk through items, where some units were seen before: the units that are new, in the order
in which they are entered, and the items that are no uses, in the order in which they are met. -/
inductive Walk : List String → List Item → List String → List Item → Prop
  | done {seen : List String} : Walk seen [] [] []
  | item {seen new : List String} {i : Item} {is trace : List Item} (plain : i.used? = none)
      (rest : Walk seen is new trace) : Walk seen (i :: is) new (i :: trace)
  | again {seen new : List String} {i : Item} {is trace : List Item} {name : String}
      (uses : i.used? = some name) (known : name ∈ seen) (rest : Walk seen is new trace) :
      Walk seen (i :: is) new trace
  | first {seen inner new : List String} {i : Item} {is trace trace' : List Item} {name : String}
      (uses : i.used? = some name) (fresh : name ∉ seen)
      (enter : Walk (seen ++ [name]) (u.script seen.length name) inner trace)
      (rest : Walk (seen ++ name :: inner) is new trace') :
      Walk seen (i :: is) (name :: inner ++ new) (trace ++ trace')

/-- The walk from the root: the units in the order in which they are entered, and the items in the
order in which they are met. -/
def Tour (order : List String) (trace : List Item) : Prop :=
  ∃ new, order = u.root :: new ∧ u.Walk [u.root] (u.script 0 u.root) new trace

def Uses (order : List String) (a b : String) : Prop :=
  ∃ i ∈ u.script (order.idxOf a) a, i.used? = some b

/-- A unit that the root uses, through others or not, or the root. -/
def Reachable (order : List String) : String → Prop := Relation.ReflTransGen (u.Uses order) u.root

/-- Every unit that can be reached is there and has no issues, and none uses itself, at once or
through others. -/
structure Compilable (order : List String) : Prop where
  reads : ∀ name, u.Reachable order name → u.Reads (order.idxOf name) name
  acyclic : ∀ name, u.Reachable order name → ¬ Relation.TransGen (u.Uses order) name name

def plainItems (order : List String) (name : String) : List Item :=
  (u.script (order.idxOf name) name).filter (·.used?.isNone)

theorem text?_of_ne {name : String} (other : name ≠ u.root) :
    u.text? name = u.others.lookup name := if_neg other

theorem text?_root : u.text? u.root = some u.text := if_pos rfl

variable {u}

theorem script_of_text {chunk : Nat} {name text : String} (found : u.text? name = some text) :
    u.script chunk name = (Script.parse chunk text).result.items := by
  simp [script, found]

/-- Where a unit is entered, the walk through it and the walk that follows keep to the order, and
its number is how many units were read before. -/
theorem within_entered {seen inner new order : List String} {name : String} (fresh : name ∉ seen)
    (within : seen ++ (name :: inner ++ new) <+: order) :
    seen ++ name :: inner ++ new <+: order ∧ seen ++ [name] ++ inner <+: order ∧
      order.idxOf name = seen.length := by
  obtain ⟨rest, rfl⟩ := within
  refine ⟨⟨rest, by simp⟩, ⟨new ++ rest, by simp⟩, ?_⟩
  simp [List.idxOf_append, fresh]

/-! ## Walks -/

def unseen (u : Units) (seen : List String) : Finset String :=
  (u.root :: u.others.map Prod.fst).toFinset \ seen.toFinset

theorem mem_names {name text : String} (found : u.text? name = some text) :
    name ∈ u.root :: u.others.map Prod.fst := by
  by_cases root : name = u.root
  · simp [root]
  · rw [text?_of_ne u root] at found
    obtain ⟨before, after, same, _⟩ := List.lookup_eq_some_iff.mp found
    simp [same]

theorem unseen_mono {seen later : List String} (sub : seen ⊆ later) :
    (u.unseen later).card ≤ (u.unseen seen).card := by
  refine Finset.card_le_card
    (Finset.sdiff_subset_sdiff (Finset.Subset.refl _) fun name member => ?_)
  exact List.mem_toFinset.mpr (sub (List.mem_toFinset.mp member))

theorem unseen_lt {seen : List String} {name text : String} (found : u.text? name = some text)
    (fresh : name ∉ seen) : (u.unseen (seen ++ [name])).card < (u.unseen seen).card := by
  refine Finset.card_lt_card (Finset.ssubset_iff_of_subset ?_ |>.mpr ⟨name, ?_, ?_⟩)
  · refine Finset.sdiff_subset_sdiff (Finset.Subset.refl _) fun other member => ?_
    simp [List.mem_toFinset.mp member]
  · exact Finset.mem_sdiff.mpr ⟨List.mem_toFinset.mpr (mem_names found), by simpa using fresh⟩
  · simp [unseen]

namespace Walk

variable {seen new order : List String} {is trace : List Item}

/-- There is a walk: each unit that is entered was not seen before, and one that is not there says
nothing. -/
theorem exists_walk (u : Units) (seen : List String) (is : List Item) :
    ∃ new trace, u.Walk seen is new trace := by
  suffices ∀ k is seen, (u.unseen seen).card ≤ k → ∃ new trace, u.Walk seen is new trace from
    this _ is seen le_rfl
  intro k
  induction k using Nat.strong_induction_on with
  | _ k inside =>
    intro is
    induction is with
    | nil => exact fun seen _ => ⟨[], [], .done⟩
    | cons i is later =>
      intro seen bound
      cases uses : i.used? with
      | none =>
        obtain ⟨new, trace, rest⟩ := later seen bound
        exact ⟨new, i :: trace, .item uses rest⟩
      | some name =>
        by_cases known : name ∈ seen
        · obtain ⟨new, trace, rest⟩ := later seen bound
          exact ⟨new, trace, .again uses known rest⟩
        · have enter : ∃ inner trace, u.Walk (seen ++ [name]) (u.script seen.length name) inner
              trace := by
            cases found : u.text? name with
            | none =>
              have nothing : u.script seen.length name = [] := by simp [script, found]
              rw [nothing]
              exact ⟨[], [], .done⟩
            | some text =>
              exact inside _ ((unseen_lt found known).trans_le bound) _ _ le_rfl
          obtain ⟨inner, trace, enter⟩ := enter
          obtain ⟨new, trace', rest⟩ := later (seen ++ name :: inner)
            ((unseen_mono (List.subset_append_left _ _)).trans bound)
          exact ⟨_, _, .first uses known enter rest⟩

/-- There is no other walk. -/
theorem unique {new' : List String} {trace' : List Item} (h : u.Walk seen is new trace)
    (h' : u.Walk seen is new' trace') : new' = new ∧ trace' = trace := by
  induction h generalizing new' trace' with
  | done =>
    cases h'
    exact ⟨rfl, rfl⟩
  | item plain _ ih =>
    cases h' with
    | item _ rest =>
      obtain ⟨rfl, rfl⟩ := ih rest
      exact ⟨rfl, rfl⟩
    | again uses => simp [plain] at uses
    | first uses => simp [plain] at uses
  | again uses known _ ih =>
    cases h' with
    | item plain => simp [plain] at uses
    | again _ _ rest => exact ih rest
    | first uses' fresh =>
      obtain rfl : _ = _ := Option.some.inj (uses.symm.trans uses')
      exact absurd known fresh
  | first uses fresh _ _ inside later =>
    cases h' with
    | item plain => simp [plain] at uses
    | again uses' known =>
      obtain rfl : _ = _ := Option.some.inj (uses.symm.trans uses')
      exact absurd known fresh
    | first uses' _ enter rest =>
      obtain rfl : _ = _ := Option.some.inj (uses.symm.trans uses')
      obtain ⟨rfl, rfl⟩ := inside enter
      obtain ⟨rfl, rfl⟩ := later rest
      exact ⟨rfl, rfl⟩

theorem nodup (h : u.Walk seen is new trace) (once : seen.Nodup) : (seen ++ new).Nodup := by
  induction h with
  | done => simpa using once
  | item _ _ ih => exact ih once
  | again _ _ _ ih => exact ih once
  | @first seen inner new i is trace trace' name uses fresh enter rest inside later =>
    have entering : (seen ++ [name]).Nodup := by
      refine List.nodup_append.mpr ⟨once, by simp, fun x known y same => ?_⟩
      rintro rfl
      exact fresh (List.mem_singleton.mp same ▸ known)
    have entered : (seen ++ name :: inner).Nodup := by simpa using inside entering
    simpa using later entered

/-- The items of the walk are those that it starts with and those of each new unit, once. -/
theorem perm (h : u.Walk seen is new trace) (within : seen ++ new <+: order) :
    trace.Perm (is.filter (·.used?.isNone) ++ new.flatMap (u.plainItems order)) := by
  induction h with
  | done => simp
  | item plain _ ih => simpa [plain] using ih within
  | again uses _ _ ih => simpa [uses] using ih within
  | @first seen inner new i is trace trace' name uses fresh enter rest inside later =>
    obtain ⟨whole, entered, place⟩ := within_entered fresh within
    have own : u.plainItems order name =
        (u.script seen.length name).filter (·.used?.isNone) := by rw [plainItems, place]
    have both := (inside entered).append (later whole)
    simp only [List.filter_cons, uses, Option.isNone_some, Bool.false_eq_true, if_false,
      List.cons_append, List.flatMap_cons, List.flatMap_append, own]
    rw [← List.append_assoc _ (inner.flatMap _)]
    exact both.trans (List.perm_append_comm_assoc _ _ _)

/-- The walk comes through all that is used on it. -/
theorem closed (h : u.Walk seen is new trace) (within : seen ++ new <+: order) :
    (∀ i ∈ is, ∀ b, i.used? = some b → b ∈ seen ++ new) ∧
      ∀ a ∈ new, ∀ b, u.Uses order a b → b ∈ seen ++ new := by
  induction h with
  | done => simp
  | @item seen new i is trace plain _ ih =>
    obtain ⟨items, units⟩ := ih within
    refine ⟨List.forall_mem_cons.mpr ⟨fun b uses => ?_, items⟩, units⟩
    rw [plain] at uses
    cases uses
  | @again seen new i is trace name uses known _ ih =>
    obtain ⟨items, units⟩ := ih within
    refine ⟨List.forall_mem_cons.mpr ⟨fun b uses' => ?_, items⟩, units⟩
    obtain rfl : name = b := Option.some.inj (uses.symm.trans uses')
    exact List.mem_append_left _ known
  | @first seen inner new i is trace trace' name uses fresh enter rest inside later =>
    obtain ⟨whole, entered, place⟩ := within_entered fresh within
    obtain ⟨items, units⟩ := inside entered
    obtain ⟨items', units'⟩ := later whole
    have grow (b : String) (member : b ∈ seen ++ [name] ++ inner) :
        b ∈ seen ++ (name :: inner ++ new) := by
      simp only [List.mem_append, List.mem_cons, List.not_mem_nil, or_false] at member ⊢
      tauto
    have same (b : String) (member : b ∈ seen ++ name :: inner ++ new) :
        b ∈ seen ++ (name :: inner ++ new) := by simpa using member
    refine ⟨List.forall_mem_cons.mpr ⟨fun b uses' => ?_, fun j hj b used => ?_⟩, ?_⟩
    · obtain rfl : name = b := Option.some.inj (uses.symm.trans uses')
      simp
    · exact same b (items' j hj b used)
    · intro a member b used
      rcases List.mem_append.mp member with member | member
      · rcases List.mem_cons.mp member with rfl | member
        · obtain ⟨j, hj, used⟩ := used
          exact grow b (items j (place ▸ hj) b used)
        · exact grow b (units a member b used)
      · exact same b (units' a member b used)

/-- The walk enters only what can be reached from where it is. -/
theorem reachable {at_ : String} (h : u.Walk seen is new trace) (within : seen ++ new <+: order)
    (here : u.Reachable order at_) (own : ∀ i ∈ is, i ∈ u.script (order.idxOf at_) at_) :
    ∀ b ∈ new, u.Reachable order b := by
  induction h generalizing at_ with
  | done => simp
  | item _ _ ih => exact ih within here (List.forall_mem_cons.mp own).2
  | again _ _ _ ih => exact ih within here (List.forall_mem_cons.mp own).2
  | @first seen inner new i is trace trace' name uses fresh enter rest inside later =>
    obtain ⟨whole, entered, place⟩ := within_entered fresh within
    have there : u.Reachable order name := here.tail ⟨i, own i (by simp), uses⟩
    intro b member
    rcases List.mem_append.mp member with member | member
    · rcases List.mem_cons.mp member with rfl | member
      · exact there
      · exact inside entered there (fun j hj => place ▸ hj) b member
    · exact later whole here (List.forall_mem_cons.mp own).2 b member

/-- The units of a walk from the root are the ones that can be reached. -/
theorem mem_iff_reachable (h : u.Walk [u.root] (u.script 0 u.root) new trace) (name : String) :
    name ∈ u.root :: new ↔ u.Reachable (u.root :: new) name := by
  have start : (u.root :: new).idxOf u.root = 0 := by simp
  constructor
  · intro member
    rcases List.mem_cons.mp member with rfl | member
    · exact .refl
    · exact h.reachable List.prefix_rfl .refl (fun i hi => start ▸ hi) name member
  · have whole : [u.root] ++ new <+: u.root :: new := List.prefix_rfl
    obtain ⟨items, units⟩ := h.closed whole
    intro reached
    induction reached with
    | refl => simp
    | @tail a b _ step ih =>
      rcases List.mem_cons.mp ih with rfl | member
      · obtain ⟨i, hi, uses⟩ := step
        exact items i (start ▸ hi) b uses
      · exact units a member b step

end Walk

/-! ## Walks of compilations -/

/-- The walk of a compilation inside of the units `path`, the innermost first, with others that are
done. It enters a unit that is there and has no issues, and meets no use of a unit that it is in. -/
inductive Loads (u : Units) :
    List String → List String → List String → List Item → List String → List String → List Item →
      Prop
  | done {path seen loaded : List String} : Loads u path seen loaded [] [] loaded []
  | item {path seen loaded new loaded' : List String} {i : Item} {is trace : List Item}
      (plain : i.used? = none) (rest : Loads u path seen loaded is new loaded' trace) :
      Loads u path seen loaded (i :: is) new loaded' (i :: trace)
  | again {path seen loaded new loaded' : List String} {i : Item} {is trace : List Item}
      {name : String} (uses : i.used? = some name) (outside : name ∉ path) (known : name ∈ loaded)
      (rest : Loads u path seen loaded is new loaded' trace) :
      Loads u path seen loaded (i :: is) new loaded' trace
  | first {path seen loaded inner mid new loaded' : List String} {i : Item}
      {is trace trace' : List Item} {name text : String} (uses : i.used? = some name)
      (outside : name ∉ path) (fresh : name ∉ loaded) (found : u.others.lookup name = some text)
      (quiet : (Script.parse seen.length text).issues = [])
      (enter : Loads u (name :: path) (seen ++ [name]) loaded
        (Script.parse seen.length text).result.items inner mid trace)
      (rest : Loads u path (seen ++ name :: inner) (name :: mid) is new loaded' trace') :
      Loads u path seen loaded (i :: is) (name :: inner ++ new) loaded' (trace ++ trace')

/-- Each unit that was seen is done or being read, and not both. -/
structure Split (seen path loaded : List String) : Prop where
  cover : ∀ x, x ∈ seen ↔ x ∈ path ∨ x ∈ loaded
  apart : ∀ x ∈ path, x ∉ loaded

namespace Split

variable {seen path loaded : List String} {name : String}

theorem fresh (h : Split seen path loaded) (outside : name ∉ path) (fresh : name ∉ loaded) :
    name ∉ seen := by
  rw [h.cover]
  exact fun known => known.elim outside fresh

theorem enter (h : Split seen path loaded) (fresh : name ∉ seen) :
    Split (seen ++ [name]) (name :: path) loaded := by
  constructor
  · intro x
    simp only [List.mem_append, List.mem_cons, List.not_mem_nil, or_false, h.cover]
    tauto
  · refine List.forall_mem_cons.mpr ⟨fun known => fresh ((h.cover name).mpr (.inr known)), h.apart⟩

theorem leave {inner : List String} (h : Split (seen ++ [name] ++ inner) (name :: path) loaded)
    (outside : name ∉ path) : Split (seen ++ name :: inner) path (name :: loaded) := by
  constructor
  · intro x
    have cover := h.cover x
    simp only [List.mem_append, List.mem_cons, List.not_mem_nil, or_false] at cover ⊢
    tauto
  · intro x member
    have apart := h.apart x (List.mem_cons_of_mem _ member)
    rintro (_ | ⟨_, known⟩)
    · exact outside member
    · exact apart known

end Split

namespace Loads

variable {path seen loaded new loaded' order : List String} {is trace : List Item}

theorem split (h : u.Loads path seen loaded is new loaded' trace) (split : Split seen path loaded) :
    Split (seen ++ new) path loaded' := by
  induction h with
  | done => simpa using split
  | item _ _ ih => exact ih split
  | again _ _ _ _ ih => exact ih split
  | first uses outside fresh found quiet _ _ inside later =>
    have entered := inside (split.enter (split.fresh outside fresh))
    simpa using later (entered.leave outside)

/-- What a compilation checks does not change the walk. -/
theorem walk (h : u.Loads path seen loaded is new loaded' trace) (split : Split seen path loaded)
    (root : u.root ∈ path) : u.Walk seen is new trace := by
  induction h with
  | done => exact .done
  | item plain _ ih => exact .item plain (ih split root)
  | again uses _ known _ ih =>
    exact .again uses ((split.cover _).mpr (.inr known)) (ih split root)
  | @first path seen loaded inner mid new loaded' i is trace trace' name text uses outside fresh
      found quiet enter rest inside later =>
    have unseen := split.fresh outside fresh
    have entering := split.enter unseen
    have other : name ≠ u.root := fun same => outside (same ▸ root)
    have there : u.text? name = some text := (text?_of_ne u other).trans found
    refine .first uses unseen ?_ (later ((enter.split entering).leave outside) root)
    rw [script_of_text there]
    exact inside entering (List.mem_cons_of_mem _ root)

end Loads

/-- Units each of which uses only those after it, and has no issues. -/
def Sorted (u : Units) (order : List String) : List String → Prop
  | [] => True
  | x :: xs => x ∉ xs ∧ u.Reads (order.idxOf x) x ∧ (∀ b, u.Uses order x b → b ∈ xs) ∧
      u.Sorted order xs

namespace Sorted

variable {order xs : List String} {a b : String}

theorem reads (h : u.Sorted order xs) (member : a ∈ xs) : u.Reads (order.idxOf a) a := by
  induction xs with
  | nil => cases member
  | cons x xs ih =>
    obtain ⟨_, reads, _, rest⟩ := h
    rcases List.mem_cons.mp member with rfl | member
    · exact reads
    · exact ih rest member

theorem step (h : u.Sorted order xs) (member : a ∈ xs) (uses : u.Uses order a b) : b ∈ xs := by
  induction xs with
  | nil => cases member
  | cons x xs ih =>
    obtain ⟨_, _, own, rest⟩ := h
    rcases List.mem_cons.mp member with rfl | member
    · exact List.mem_cons_of_mem _ (own b uses)
    · exact List.mem_cons_of_mem _ (ih rest member)

theorem closed (h : u.Sorted order xs) (member : a ∈ xs)
    (reached : Relation.ReflTransGen (u.Uses order) a b) : b ∈ xs := by
  induction reached with
  | refl => exact member
  | tail _ uses ih => exact h.step ih uses

/-- Uses lead on along the list, so they do not come back. -/
theorem acyclic (h : u.Sorted order xs) (member : a ∈ xs) :
    ¬ Relation.TransGen (u.Uses order) a a := by
  induction xs with
  | nil => cases member
  | cons x xs ih =>
    obtain ⟨fresh, _, own, rest⟩ := h
    rcases List.mem_cons.mp member with rfl | member
    · intro cycle
      obtain ⟨b, uses, back⟩ := Relation.TransGen.head'_iff.mp cycle
      exact fresh (rest.closed (own b uses) back)
    · exact ih rest member

end Sorted

namespace Loads

variable {path seen loaded new loaded' order : List String} {is trace : List Item}

/-- Units are done in an order in which each one uses only those that were done before. -/
theorem sorted (h : u.Loads path seen loaded is new loaded' trace) (split : Split seen path loaded)
    (root : u.root ∈ path) (within : seen ++ new <+: order) (sorted : u.Sorted order loaded) :
    u.Sorted order loaded' ∧ loaded ⊆ loaded' ∧
      ∀ i ∈ is, ∀ b, i.used? = some b → b ∈ loaded' := by
  induction h with
  | done => simpa using sorted
  | item plain _ ih =>
    obtain ⟨after, grows, items⟩ := ih split root within sorted
    refine ⟨after, grows, List.forall_mem_cons.mpr ⟨fun b uses => ?_, items⟩⟩
    rw [plain] at uses
    cases uses
  | @again path seen loaded new loaded' i is trace name uses outside known _ ih =>
    obtain ⟨after, grows, items⟩ := ih split root within sorted
    refine ⟨after, grows, List.forall_mem_cons.mpr ⟨fun b uses' => ?_, items⟩⟩
    obtain rfl : name = b := Option.some.inj (uses.symm.trans uses')
    exact grows known
  | @first path seen loaded inner mid new loaded' i is trace trace' name text uses outside fresh
      found quiet enter rest inside later =>
    have unseen := split.fresh outside fresh
    have entering := split.enter unseen
    have left := (enter.split entering).leave outside
    obtain ⟨whole, entered, place⟩ := within_entered unseen within
    have other : name ≠ u.root := fun same => outside (same ▸ root)
    have there : u.text? name = some text := (text?_of_ne u other).trans found
    obtain ⟨mids, grows, items⟩ :=
      inside entering (List.mem_cons_of_mem _ root) entered sorted
    -- The unit that was entered is done now, and all that it uses was done before.
    have done : u.Sorted order (name :: mid) := by
      refine ⟨(enter.split entering).apart name (by simp), ⟨text, there, place ▸ quiet⟩, ?_, mids⟩
      rintro b ⟨j, hj, used⟩
      rw [place, script_of_text there] at hj
      exact items j hj b used
    obtain ⟨after, grows', items'⟩ := later left root whole done
    refine ⟨after, fun x known => grows' (List.mem_cons_of_mem _ (grows known)),
      List.forall_mem_cons.mpr ⟨fun b uses' => ?_, items'⟩⟩
    obtain rfl : name = b := Option.some.inj (uses.symm.trans uses')
    exact grows' (by simp)

end Loads

/-- A walk through units that are as they should be is one that a compilation takes. -/
theorem Walk.loads {seen new order : List String} {is trace : List Item}
    (h : u.Walk seen is new trace) (within : seen ++ new <+: order)
    (sound : u.Compilable order) {at_ : String} {path loaded : List String}
    (split : Split seen path loaded) (root : u.root ∈ path) (here : u.Reachable order at_)
    (around : ∀ a ∈ path, u.Reachable order a ∧ Relation.ReflTransGen (u.Uses order) a at_)
    (own : ∀ i ∈ is, i ∈ u.script (order.idxOf at_) at_) :
    ∃ loaded', u.Loads path seen loaded is new loaded' trace := by
  induction h generalizing at_ path loaded with
  | done => exact ⟨loaded, .done⟩
  | item plain _ ih =>
    obtain ⟨loaded', rest⟩ := ih within split root here around (List.forall_mem_cons.mp own).2
    exact ⟨loaded', .item plain rest⟩
  | @again seen new i is trace name uses known _ ih =>
    obtain ⟨loaded', rest⟩ := ih within split root here around (List.forall_mem_cons.mp own).2
    have outside : name ∉ path := by
      intro inside
      obtain ⟨reached, back⟩ := around name inside
      exact sound.acyclic name reached (.tail' back ⟨i, own i (by simp), uses⟩)
    exact ⟨loaded', .again uses outside (((split.cover name).mp known).resolve_left outside) rest⟩
  | @first seen inner new i is trace trace' name uses fresh enter rest inside later =>
    obtain ⟨whole, entered, place⟩ := within_entered fresh within
    have step : u.Uses order at_ name := ⟨i, own i (by simp), uses⟩
    have there : u.Reachable order name := here.tail step
    obtain ⟨text, found, quiet⟩ := sound.reads name there
    rw [place] at quiet
    have outside : name ∉ path := fun known => fresh ((split.cover name).mpr (.inl known))
    have undone : name ∉ loaded := fun known => fresh ((split.cover name).mpr (.inr known))
    have other : name ≠ u.root := fun same => outside (same ▸ root)
    have entering := split.enter fresh
    obtain ⟨mid, walked⟩ := inside entered entering (List.mem_cons_of_mem _ root) there
      (List.forall_mem_cons.mpr ⟨⟨there, .refl⟩, fun a ha =>
        ⟨(around a ha).1, (around a ha).2.tail step⟩⟩) fun j hj => place ▸ hj
    obtain ⟨loaded', walked'⟩ := later whole ((walked.split entering).leave outside) root here
      around (List.forall_mem_cons.mp own).2
    rw [script_of_text found] at walked
    exact ⟨loaded', .first uses outside undone ((text?_of_ne u other).symm.trans found) quiet walked
      walked'⟩

end Units

/-! ## Runs -/

namespace Session

variable {lib : Library} {targets : List Target} {n : Nat}
  {inner deeper : String → String → Compile Unit}

/-- What a compilation does with an item of a unit, where `inner` processes what it uses. -/
def step (lib : Library) (targets : List Target) (inner : String → String → Compile Unit)
    (i : Item) : Compile Unit :=
  match i.kind with
  | .useModule used span => use lib inner used span
  | _ => item targets i

/-- A compilation inside of some units, after others were seen and some are done. -/
structure At (s : Session) (path seen loaded : List String) : Prop where
  active : s.active = path
  size : s.sources.size = seen.length
  loaded : s.loaded = loaded

def enter (s : Session) (name text : String) : Session :=
  { s with sources := (s.sources.add name text).2, active := name :: s.active }

def leave (s : Session) (name : String) : Session :=
  { s with active := s.active.tail, loaded := name :: s.loaded }

theorem At.enter {s : Session} {path seen loaded : List String} (h : s.At path seen loaded)
    (name text : String) : (s.enter name text).At (name :: path) (seen ++ [name]) loaded := by
  refine ⟨congrArg (name :: ·) h.active, ?_, h.loaded⟩
  have size := h.size
  simpa [Session.enter, Sources.add, Sources.size] using size

theorem At.leave {s : Session} {path seen inner loaded : List String} {name : String}
    (h : s.At (name :: path) (seen ++ [name] ++ inner) loaded) :
    (s.leave name).At path (seen ++ name :: inner) (name :: loaded) := by
  refine ⟨by simp [Session.leave, h.active], ?_, congrArg (name :: ·) h.loaded⟩
  have size := h.size
  simpa [Session.leave] using size

theorem forM_cons_ok {i : Item} {is : List Item} {f : Item → Compile Unit} {s t : Session} :
    (i :: is).forM f s = .ok () t ↔ ∃ m, f i s = .ok () m ∧ is.forM f m = .ok () t :=
  bind_eq_ok.trans ⟨fun ⟨_, h⟩ => h, fun h => ⟨(), h⟩⟩

theorem unitOver_of_issues {name text : String} {s : Session}
    (issues : (Script.parse s.sources.size text).issues ≠ []) :
    unitOver lib targets inner name text s =
      .error (.issues (Script.parse s.sources.size text).issues)
        { s with sources := (s.sources.add name text).2 } := by
  let parsed := Script.parse s.sources.size text
  change (ite ((!parsed.issues.isEmpty) = true) _ _ : Compile Unit) _ = _
  rw [if_pos (by simpa [parsed] using issues)]
  rfl

theorem unitOver_of_quiet {name text : String} {s : Session}
    (quiet : (Script.parse s.sources.size text).issues = []) :
    unitOver lib targets inner name text s =
      ((Script.parse s.sources.size text).result.items.forM (step lib targets inner) >>=
        fun _ => modify (Session.leave · name) : Compile Unit) (s.enter name text) := by
  let parsed := Script.parse s.sources.size text
  change (ite ((!parsed.issues.isEmpty) = true) _ _ : Compile Unit) _ = _
  rw [if_neg (by simp [parsed, quiet])]
  rfl

theorem unitOver_ok {name text : String} {s t : Session} :
    unitOver lib targets inner name text s = .ok () t ↔
      (Script.parse s.sources.size text).issues = [] ∧
      ∃ m, (Script.parse s.sources.size text).result.items.forM (step lib targets inner)
        (s.enter name text) = .ok () m ∧ t = m.leave name := by
  by_cases quiet : (Script.parse s.sources.size text).issues = []
  · rw [unitOver_of_quiet quiet, bind_eq_ok]
    constructor
    · rintro ⟨_, m, run, ⟨⟩⟩
      exact ⟨quiet, m, run, rfl⟩
    · rintro ⟨_, m, run, rfl⟩
      exact ⟨(), m, run, rfl⟩
  · rw [unitOver_of_issues quiet]
    exact ⟨nofun, fun ⟨without, _⟩ => absurd without quiet⟩

theorem step_of_plain {i : Item} (plain : i.used? = none) :
    step lib targets inner i = item targets i := by
  unfold step
  split
  · rename_i kind
    simp [Item.used?, kind] at plain
  · rfl

theorem step_item_ok {i : Item} (plain : i.used? = none) {s t : Session} :
    step lib targets inner i s = .ok () t ↔
      ∃ q, s.program.item i targets = (.ok (), q) ∧ t = { s with program := q } := by
  rw [step_of_plain plain]
  unfold item
  split
  · rename_i q lowered
    simp [lowered, eq_comm]
  · rename_i f q lowered
    simp [lowered]

theorem step_of_use {i : Item} {name : String} (uses : i.used? = some name) :
    ∃ span, ∀ lib targets inner, step lib targets inner i = use lib inner name span := by
  unfold Item.used? at uses
  unfold step
  split at uses
  · cases uses
    exact ⟨_, fun _ _ _ => rfl⟩
  · cases uses

theorem step_use_ok {i : Item} {name : String} (uses : i.used? = some name) {s t : Session} :
    step lib targets inner i s = .ok () t ↔ name ∉ s.active ∧
      (name ∈ s.loaded ∧ t = s ∨ name ∉ s.loaded ∧
        ∃ text, lib.load name = .ok text ∧ inner name text s = .ok () t) := by
  obtain ⟨span, here⟩ := step_of_use uses
  rw [here]
  unfold use
  dsimp only
  change (ite (s.active.contains name = true) _ _ : Compile Unit) s = _ ↔ _
  split
  · rename_i active
    refine ⟨nofun, fun ⟨outside, _⟩ => ?_⟩
    exact absurd (List.contains_iff_mem.mp active) outside
  · rename_i active
    have outside : name ∉ s.active := fun inside => active (List.contains_iff_mem.mpr inside)
    change (ite (s.loaded.contains name = true) _ _ : Compile Unit) s = _ ↔ _
    split
    · rename_i loaded
      have known : name ∈ s.loaded := List.contains_iff_mem.mp loaded
      constructor
      · rintro ⟨⟩
        exact ⟨outside, .inl ⟨known, rfl⟩⟩
      · rintro ⟨_, ⟨_, rfl⟩ | ⟨fresh, _⟩⟩
        · rfl
        · exact absurd known fresh
    · rename_i loaded
      have fresh : name ∉ s.loaded := fun known => loaded (List.contains_iff_mem.mpr known)
      cases lib.load name with
      | ok text => simp [outside, fresh]
      | error p =>
        refine ⟨nofun, ?_⟩
        rintro ⟨_, ⟨known, _⟩ | ⟨_, text, load, _⟩⟩
        · exact absurd known fresh
        · cases load

variable {u : Units} {path seen loaded new loaded' : List String} {is trace : List Item}

theorem ofModules_load {modules : List (String × String)} {name text : String} :
    (Library.ofModules modules).load name = .ok text ↔ modules.lookup name = some text := by
  unfold Library.ofModules
  dsimp only
  split
  · rename_i found
    simp [found]
  · rename_i missing
    simp [missing]

/-- A run that succeeds takes the walk of a compilation and declares the items on it. -/
theorem loads_of_forM {s t : Session}
    (run : is.forM (step (.ofModules u.others) targets (unit (.ofModules u.others) targets n)) s =
      .ok () t)
    (here : s.At path seen loaded) : ∃ new loaded' trace,
      u.Loads path seen loaded is new loaded' trace ∧ t.At path (seen ++ new) loaded' ∧
      s.program.items? targets trace = some t.program := by
  induction n using Nat.strong_induction_on generalizing is s t path seen loaded with
  | _ n inside =>
    induction is generalizing s seen loaded with
    | nil =>
      cases run
      exact ⟨[], loaded, [], .done, by simpa using here, rfl⟩
    | cons i is later =>
      obtain ⟨m, head, tail⟩ := forM_cons_ok.mp run
      cases uses : i.used? with
      | none =>
        obtain ⟨q, lowered, rfl⟩ := (step_item_ok uses).mp head
        obtain ⟨new, loaded', trace, loads, there, declared⟩ :=
          later tail ⟨here.active, here.size, here.loaded⟩
        refine ⟨new, loaded', i :: trace, .item uses loads, there, ?_⟩
        simpa [Program.items?, lowered] using declared
      | some name =>
        obtain ⟨outside, known⟩ := (step_use_ok uses).mp head
        rw [here.active] at outside
        rcases known with ⟨known, rfl⟩ | ⟨fresh, text, load, entered⟩
        · rw [here.loaded] at known
          obtain ⟨new, loaded', trace, loads, after⟩ := later tail here
          exact ⟨new, loaded', trace, .again uses outside known loads, after⟩
        · rw [here.loaded] at fresh
          cases n with
          | zero => cases entered
          | succ k =>
            obtain ⟨quiet, m, body, rfl⟩ := unitOver_ok.mp entered
            rw [here.size] at quiet body
            obtain ⟨inner, mid, trace, enter, there, declared⟩ :=
              inside k (Nat.lt_succ_self k) body (here.enter name text)
            obtain ⟨new, loaded', trace', rest, after, declared'⟩ := later tail there.leave
            refine ⟨name :: inner ++ new, loaded', trace ++ trace',
              .first uses outside fresh (ofModules_load.mp load) quiet enter rest,
              by simpa using after, ?_⟩
            rw [Program.items?_append, show s.program.items? targets trace = _ from declared]
            exact declared'

/-- The walk of a compilation is run if its items can be declared. Units nest no deeper than there
are names, so the run does not end early. -/
theorem forM_of_loads (loads : u.Loads path seen loaded is new loaded' trace) {s : Session}
    {q : Program} (here : s.At path seen loaded) (fuel : path.length + n = u.others.length + 1)
    (once : path.Nodup) (names : path ⊆ u.root :: u.others.map Prod.fst)
    (declared : s.program.items? targets trace = some q) :
    ∃ t, is.forM (step (.ofModules u.others) targets (unit (.ofModules u.others) targets n)) s =
        .ok () t ∧
      t.At path (seen ++ new) loaded' ∧ t.program = q := by
  induction loads generalizing s q n with
  | done =>
    cases declared
    exact ⟨s, rfl, by simpa using here, rfl⟩
  | @item path seen loaded new loaded' i is trace plain _ ih =>
    rw [Program.items?] at declared
    split at declared
    · rename_i p lowered
      obtain ⟨t, run, after⟩ := ih (s := { s with program := p })
        ⟨here.active, here.size, here.loaded⟩ fuel once names declared
      exact ⟨t, forM_cons_ok.mpr ⟨_, (step_item_ok plain).mpr ⟨p, lowered, rfl⟩, run⟩, after⟩
    · cases declared
  | @again path seen loaded new loaded' i is trace name uses outside known _ ih =>
    obtain ⟨t, run, after⟩ := ih here fuel once names declared
    have stays : step (.ofModules u.others) targets (unit (.ofModules u.others) targets n) i s =
        .ok () s :=
      (step_use_ok uses).mpr ⟨here.active ▸ outside, .inl ⟨here.loaded ▸ known, rfl⟩⟩
    exact ⟨t, forM_cons_ok.mpr ⟨s, stays, run⟩, after⟩
  | @first path seen loaded inner mid new loaded' i is trace trace' name text uses outside fresh
      found quiet enter rest inside later =>
    rw [Program.items?_append] at declared
    obtain ⟨p, first, second⟩ := Option.bind_eq_some_iff.mp declared
    have named : name ∈ u.root :: u.others.map Prod.fst := by
      obtain ⟨before, after, same, _⟩ := List.lookup_eq_some_iff.mp found
      simp [same]
    have deeper : (name :: path).Nodup := List.nodup_cons.mpr ⟨outside, once⟩
    have within : name :: path ⊆ u.root :: u.others.map Prod.fst :=
      List.cons_subset.mpr ⟨named, names⟩
    have room : path.length + 1 ≤ u.others.length + 1 := by
      simpa using (List.subperm_of_subset deeper within).length_le
    obtain ⟨k, rfl⟩ : ∃ k, n = k + 1 := ⟨n - 1, by omega⟩
    obtain ⟨m, body, there, rfl⟩ := inside (n := k) (here.enter name text)
      (by simp only [List.length_cons]; omega) deeper within first
    obtain ⟨t, tail, after, same⟩ := later (s := m.leave name) there.leave fuel once names second
    have entered : step (.ofModules u.others) targets
        (unit (.ofModules u.others) targets (k + 1)) i s = .ok () (m.leave name) := by
      refine (step_use_ok uses).mpr ⟨here.active ▸ outside, .inr ⟨here.loaded ▸ fresh, text,
        ofModules_load.mpr found, unitOver_ok.mpr ?_⟩⟩
      rw [here.size]
      exact ⟨quiet, m, body, rfl⟩
    exact ⟨t, forM_cons_ok.mpr ⟨_, entered, tail⟩, by simpa using after, same⟩

/-! ## Depth -/

/-- On the same path, steps that do the same do so one after the other. -/
theorem forM_congr {f g : Item → Compile Unit} (same : ∀ i s, s.active = path → f i s = g i s)
    (keeps : ∀ i s t, s.active = path → g i s = .ok () t → t.active = path) (is : List Item)
    {s : Session} (here : s.active = path) : is.forM f s = is.forM g s := by
  induction is generalizing s with
  | nil => rfl
  | cons i is ih =>
    change EStateM.bind (f i) (fun _ => is.forM f) s = EStateM.bind (g i) (fun _ => is.forM g) s
    unfold EStateM.bind
    rw [same i s here]
    cases run : g i s with
    | ok _ t => exact ih (keeps i s t here run)
    | error stop t => rfl

/-- A unit that is done is no longer active, and the others still are. -/
def KeepsActive (inner : String → String → Compile Unit) : Prop :=
  ∀ name text s t, inner name text s = .ok () t → t.active = s.active

theorem step_ok_active (keeps : KeepsActive inner) {i : Item} {s t : Session}
    (run : step lib targets inner i s = .ok () t) : t.active = s.active := by
  cases uses : i.used? with
  | none =>
    obtain ⟨q, _, rfl⟩ := (step_item_ok uses).mp run
    rfl
  | some name =>
    obtain ⟨_, ⟨_, rfl⟩ | ⟨_, text, _, entered⟩⟩ := (step_use_ok uses).mp run
    · rfl
    · exact keeps name text s t entered

theorem forM_ok_active (keeps : KeepsActive inner) {is : List Item} {s t : Session}
    (run : is.forM (step lib targets inner) s = .ok () t) : t.active = s.active := by
  induction is generalizing s with
  | nil =>
    cases run
    rfl
  | cons i is later =>
    obtain ⟨m, head, tail⟩ := forM_cons_ok.mp run
    exact (later tail).trans (step_ok_active keeps head)

theorem unit_keepsActive (n : Nat) : KeepsActive (unit lib targets n) := by
  induction n with
  | zero =>
    intro name text s t run
    cases run
  | succ n ih =>
    intro name text s t run
    obtain ⟨_, m, body, rfl⟩ := unitOver_ok.mp run
    simp [leave, forM_ok_active ih body, enter]

theorem step_congr {i : Item} {s : Session}
    (same : ∀ used text, used ∉ s.active → lib.load used = .ok text →
      deeper used text s = inner used text s) :
    step lib targets deeper i s = step lib targets inner i s := by
  cases uses : i.used? with
  | none => rw [step_of_plain uses, step_of_plain uses]
  | some used =>
    obtain ⟨span, run⟩ := step_of_use uses
    rw [run, run]
    unfold use
    dsimp only
    change (ite (s.active.contains used = true) _ _ : Compile Unit) s =
      (ite (s.active.contains used = true) _ _ : Compile Unit) s
    split
    · rfl
    · rename_i outside
      change (ite (s.loaded.contains used = true) _ _ : Compile Unit) s =
        (ite (s.loaded.contains used = true) _ _ : Compile Unit) s
      split
      · rfl
      · cases load : lib.load used with
        | ok text => exact same used text (by simpa using outside) load
        | error p => rfl

/-- What is used deeper matters only for units that are there and are not active. -/
theorem unitOver_congr {name text : String} {s : Session}
    (keeps : KeepsActive inner)
    (same : ∀ used text t, t.active = name :: s.active → used ∉ t.active →
      lib.load used = .ok text → deeper used text t = inner used text t) :
    unitOver lib targets deeper name text s = unitOver lib targets inner name text s := by
  by_cases quiet : (Script.parse s.sources.size text).issues = []
  · have items : (Script.parse s.sources.size text).result.items.forM (step lib targets deeper)
        (s.enter name text) =
        (Script.parse s.sources.size text).result.items.forM (step lib targets inner)
          (s.enter name text) := by
      refine forM_congr (fun i t (here : t.active = name :: s.active) => ?_)
        (fun i t m here run => (step_ok_active keeps run).trans here) _ rfl
      exact step_congr fun used text outside load => same used text t here outside load
    rw [unitOver_of_quiet quiet, unitOver_of_quiet quiet]
    change EStateM.bind _ _ _ = EStateM.bind _ _ _
    unfold EStateM.bind
    rw [items]
  · rw [unitOver_of_issues quiet, unitOver_of_issues quiet]

/-- Active units have names of their own, so there are no more of them than names: at the depth
that is left there is always room, whatever would be done below it. -/
theorem iterate_unitOver (names : List String)
    (known : ∀ name text, lib.load name = .ok text → name ∈ names)
    (deeper : String → String → Compile Unit) (n : Nat) {name text : String} {s : Session}
    (once : (name :: s.active).Nodup) (within : name :: s.active ⊆ names)
    (room : names.length ≤ s.active.length + n) :
    (unitOver lib targets)^[n] deeper name text s = unit lib targets n name text s := by
  induction n generalizing name text s with
  | zero =>
    have fits := (List.subperm_of_subset once within).length_le
    simp only [List.length_cons] at fits
    omega
  | succ n ih =>
    rw [Function.iterate_succ_apply']
    refine unitOver_congr (unit_keepsActive n) fun used text t here outside load => ?_
    refine ih ?_ ?_ ?_
    · exact List.nodup_cons.mpr ⟨outside, here ▸ once⟩
    · exact List.cons_subset.mpr ⟨known used text load, here ▸ within⟩
    · rw [here, List.length_cons]
      omega

end Session

namespace Units

variable {u : Units}

theorem split_root (u : Units) : Split [u.root] [u.root] [] := ⟨by simp, by simp⟩

/-- The root runs if and only if the compilation has its walk from there. -/
theorem unit_root_ok_iff (u : Units) (targets : List Target) (p q : Program) :
    (∃ t, Session.unit (.ofModules u.others) targets (u.others.length + 1) u.root u.text
        { program := p } = .ok () t ∧ t.program = q) ↔
      (Script.parse 0 u.text).issues = [] ∧ ∃ new loaded trace,
        u.Loads [u.root] [u.root] [] (u.script 0 u.root) new loaded trace ∧
        p.items? targets trace = some q := by
  have entered : (Session.enter { program := p } u.root u.text).At [u.root] [u.root] [] :=
    ⟨rfl, rfl, rfl⟩
  rw [script_of_text u.text?_root]
  constructor
  · rintro ⟨t, run, rfl⟩
    obtain ⟨quiet, m, body, rfl⟩ := Session.unitOver_ok.mp run
    obtain ⟨new, loaded, trace, loads, _, declared⟩ := Session.loads_of_forM body entered
    exact ⟨quiet, new, loaded, trace, loads, declared⟩
  · rintro ⟨quiet, new, loaded, trace, loads, declared⟩
    obtain ⟨m, body, _, same⟩ := Session.forM_of_loads loads entered (n := u.others.length)
      (by simp [Nat.add_comm]) (by simp) (by simp) declared
    exact ⟨_, Session.unitOver_ok.mpr ⟨quiet, m, body, rfl⟩, same⟩

/-- A compilation takes its walk if every unit on it can be read and none uses itself. -/
theorem loads_iff {new : List String} {trace : List Item}
    (walk : u.Walk [u.root] (u.script 0 u.root) new trace) :
    ((Script.parse 0 u.text).issues = [] ∧
        ∃ loaded, u.Loads [u.root] [u.root] [] (u.script 0 u.root) new loaded trace) ↔
      u.Compilable (u.root :: new) := by
  have start : (u.root :: new).idxOf u.root = 0 := by simp
  constructor
  · rintro ⟨quiet, loaded, loads⟩
    obtain ⟨sorted, _, items⟩ := loads.sorted u.split_root (by simp) List.prefix_rfl trivial
    have whole : u.Sorted (u.root :: new) (u.root :: loaded) := by
      refine ⟨(loads.split u.split_root).apart u.root (by simp),
        ⟨u.text, u.text?_root, start ▸ quiet⟩, ?_, sorted⟩
      rintro b ⟨i, hi, uses⟩
      exact items i (start ▸ hi) b uses
    have reached {name : String} (h : u.Reachable (u.root :: new) name) :
        name ∈ u.root :: loaded := whole.closed (by simp) h
    exact ⟨fun _ h => whole.reads (reached h), fun _ h => whole.acyclic (reached h)⟩
  · intro sound
    obtain ⟨text, found, quiet⟩ := sound.reads u.root .refl
    obtain rfl : u.text = text := Option.some.inj (u.text?_root.symm.trans found)
    refine ⟨start ▸ quiet, ?_⟩
    exact walk.loads List.prefix_rfl sound u.split_root (by simp) .refl
      (by simp [Relation.ReflTransGen.refl, Reachable]) fun i hi => start ▸ hi

/-- From some program on, the root and all it uses are run as the walk says. -/
theorem unit_root_ok_iff_compilable {new : List String} {trace : List Item}
    (walk : u.Walk [u.root] (u.script 0 u.root) new trace) (targets : List Target)
    (p q : Program) :
    (∃ t, Session.unit (.ofModules u.others) targets (u.others.length + 1) u.root u.text
        { program := p } = .ok () t ∧ t.program = q) ↔
      u.Compilable (u.root :: new) ∧ p.items? targets trace = some q := by
  rw [unit_root_ok_iff, ← loads_iff walk]
  constructor
  · rintro ⟨quiet, new', loaded, trace', loads, declared⟩
    obtain ⟨rfl, rfl⟩ := walk.unique (loads.walk u.split_root (by simp))
    exact ⟨⟨quiet, loaded, loads⟩, declared⟩
  · rintro ⟨⟨quiet, loaded, loads⟩, declared⟩
    exact ⟨quiet, new, loaded, trace, loads, declared⟩

/-- A compilation ends: units are never used deeper than there are names, so its run does not depend
on what would be done below that. It takes the walk from its root. That enters the units that can be
reached, each once, and meets the items of each of them once. The compilation succeeds if and only
if all units that can be reached are there and have no issues, none of them uses itself, at once or
through others, and the items of the walk are declared one after the other without a failure. -/
theorem compile_ok_iff (u : Units) (options : Options) :
    (∀ (deeper : String → String → Compile Unit) (start : Program),
      (Session.unitOver (.ofModules u.others) options.targets)^[
          (Library.ofModules u.others).bound + 1] deeper u.root u.text { program := start } =
        Session.unit (.ofModules u.others) options.targets ((Library.ofModules u.others).bound + 1)
          u.root u.text { program := start }) ∧
    ∃ order trace,
    u.Tour order trace ∧ order.Nodup ∧ (∀ name, name ∈ order ↔ u.Reachable order name) ∧
    trace.Perm (order.flatMap (u.plainItems order)) ∧
    ∀ c, compile u.root u.text (.ofModules u.others) options = .ok c ↔
      u.Compilable order ∧ ∃ start program, Program.start = .ok start ∧
        start.items? options.targets trace = some program ∧
        c = ⟨options.targets.map fun t => (t, program.output t), program.signatures,
          options.header⟩ := by
  refine ⟨fun deeper start => Session.iterate_unitOver (u.root :: u.others.map Prod.fst)
    (fun name text load => ?_) deeper _ (List.nodup_singleton u.root)
    (List.cons_subset.mpr ⟨List.mem_cons_self, by simp⟩) ?_, ?_⟩
  · obtain ⟨before, after, same, _⟩ := List.lookup_eq_some_iff.mp (Session.ofModules_load.mp load)
    simp [same]
  · simp [Library.ofModules]
  obtain ⟨new, trace, walk⟩ := Walk.exists_walk u [u.root] (u.script 0 u.root)
  refine ⟨u.root :: new, trace, ⟨new, rfl, walk⟩, walk.nodup (by simp), walk.mem_iff_reachable,
    ?_, fun c => ?_⟩
  · have own : u.plainItems (u.root :: new) u.root =
        (u.script 0 u.root).filter (·.used?.isNone) := by simp [plainItems]
    rw [List.flatMap_cons, own]
    exact walk.perm List.prefix_rfl
  · unfold compile
    cases Program.start with
    | error f => simp
    | ok start =>
      have runs := unit_root_ok_iff_compilable walk options.targets start
      have bound : (Library.ofModules u.others).bound = u.others.length := rfl
      dsimp only
      rw [bound]
      cases run : Session.unit (.ofModules u.others) options.targets (u.others.length + 1) u.root
          u.text { program := start } with
      | error stop s =>
        refine ⟨nofun, ?_⟩
        rintro ⟨sound, _, program, ⟨⟩, declared, _⟩
        obtain ⟨t, ok, _⟩ := (runs program).mpr ⟨sound, declared⟩
        rw [run] at ok
        cases ok
      | ok _ s =>
        constructor
        · rintro ⟨⟩
          obtain ⟨sound, declared⟩ := (runs s.program).mp ⟨s, run, rfl⟩
          exact ⟨sound, start, s.program, rfl, declared, rfl⟩
        · rintro ⟨sound, _, program, ⟨⟩, declared, rfl⟩
          obtain ⟨t, ok, rfl⟩ := (runs program).mpr ⟨sound, declared⟩
          rw [run] at ok
          cases ok
          rfl

end Units
end Ember

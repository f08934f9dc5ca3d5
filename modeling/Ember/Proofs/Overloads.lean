import Ember.Function
import Ember.Proofs.Ends

/-!
# Which of several functions a call means

A candidate is best if it scores highest among those that accept the arguments, and no other with
that score was declared further in. A call means the best candidate if there is one alone. The order
in which candidates are found does not matter.
-/

set_option autoImplicit false

namespace Ember

namespace Candidate

/-- A candidate that none beats: by its score, or by its depth where scores are equal. -/
def IsBest (args : List Ty) (cs : List Candidate) (c : Candidate) : Prop :=
  ∃ s, c.function.score args = some s ∧ (∀ d ∈ cs, ∀ t, d.function.score args = some t → t ≤ s) ∧
    ∀ d ∈ cs, d.function.score args = some s → c.depth ≤ d.depth

variable {args : List Ty} {cs : List Candidate} {c : Candidate}

/-- Some of the candidates scores `s` at depth `n`, and none beats that. -/
structure Leads (args : List Ty) (cs : List Candidate) (s n : Nat) : Prop where
  attained : ∃ c ∈ cs, c.function.score args = some s ∧ c.depth = n
  highest : ∀ c ∈ cs, ∀ t, c.function.score args = some t → t ≤ s
  inmost : ∀ c ∈ cs, c.function.score args = some s → n ≤ c.depth

def level (args : List Ty) (s n : Nat) (c : Candidate) : Bool :=
  c.function.score args == some s && c.depth == n

theorem Leads.level_iff {s n : Nat} (leads : Leads args cs s n) (member : c ∈ cs) :
    level args s n c = true ↔ IsBest args cs c := by
  rw [level, Bool.and_eq_true, beq_iff_eq, beq_iff_eq]
  constructor
  · rintro ⟨score, rfl⟩
    exact ⟨s, score, leads.highest, leads.inmost⟩
  · rintro ⟨t, score, highest, inmost⟩
    obtain ⟨d, listed, own, rfl⟩ := leads.attained
    obtain rfl : t = s := le_antisymm (leads.highest c member t score) (highest d listed s own)
    exact ⟨score, le_antisymm (inmost d listed own) (leads.inmost c member score)⟩

end Candidate

/-! ## One pass -/

open Candidate

/-- What a ranking says of the candidates that were read. -/
inductive Ranking.After (args : List Ty) (cs : List Candidate) : Ranking → Prop
  | refused (all : ∀ c ∈ cs, c.function.score args = none) : After args cs ⟨none, []⟩
  | led {s : Nat} {c : Candidate} {ties : List Candidate} (leads : Leads args cs s c.depth)
      (several : ties ≠ [] → 2 ≤ ties.length)
      (best : cs.filter (level args s c.depth) = if ties.isEmpty then [c] else ties) :
      After args cs ⟨some (s, c), ties⟩

namespace Ranking.After

variable {args : List Ty} {cs : List Candidate} {r : Ranking} {c : Candidate} {s : Nat}

/-- A candidate that does better than all that were read leads. -/
theorem leads_new (score : c.function.score args = some s)
    (beaten : ∀ d ∈ cs, ∀ t, d.function.score args = some t → t < s ∨ t = s ∧ c.depth < d.depth) :
    Leads args (cs ++ [c]) s c.depth := by
  refine ⟨⟨c, by simp, score, rfl⟩, ?_, ?_⟩
  · refine List.forall_mem_append.mpr ⟨fun d before t accepts => ?_, ?_⟩
    · rcases beaten d before t accepts with less | ⟨rfl, _⟩
      · exact less.le
      · exact le_rfl
    · refine List.forall_mem_singleton.mpr fun t accepts => ?_
      exact (Option.some.inj (accepts.symm.trans score)).le
  · refine List.forall_mem_append.mpr ⟨fun d before accepts => ?_, by simp⟩
    rcases beaten d before s accepts with less | ⟨_, further⟩
    · exact absurd less (lt_irrefl s)
    · exact further.le

/-- The best so far leads on if the new candidate does not beat it. -/
theorem leads_append {n : Nat} (leads : Leads args cs s n)
    (below : ∀ t, c.function.score args = some t → t < s ∨ t = s ∧ n ≤ c.depth) :
    Leads args (cs ++ [c]) s n := by
  obtain ⟨d, listed, own⟩ := leads.attained
  refine ⟨⟨d, by simp [listed], own⟩, ?_, ?_⟩
  · refine List.forall_mem_append.mpr ⟨leads.highest, List.forall_mem_singleton.mpr ?_⟩
    intro t accepts
    rcases below t accepts with less | ⟨rfl, _⟩
    · exact less.le
    · exact le_rfl
  · refine List.forall_mem_append.mpr ⟨leads.inmost, List.forall_mem_singleton.mpr ?_⟩
    intro accepts
    rcases below s accepts with less | ⟨_, further⟩
    · exact absurd less (lt_irrefl s)
    · exact further

/-- What scores less, or lies further out, is not on the level of the best. -/
theorem level_eq_false {n : Nat} {d : Candidate}
    (below : ∀ t, d.function.score args = some t → t < s ∨ t = s ∧ n < d.depth) :
    level args s n d = false := by
  rw [Bool.eq_false_iff]
  intro same
  simp only [level, Bool.and_eq_true, beq_iff_eq] at same
  rcases below s same.1 with less | ⟨_, further⟩
  · exact lt_irrefl s less
  · exact further.ne' same.2

theorem alone (score : c.function.score args = some s)
    (beaten : ∀ d ∈ cs, ∀ t, d.function.score args = some t → t < s ∨ t = s ∧ c.depth < d.depth) :
    After args (cs ++ [c]) ⟨some (s, c), []⟩ := by
  refine .led (leads_new score beaten) (by simp) ?_
  have none_before : cs.filter (level args s c.depth) = [] := by
    rw [List.filter_eq_nil_iff]
    intro d member
    simp [level_eq_false (beaten d member)]
  rw [List.filter_append, none_before, List.filter_singleton]
  simp [level, score]

section

variable {ties : List Candidate} {other : Candidate} (leads : Leads args cs s other.depth)
  (several : ties ≠ [] → 2 ≤ ties.length)
  (best : cs.filter (level args s other.depth) = if ties.isEmpty then [other] else ties)

include leads best

include several in
/-- A candidate that the best so far beats changes nothing. -/
theorem stays
    (below : ∀ t, c.function.score args = some t → t < s ∨ t = s ∧ other.depth < c.depth) :
    After args (cs ++ [c]) ⟨some (s, other), ties⟩ := by
  refine .led (leads_append leads fun t accepts => ?_) several ?_
  · exact (below t accepts).imp_right fun further => ⟨further.1, further.2.le⟩
  · rw [List.filter_append, List.filter_singleton, level_eq_false below, best]
    simp

/-- A candidate that is as good as the best so far is listed with it. -/
theorem joins (score : c.function.score args = some s) (depth : c.depth = other.depth) :
    After args (cs ++ [c])
      ⟨some (s, other), (if ties.isEmpty then [other] else ties) ++ [c]⟩ := by
  refine .led (leads_append leads fun t accepts => .inr ?_) (fun _ => ?_) ?_
  · exact ⟨Option.some.inj (accepts.symm.trans score), depth.ge⟩
  · cases ties with
    | nil => simp
    | cons d ds => simp
  · rw [List.filter_append, List.filter_singleton, best]
    simp [level, score, depth]

end

/-- What is said of the candidates stays true when one more is read. -/
theorem read (h : r.After args cs) (c : Candidate) : (r.read args c).After args (cs ++ [c]) := by
  cases score : c.function.score args with
  | none =>
    have same : r.read args c = r := by simp [Ranking.read, score]
    rw [same]
    cases h with
    | refused all => exact .refused (by simpa [or_imp, forall_and, score] using all)
    | led leads several best => exact stays leads several best (by simp [score])
  | some s =>
    cases h with
    | refused all =>
      have first : Ranking.read args ⟨none, []⟩ c = ⟨some (s, c), []⟩ := by
        simp [Ranking.read, score]
      rw [first]
      exact alone score fun d member t accepts => by simp [all d member] at accepts
    | @led high other ties leads several best =>
      simp only [Ranking.read, score]
      split
      · rename_i beaten
        refine stays leads several best fun t accepts => ?_
        obtain rfl : s = t := Option.some.inj (score.symm.trans accepts)
        exact beaten
      · rename_i unbeaten
        split
        · rename_i equal
          obtain ⟨rfl, depth⟩ := equal
          exact joins leads best score depth
        · rename_i differs
          refine alone score fun d member t accepts => ?_
          have most := leads.highest d member t accepts
          rcases lt_trichotomy s high with less | same | more
          · exact absurd (.inl less) unbeaten
          · subst same
            rcases most.lt_or_eq with less | rfl
            · exact .inl less
            · have inmost := leads.inmost d member accepts
              exact .inr ⟨rfl, by omega⟩
          · exact .inl (most.trans_lt more)

/-- A whole pass. -/
theorem foldl (h : r.After args cs) (ds : List Candidate) :
    (ds.foldl (Ranking.read args) r).After args (cs ++ ds) := by
  induction ds generalizing cs r with
  | nil => simpa using h
  | cons d ds ih =>
    rw [List.foldl_cons, List.append_cons]
    exact ih (h.read d)

theorem pass (args : List Ty) (cs : List Candidate) :
    (cs.foldl (Ranking.read args) {}).After args cs := by
  have start : After args [] {} := .refused (by simp)
  simpa using start.foldl cs

end Ranking.After

namespace Candidate

variable {args : List Ty} {cs : List Candidate} {c : Candidate}

/-- Of candidates that accept the arguments, some is best. -/
theorem exists_isBest (member : c ∈ cs) {s : Nat} (score : c.function.score args = some s) :
    ∃ d ∈ cs, IsBest args cs d := by
  have after := Ranking.After.pass args cs
  generalize cs.foldl (Ranking.read args) {} = r at after
  cases after with
  | refused all => simp [all c member] at score
  | led leads _ _ =>
    obtain ⟨d, listed, own, depth⟩ := leads.attained
    exact ⟨d, listed, (leads.level_iff listed).mp (by simp [level, own, depth])⟩

/-- A function that a call means is one of the candidates, and accepts the arguments. -/
theorem accepts_of_best {s : Nat}
    (found : cs.foldl (Ranking.read args) {} = ⟨some (s, c), []⟩) :
    c ∈ cs ∧ c.function.score args = some s := by
  have after := Ranking.After.pass args cs
  rw [found] at after
  cases after with
  | led leads _ best =>
    have kept : c ∈ cs.filter (level args s c.depth) := by simp [best]
    obtain ⟨member, same⟩ := List.mem_filter.mp kept
    exact ⟨member, by simpa [level] using same⟩

theorem isBest_perm {cs' : List Candidate} (same : cs.Perm cs') :
    IsBest args cs' c ↔ IsBest args cs c := by
  simp only [IsBest, same.mem_iff]

end Candidate

inductive Answer where
  | chosen (f : Function)
  | notDefined
  | noOverload
  | ambiguous
  /-- A failure that has nothing to do with candidates. -/
  | unrelated

def Answer.of : Except Failure Function → Answer
  | .ok f => .chosen f
  | .error e =>
    match e.what with
    | .problem (.notDefined _) => .notDefined
    | .problem (.noOverload _ _ _) => .noOverload
    | .problem (.ambiguous _ _ _) => .ambiguous
    | _ => .unrelated

namespace Answer

open Candidate

def ofBest : List Candidate → Answer
  | [] => .noOverload
  | [c] => .chosen c.function
  | _ => .ambiguous

variable {name : String} {cs : List Candidate} {args : List Ty}

theorem of_eq_chosen {r : Except Failure Function} {f : Function} :
    Answer.of r = .chosen f ↔ r = .ok f := by
  unfold Answer.of
  constructor
  · split
    · simp
    · split <;> simp
  · rintro rfl
    rfl

theorem ofBest_eq_chosen {bs : List Candidate} {f : Function} :
    ofBest bs = .chosen f ↔ ∃ c, bs = [c] ∧ c.function = f := by
  rcases bs with _ | ⟨c, _ | ⟨d, rest⟩⟩ <;> simp [ofBest]

theorem ofBest_eq_ambiguous {bs : List Candidate} : ofBest bs = .ambiguous ↔ 2 ≤ bs.length := by
  rcases bs with _ | ⟨c, _ | ⟨d, rest⟩⟩ <;> simp [ofBest]

theorem ofBest_eq_noOverload {bs : List Candidate} : ofBest bs = .noOverload ↔ bs = [] := by
  rcases bs with _ | ⟨c, _ | ⟨d, rest⟩⟩ <;> simp [ofBest]

theorem ofBest_perm {as bs : List Candidate} (same : as.Perm bs) : ofBest as = ofBest bs := by
  rcases as with _ | ⟨a, _ | ⟨a', as⟩⟩
  · rw [same.nil_eq]
  · rw [List.singleton_perm.mp same]
  · exact (ofBest_eq_ambiguous.mpr (by simp)).trans
      (ofBest_eq_ambiguous.mpr (by simp [← same.length_eq])).symm

open scoped Classical in
theorem of_resolve_eq (name : String) (cs : List Candidate) (args : List Ty) :
    Answer.of (resolve name cs args) =
      if cs.isEmpty then .notDefined
      else ofBest (cs.filter fun c => decide (IsBest args cs c)) := by
  have after := Ranking.After.pass args cs
  unfold resolve
  dsimp only
  split
  · rfl
  generalize cs.foldl (Ranking.read args) {} = r at after ⊢
  cases after with
  | refused all =>
    have no_best : cs.filter (fun c => decide (IsBest args cs c)) = [] := by
      rw [List.filter_eq_nil_iff]
      intro c member best
      obtain ⟨s, own, _⟩ : IsBest args cs c := by simpa using best
      cases (all c member).symm.trans own
    rw [no_best]
    rfl
  | @led s c ties leads several best =>
    have same : cs.filter (fun c => decide (IsBest args cs c)) =
        if ties.isEmpty then [c] else ties := by
      rw [← best]
      refine List.filter_congr fun d member => ?_
      rw [Bool.eq_iff_iff, decide_eq_true_iff, leads.level_iff member]
    rw [same]
    rcases ties with _ | ⟨d, _ | ⟨e, rest⟩⟩
    · rfl
    · simp at several
    · rfl

theorem resolve_eq_ok_iff {f : Function} :
    resolve name cs args = .ok f ↔ ∃ before c after, cs = before ++ c :: after ∧
      c.function = f ∧ IsBest args cs c ∧ ∀ d ∈ before ++ after, ¬ IsBest args cs d := by
  classical
  rw [← of_eq_chosen, of_resolve_eq]
  constructor
  · intro chosen
    split at chosen
    · cases chosen
    · obtain ⟨c, alone, function⟩ := ofBest_eq_chosen.mp chosen
      obtain ⟨before, after, parts, worse, own, none_left⟩ := List.filter_eq_cons_iff.mp alone
      rw [List.filter_eq_nil_iff] at none_left
      refine ⟨before, c, after, parts, function, by simpa using own, ?_⟩
      simpa using List.forall_mem_append.mpr ⟨worse, none_left⟩
  · rintro ⟨before, c, after, parts, function, own, worse⟩
    obtain ⟨left, right⟩ := List.forall_mem_append.mp worse
    rw [if_neg (by simp [parts]), ofBest_eq_chosen]
    refine ⟨c, ?_, function⟩
    refine List.filter_eq_cons_iff.mpr ⟨before, after, parts, ?_, by simpa using own, ?_⟩
    · simpa using left
    · simpa using right

theorem ambiguous_iff : Answer.of (resolve name cs args) = .ambiguous ↔
    ∃ before c between d after, cs = before ++ c :: (between ++ d :: after) ∧
      IsBest args cs c ∧ IsBest args cs d := by
  classical
  rw [of_resolve_eq]
  constructor
  · intro several
    split at several
    · cases several
    · have two := ofBest_eq_ambiguous.mp several
      rcases found : cs.filter fun c => decide (IsBest args cs c) with _ | ⟨c, _ | ⟨d, more⟩⟩
      · simp [found] at two
      · simp [found] at two
      · obtain ⟨before, rest, parts, _, first, found⟩ := List.filter_eq_cons_iff.mp found
        obtain ⟨between, after, rfl, _, second, _⟩ := List.filter_eq_cons_iff.mp found
        exact ⟨before, c, between, d, after, parts, by simpa using first, by simpa using second⟩
  · rintro ⟨before, c, between, d, after, parts, first, second⟩
    have both : [c, d].Sublist cs := by
      rw [parts]
      exact .trans (.cons_cons c (.trans (.cons_cons d (List.nil_sublist after))
        (List.sublist_append_right between _))) (List.sublist_append_right before _)
    have kept := both.filter fun c => decide (IsBest args cs c)
    rw [if_neg (by simp [parts]), ofBest_eq_ambiguous]
    simpa [first, second] using kept.length_le

theorem noOverload_iff : Answer.of (resolve name cs args) = .noOverload ↔
    cs ≠ [] ∧ ∀ c ∈ cs, c.function.score args = none := by
  classical
  rw [of_resolve_eq]
  constructor
  · intro refused
    split at refused
    · cases refused
    · rename_i nonempty
      have none_best := List.filter_eq_nil_iff.mp (ofBest_eq_noOverload.mp refused)
      refine ⟨by simpa using nonempty, fun c member => ?_⟩
      by_contra accepts
      obtain ⟨s, score⟩ := Option.ne_none_iff_exists'.mp accepts
      obtain ⟨d, listed, best⟩ := exists_isBest member score
      exact none_best d listed (by simpa using best)
  · rintro ⟨nonempty, refused⟩
    rw [if_neg (by simpa using nonempty), ofBest_eq_noOverload, List.filter_eq_nil_iff]
    intro c member best
    obtain ⟨s, own, _⟩ : IsBest args cs c := by simpa using best
    cases (refused c member).symm.trans own

theorem of_resolve_perm {cs' : List Candidate} (same : cs.Perm cs') :
    Answer.of (resolve name cs' args) = Answer.of (resolve name cs args) := by
  classical
  rw [of_resolve_eq, of_resolve_eq, same.isEmpty_eq]
  simp only [isBest_perm same]
  rw [ofBest_perm (same.filter _)]

end Answer

open Candidate in
/-- A call means the only candidate that is best. It is ambiguous if several are, and meets no
candidate if none of those there are accepts the arguments. In another order of the candidates the
same function is chosen, or the answer is of the same kind. -/
theorem resolve_isBest (name : String) (cs : List Candidate) (args : List Ty) :
    (∀ f, resolve name cs args = .ok f ↔ ∃ before c after, cs = before ++ c :: after ∧
      c.function = f ∧ IsBest args cs c ∧ ∀ d ∈ before ++ after, ¬ IsBest args cs d) ∧
    (Answer.of (resolve name cs args) = .ambiguous ↔ ∃ before c between d after,
      cs = before ++ c :: (between ++ d :: after) ∧ IsBest args cs c ∧ IsBest args cs d) ∧
    (Answer.of (resolve name cs args) = .noOverload ↔
      cs ≠ [] ∧ ∀ c ∈ cs, c.function.score args = none) ∧
    ∀ cs', cs.Perm cs' → Answer.of (resolve name cs' args) = Answer.of (resolve name cs args) :=
  ⟨fun _ => Answer.resolve_eq_ok_iff, Answer.ambiguous_iff, Answer.noOverload_iff,
    fun _ => Answer.of_resolve_perm⟩

end Ember

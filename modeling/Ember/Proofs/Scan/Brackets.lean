import Ember.Proofs.Scan.Order

/-!
# Pairs of brackets in a tree of tokens

Every level of the stack keeps its pairs sound, and the tree is what the stack leaves. That a group
is reported only if its closer is missing needs one thing more: no two groups open at the same
place. This comes from the order of tokens, for no opener is a marked operator.
-/

set_option autoImplicit false

namespace Ember

namespace Node

mutual

theorem openers_sublist : ∀ n : Node, (n.groups.map Group.opener).Sublist n.tokens
  | .token t => by simp [groups]
  | .group ⟨opener, closer, contents⟩ => by
    have inside := openersOfList_sublist contents
    rw [groups, tokens, List.map_cons, List.cons_append]
    exact (inside.trans (List.sublist_append_left _ _)).cons_cons opener

theorem openersOfList_sublist :
    ∀ ns : List Node, ((groupsOfList ns).map Group.opener).Sublist (tokensOfList ns)
  | [] => by simp [groupsOfList]
  | n :: ns => by
    rw [groupsOfList, tokensOfList, List.map_append]
    exact (openers_sublist n).append (openersOfList_sublist ns)

end

end Node

theorem Group.Sound.opener_plain {issues : Array Issue} {g : Group} (h : g.Sound issues) :
    g.opener.kind.isMarked = false := by
  have matched := h.matched
  cases kind : g.opener.kind <;> simp_all [TokenKind.closing?, TokenKind.isMarked]

/-- The openers of sound pairs are in the text. -/
theorem Matched.openers_written {issues : Array Issue} {ns : List Node} (level : Matched issues ns) :
    ((Node.groupsOfList ns).map fun g => g.opener.shown).Sublist (Node.written ns) := by
  have real : ((Node.groupsOfList ns).map Group.opener).filter (!·.isVirtual) =
      (Node.groupsOfList ns).map Group.opener := by
    simp only [List.filter_eq_self, List.forall_mem_map]
    intro g member
    simp [(level.groups g member).real]
  have sub := ((Node.openersOfList_sublist ns).filter (!·.isVirtual)).map Token.shown
  rwa [real, ← Node.written_eq, List.map_map] at sub

/-- No two pairs open at the same place. -/
theorem Matched.opener_span_inj {issues : Array Issue} {ns : List Node} {stop : Nat}
    (level : Matched issues ns) (placed : Placed stop (Node.written ns)) {g h : Group}
    (left : g ∈ Node.groupsOfList ns) (right : h ∈ Node.groupsOfList ns)
    (same : g.opener.span = h.opener.span) : g = h := by
  have apart : ((Node.groupsOfList ns).map fun g => g.opener.span).Nodup := by
    have plain := List.pairwise_map.mp (placed.plain.sublist level.openers_written)
    refine List.pairwise_map.mpr (plain.imp_of_mem ?_)
    intro e f first second order same
    have inside := placed.inside _ (level.openers_written.subset (List.mem_map_of_mem first))
    simp only [Token.shown_span, Token.shown_isMarked] at order inside
    have after := order (level.groups f second).opener_plain
    rw [← same] at after
    omega
  exact List.inj_on_of_nodup_map apart left right same

namespace TokenTree

/-- All that the stack keeps holds of the tree it leaves. -/
theorem ofText_level (chunk : Nat) (text : String) :
    Matched (ofText chunk text).2.toArray (ofText chunk text).1.nodes ∧
      Placed (byteLength text.toList) (Node.written (ofText chunk text).1.nodes) ∧
      ∀ i ∈ (ofText chunk text).2, i.code.IsUnclosed →
        ∃ g ∈ Node.groupsOfList (ofText chunk text).1.nodes,
          g.closer.isVirtual = true ∧ g.opener.span = i.span := by
  obtain ⟨s, _, ordered, written, _⟩ := ofText_ordered chunk text
  obtain ⟨_, _, s', _, adds, empty, _, nodes, issues⟩ := ofText_spec chunk text
  rw [realTokens, tokens, ← Node.written_eq] at written
  refine ⟨?_, written ▸ ordered.placed, fun i member unclosed => ?_⟩
  · rw [nodes, issues]
    exact adds.sound.root
  · rw [issues, Array.mem_toList_iff] at member
    obtain ⟨g, here | ⟨f, inside, _⟩, missing⟩ := adds.sound.reports i member unclosed
    · exact ⟨g, nodes ▸ here, missing⟩
    · simp [empty] at inside

/-- Every pair of brackets matches; its closer is missing exactly if its opener is reported; no
bracket stands alone; and type arguments are closed and hold only what such a list may hold. -/
theorem groups_balanced (chunk : Nat) (text : String) :
    (∀ g ∈ Node.groupsOfList (ofText chunk text).1.nodes,
      g.opener.kind.closing? = some g.closer.kind ∧
      (g.closer.isVirtual = true ↔ ∃ i ∈ (ofText chunk text).2,
        (i.code = .mismatchedOpeningParen ∨ i.code = .unterminatedSourceBlock) ∧
          i.span = g.opener.span) ∧
      (g.opener.kind = .langle → g.closer.isVirtual = false ∧ ∀ t, Node.token t ∈ g.contents →
        t.kind ∈ [.ident, .int, .comma, .colon, .op .pipe])) ∧
    ∀ t ∈ Node.leavesOfList (ofText chunk text).1.nodes,
      t.kind.isOpenBracket = false ∧ t.kind.isCloseBracket = false := by
  obtain ⟨level, placed, reports⟩ := ofText_level chunk text
  refine ⟨fun g member => ?_, level.leaves⟩
  have sound := level.groups g member
  refine ⟨sound.matched, ⟨fun missing => ?_, ?_⟩, fun angle => ⟨sound.closed angle, ?_⟩⟩
  · obtain ⟨i, inside, unclosed, place⟩ := sound.reported missing
    exact ⟨i, by simpa using inside, unclosed, place⟩
  · rintro ⟨i, inside, unclosed, place⟩
    obtain ⟨h, other, missing, place'⟩ := reports i inside unclosed
    obtain rfl := level.opener_span_inj placed member other (place.symm.trans place'.symm)
    exact missing
  · intro t inside
    have allowed := sound.arguments angle t inside
    unfold Scan.allowedInTypeArgs at allowed
    split at allowed <;> simp_all

/-- The bracket stays open, and the parenthesis around it is closed. -/
theorem groups_balanced_nested : ∃ g ∈ Node.groupsOfList (ofText 0 "f<a>([x)").1.nodes,
    g.closer.isVirtual = true ∧ ∃ i ∈ (ofText 0 "f<a>([x)").2,
      (i.code = .mismatchedOpeningParen ∨ i.code = .unterminatedSourceBlock) ∧
        i.span = g.opener.span := by
  have found : ∃ g ∈ Node.groupsOfList (ofText 0 "f<a>([x)").1.nodes,
      g.closer.isVirtual = true := by decide +kernel
  obtain ⟨g, member, missing⟩ := found
  exact ⟨g, member, missing, ((groups_balanced 0 _).1 g member).2.1.mp missing⟩

end TokenTree
end Ember

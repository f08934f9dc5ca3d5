import Ember.Proofs.Placeholders.Rules

/-!
# Without an issue every node is read

A rule that reports nothing has passed over no node, and what lies in a group is read to its end.
-/

set_option autoImplicit false

namespace Ember

/-- If the rules raise no issue for a tree of tokens, they have read it to its end, and at no depth
was a node skipped or left when the rule for its group ended. -/
theorem Script.parser_reads_all (tree : TokenTree) (names : NameTable) (lexical : Array Issue)
    (quiet : (Script.parser tree.grammar
      { Stream.ofTree tree with names, issues := lexical }).2.issues = lexical) :
    (Script.parser tree.grammar { Stream.ofTree tree with names, issues := lexical }).2.rest = [] ∧
    (Script.parser tree.grammar
      { Stream.ofTree tree with names, issues := lexical }).2.unread = #[] := by
  have drains := Grammar.scriptItems_drains
    (Grammar.ofDepth_reading (tree.tokens.length + 1)) tree.nodes.length
  exact drains.quiet { Stream.ofTree tree with names, issues := lexical } (Nat.le_refl _)
    (congrArg Array.size quiet)

/-- A function with groups inside of groups. -/
theorem Script.parser_reads_all_nested :
    (Script.parser (TokenTree.ofText 0 "fn f(a: [i32; 2]) \x7b a[0] \x7d").1.grammar
      { Stream.ofTree (TokenTree.ofText 0 "fn f(a: [i32; 2]) \x7b a[0] \x7d").1 with
        names := {}, issues := #[] }).2.issues = #[] ∧
    (Script.parser (TokenTree.ofText 0 "fn f(a: [i32; 2]) \x7b a[0] \x7d").1.grammar
      { Stream.ofTree (TokenTree.ofText 0 "fn f(a: [i32; 2]) \x7b a[0] \x7d").1 with
        names := {}, issues := #[] }).2.unread = #[] := by
  have quiet : (Script.parser (TokenTree.ofText 0 "fn f(a: [i32; 2]) \x7b a[0] \x7d").1.grammar
      { Stream.ofTree (TokenTree.ofText 0 "fn f(a: [i32; 2]) \x7b a[0] \x7d").1 with
        names := {}, issues := #[] }).2.issues = #[] := by decide +kernel
  exact ⟨quiet, (parser_reads_all _ {} #[] quiet).2⟩

end Ember

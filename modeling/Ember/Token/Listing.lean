import Ember.Text.Quoted
import Ember.Token.Basic

/-!
# Listings of tokens

A tree of tokens as an indented list, one token a line.
-/
set_option autoImplicit false

namespace Ember

def Token.listing (depth : Nat) (t : Token) : String :=
  let shown := !t.text.isEmpty && !t.kind.isOpenBracket && !t.kind.isCloseBracket
  "".pushn ' ' (2 * depth) ++ t.kind.name ++ " " ++ t.span.text ++
    (if shown then " " ++ Text.quoted t.text else "") ++
    (if t.isVirtual then " (virtual)" else "") ++ "\n"

mutual

def Node.listing (depth : Nat) : Node → String
  | .token t => t.listing depth
  | .group ⟨opener, closer, contents⟩ =>
    opener.listing depth ++ Node.listingOfList (depth + 1) contents ++ closer.listing depth

def Node.listingOfList (depth : Nat) : List Node → String
  | [] => ""
  | n :: ns => n.listing depth ++ Node.listingOfList depth ns

end

def TokenTree.listing (t : TokenTree) : String := Node.listingOfList 0 t.nodes

end Ember

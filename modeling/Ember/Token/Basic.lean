import Ember.Span
import Ember.Token.Kind

/-!
# Tokens, and tokens nested by their brackets

A group holds an opening bracket, what lies between, and a closing bracket. A group that the text
never closes has a virtual closer, which is empty and stands where the closer was missed.
-/
set_option autoImplicit false

namespace Ember

/-- A token with the text it covers. `glued` says that nothing separates it from the token before;
`isVirtual` that it is not in the text. -/
structure Token where
  kind : TokenKind
  span : Span
  text : String := ""
  glued : Bool := false
  isVirtual : Bool := false
  deriving DecidableEq, Inhabited

def Token.missing (kind : TokenKind) (span : Span) : Token :=
  { kind, span, isVirtual := true }

mutual

inductive Node where
  | token (t : Token)
  | group (g : Group)

structure Group where
  opener : Token
  closer : Token
  contents : List Node

end

instance : Inhabited Node := ⟨.token default⟩

namespace Group

def span (g : Group) : Span := g.opener.span.merge g.closer.span

/-- Closed by the right bracket, and by one that is in the text. -/
def isBalanced (g : Group) : Bool :=
  !g.closer.isVirtual && g.opener.kind.closing? == some g.closer.kind

def innerSpan (g : Group) : Span :=
  ⟨g.opener.span.chunk, g.opener.span.stop, max g.closer.span.start g.opener.span.stop⟩

end Group

namespace Node

def first : Node → Token
  | .token t => t
  | .group g => g.opener

def kind (n : Node) : TokenKind := n.first.kind

def span : Node → Span
  | .token t => t.span
  | .group g => g.span

mutual

/-- Every token: an opener, then the contents, then the closer. -/
def tokens : Node → List Token
  | .token t => [t]
  | .group ⟨opener, closer, contents⟩ => opener :: tokensOfList contents ++ [closer]

def tokensOfList : List Node → List Token
  | [] => []
  | n :: ns => n.tokens ++ tokensOfList ns

end

end Node

structure TokenTree where
  nodes : List Node
  stop : Span
  deriving Inhabited

def TokenTree.tokens (t : TokenTree) : List Token := Node.tokensOfList t.nodes

end Ember

import Ember.Issue
import Ember.NameTable
import Ember.Syntax.Basic
import Ember.Token.Basic

/-!
# Reading one level of a tree of tokens

A stream sees the nodes of one level only. What lies in a group is read by a stream of its own,
which ends at the closing bracket, so nothing inside can run past it. Issues and names are handed on
between the streams of one text, and so is what no rule has read: nodes that were skipped, and nodes
that were still ahead when the rule for their group ended.
-/
set_option autoImplicit false

namespace Ember

structure Stream where
  /-- What is still to be read. -/
  rest : List Node
  /-- How many nodes were read. -/
  pos : Nat := 0
  /-- The place where this level ends. -/
  stop : Span
  /-- The span of the node that was read last. -/
  last : Span
  issues : Array Issue := #[]
  /-- The names met so far. -/
  names : NameTable := {}
  /-- The nodes that no rule has read. -/
  unread : Array Node := #[]
  deriving Inhabited

abbrev Parser := StateM Stream

namespace Stream

def ofTree (t : TokenTree) : Stream :=
  let start := match t.nodes with
    | n :: _ => n.span.start
    | [] => t.stop.start
  { rest := t.nodes, stop := t.stop, last := Span.point t.stop.chunk start }

def atEnd (s : Stream) : Bool := s.rest.isEmpty

def peek? (s : Stream) : Option Node := s.rest.head?

/-- The kind of the next node if it is a single token. -/
def kind? (s : Stream) : Option TokenKind :=
  match s.rest with
  | .token t :: _ => some t.kind
  | _ => none

/-- The kind of the next node, a group counting as its opener. -/
def anyKind? (s : Stream) : Option TokenKind := s.peek?.map Node.kind

def atToken (s : Stream) (kind : TokenKind) : Bool := s.kind? == some kind

def atGroup (s : Stream) (opener : TokenKind) : Bool :=
  match s.rest with
  | .group g :: _ => g.opener.kind == opener
  | _ => false

def atAny (s : Stream) (set : TokenKind → Bool) : Bool := (s.anyKind?.map set).getD false

/-- The place just before the next node, or the end of this level. -/
def here (s : Stream) : Span :=
  match s.rest with
  | n :: _ => Span.point n.span.chunk n.span.start
  | [] => s.stop

/-- From a span up to the node that was read last. -/
def spanFrom (s : Stream) (start : Span) : Span := start.merge s.last

def advance (s : Stream) (n : Node) (rest : List Node) : Stream :=
  { s with rest, pos := s.pos + 1, last := n.span }

/-- Reads on through `rest` up to a node whose kind is in the set. -/
def skip (set : TokenKind → Bool) : List Node → Stream → Stream
  | [], s => s
  | n :: ns, s =>
    if set n.kind then s else skip set ns { s.advance n ns with unread := s.unread.push n }

end Stream

namespace Parser

def look {α : Type} (f : Stream → α) : Parser α := fun s => (f s, s)

def raise (code : IssueCode) (span : Span) : Parser Unit := fun s =>
  ((), { s with issues := s.issues.push ⟨code, span⟩ })

def missing (code : IssueCode) : Parser Span := do
  let here ← look Stream.here
  raise code here
  return here

def next : Parser (Option Node) := fun s =>
  match s.rest with
  | n :: ns => (some n, s.advance n ns)
  | [] => (none, s)

def acceptAny (set : TokenKind → Bool) : Parser (Option Token) := fun s =>
  match s.rest with
  | .token t :: ns => if set t.kind then (some t, s.advance (.token t) ns) else (none, s)
  | _ => (none, s)

def accept (kind : TokenKind) : Parser (Option Token) := acceptAny (· == kind)

/-- Reads a token of a kind. If it is not there, reports that and gives a virtual one. -/
def expect (kind : TokenKind) (code : IssueCode) : Parser Token := do
  match ← accept kind with
  | some t => return t
  | none => return Token.missing kind (← missing code)

def acceptGroup (opener : TokenKind) : Parser (Option Group) := fun s =>
  match s.rest with
  | .group g :: ns => if g.opener.kind == opener then (some g, s.advance (.group g) ns) else (none, s)
  | _ => (none, s)

def skipUntil (set : TokenKind → Bool) : Parser Unit := fun s => ((), Stream.skip set s.rest s)

/-- Reports the next node if there is one, and skips all that is left. -/
def finish : Parser Unit := fun s =>
  match s.rest with
  | [] => ((), s)
  | n :: ns =>
    ((), { s with
      rest := [], pos := s.pos + (ns.length + 1),
      issues := s.issues.push ⟨.unexpectedToken, n.span⟩
      unread := s.unread ++ (n :: ns) })

/-- The name that a token holds after a sign of `sign` characters. -/
def identOf (t : Token) (sign : Nat) : Parser Ident := fun s =>
  let name := String.ofList (t.text.toList.drop sign)
  (⟨name, { t.span with start := min (t.span.start + sign) t.span.stop }⟩,
    { s with names := s.names.add name })

/-- Reads a name. A reserved keyword is taken for one and reported; if nothing fits, that is
reported, and the name is empty. -/
def ident (code : IssueCode) : Parser Ident := do
  match ← accept .ident with
  | some t => identOf t 0
  | none =>
    match ← acceptAny TokenKind.isReserved with
    | some t =>
      raise .reservedKeyword t.span
      identOf t 0
    | none => return ⟨"", ← missing code⟩

/-- Runs a parser on the contents of a group. What it leaves there stays unread. -/
def inside {α : Type} (g : Group) (p : Parser α) : Parser α := fun s =>
  let r := p
    { rest := g.contents
      stop := Span.point g.closer.span.chunk g.closer.span.start
      last := g.opener.span
      issues := s.issues
      names := s.names
      unread := s.unread }
  (r.1, { s with
    issues := r.2.issues, names := r.2.names, unread := r.2.unread ++ r.2.rest })

/-- After an item of a list: a comma or the end. If the item stopped early, that is reported and
the rest of it is skipped. -/
def separator (before : Nat) : Parser Unit := do
  if ← look Stream.atEnd then return
  match ← accept .comma with
  | some _ => return
  | none =>
    if (← look Stream.pos) != before then
      let _ ← missing .expectedComma
    skipUntil (· == .comma)
    let _ ← accept .comma

/-- Items between commas, and whether `..` ended them. Each round reads at least one node, so as
many rounds as there are nodes are enough. -/
def items {α : Type} (rest : Bool) (item : Parser α) : Nat → Parser (List α × Bool)
  | 0 => return ([], false)
  | rounds + 1 => do
    if ← look Stream.atEnd then return ([], false)
    match ← accept .dotDot with
    | some dots =>
      if rest then
        let _ ← accept .comma
        finish
        return ([], true)
      else
        raise .restNotAllowed dots.span
        let _ ← accept .comma
        items rest item rounds
    | none =>
      let before ← look Stream.pos
      let a ← item
      separator before
      let (as, dots) ← items rest item rounds
      return (a :: as, dots)

/-- The list of items that a group holds. A comma at its end is fine, and so is `..` at its end if
`rest` says so; `empty` is reported for a list with neither items nor `..`. -/
def commaList {α : Type} (g : Group) (empty : Option IssueCode) (rest : Bool) (item : Parser α) :
    Parser (List α × Bool) :=
  inside g do
    let (as, dots) ← items rest item g.contents.length
    match empty with
    | some code =>
      if as.isEmpty && !dots then
        let _ ← missing code
    | none => pure ()
    return (as, dots)

end Parser
end Ember

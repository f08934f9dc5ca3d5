import Ember.Issue
import Ember.Lexeme
import Ember.Source
import Ember.Text.Escape
import Ember.Token.Basic

/-!
# From a text to its tree of tokens

One pass over the text.

Open brackets stand in a stack of frames, the innermost first. Two kinds of frame are special. A
*candidate* is a `<` joined to a name: it closes as a group of type arguments, or falls back to the
plain operator when something turns up that such a list cannot hold. A *source* frame holds foreign
text, which is not split into tokens; it ends at the brace that closes it, and `$` with a brace
opens an ordinary group inside it.

Scanning never fails. What is wrong is listed as an issue, and every character but blanks and
comments goes into a token, or into the span of an issue that drops it.
-/
set_option autoImplicit false

namespace Ember

inductive FrameKind where
  | group
  | candidate
  /-- Foreign text with `depth` braces open in it. -/
  | source (depth : Nat)
  deriving DecidableEq

structure Frame where
  kind : FrameKind
  opener : Token
  contents : Array Node := #[]

namespace Frame

def append (f : Frame) (nodes : Array Node) : Frame := { f with contents := f.contents ++ nodes }

def isCandidate (f : Frame) : Bool := f.kind == .candidate

def close (f : Frame) (closer : Token) : Node := .group ⟨f.opener, closer, f.contents.toList⟩

/-- What becomes of a frame that is never closed: a candidate was the plain operator all along, any
other frame gets a virtual closer and is reported. -/
def abandon (f : Frame) (place : Span) : Array Node × Array Issue :=
  match f.kind with
  | .candidate => (#[.token { f.opener with kind := .op .lt }] ++ f.contents, #[])
  | .group =>
    (#[f.close (Token.missing (f.opener.kind.closing?.getD .rparen) place)],
      #[⟨.mismatchedOpeningParen, f.opener.span⟩])
  | .source _ => (#[f.close (Token.missing .rbrace place)], #[⟨.unterminatedSourceBlock, f.opener.span⟩])

def closedBy (f : Frame) (closer : TokenKind) : Bool :=
  !f.isCandidate && f.opener.kind.closing? == some closer

end Frame

/-- What is left after frames were abandoned: the frames that stay, the nodes that fell out of the
outermost one, and what was reported. -/
structure Unwound where
  frames : List Frame
  fallen : Array Node
  issues : Array Issue

/-- Abandons frames from the innermost on, up to the first that `stays`. -/
def unwind (stays : Frame → Bool) (place : Span) :
    Array Node → Array Issue → List Frame → Unwound
  | nodes, issues, [] => ⟨[], nodes, issues⟩
  | nodes, issues, f :: fs =>
    let f := f.append nodes
    if stays f then ⟨f :: fs, #[], issues⟩
    else
      let left := f.abandon place
      unwind stays place left.1 (issues ++ left.2) fs

/-- Whether the next `{` opens foreign text: after `source` or `use`, and after a name that follows
either. -/
inductive Arm where
  | off | keyword | named
  deriving DecidableEq

structure Scan where
  chunk : Nat
  /-- Nodes outside of all frames. -/
  root : Array Node := #[]
  /-- Open frames, the innermost first. -/
  frames : List Frame := []
  issues : Array Issue := #[]
  /-- Where the last token ended; unknown after a comment. -/
  lastEnd : Option Nat := none
  /-- The kind of the last token. -/
  prev : Option TokenKind := none
  /-- A marker that waits for its operator. -/
  marker : Option Span := none
  arm : Arm := .off

namespace Scan

def raise (s : Scan) (code : IssueCode) (span : Span) : Scan :=
  { s with issues := s.issues.push ⟨code, span⟩ }

def push (s : Scan) (n : Node) : Scan :=
  match s.frames with
  | [] => { s with root := s.root.push n }
  | f :: fs => { s with frames := f.append #[n] :: fs }

def unwindTo (s : Scan) (stays : Frame → Bool) (place : Span) : Scan :=
  let left := unwind stays place #[] #[] s.frames
  { s with
    root := s.root ++ left.fallen
    frames := left.frames
    issues := s.issues ++ left.issues }

/-- Turns candidates at the top of the stack back into operators. -/
def demote (s : Scan) : Scan := s.unwindTo (fun f => !f.isCandidate) Span.virtual

def allowedInTypeArgs : TokenKind → Bool
  | .ident | .int | .comma | .colon | .op .pipe => true
  | _ => false

def emit (s : Scan) (t : Token) : Scan :=
  let s := if allowedInTypeArgs t.kind then s else s.demote
  let s := s.push (.token t)
  { s with prev := some t.kind, arm := if t.kind = .ident then s.arm else .off }

def openFrame (s : Scan) (kind : FrameKind) (opener : Token) : Scan :=
  { s with frames := { kind, opener } :: s.frames, prev := some opener.kind }

def closeFrame (s : Scan) (closer : Token) : Scan :=
  match s.frames with
  | [] => s
  | f :: fs => { { s with frames := fs }.push (f.close closer) with prev := some closer.kind, arm := .off }

/-- A closing bracket: it closes the innermost frame it belongs to, and all frames inside that are
abandoned. One that belongs to no frame is dropped. -/
def close (s : Scan) (closer : Token) : Scan :=
  let s := s.demote
  if s.frames.any (·.closedBy closer.kind) then
    (s.unwindTo (·.closedBy closer.kind) (Span.point s.chunk closer.span.start)).closeFrame closer
  else s.raise .mismatchedClosingParen closer.span

def openBracket (s : Scan) (opener : Token) : Scan :=
  let foreign := opener.kind = .lbrace ∧ s.arm ≠ .off
  { s with arm := .off }.openFrame (if foreign then .source 0 else .group) opener

def atCandidate (s : Scan) : Bool :=
  match s.frames with
  | f :: _ => f.isCandidate
  | [] => false

def word (s : Scan) (t : Token) : Scan :=
  let s := match t.glued, s.prev with
    | true, some .int | true, some .hex | true, some .float =>
      s.raise .letterDirectlyAfterNumber t.span
    | _, _ => s
  let kind := if t.text == "_" then .underscore
    else match Keyword.ofWord? t.text with
      | some k => .keyword k
      | none => .ident
  let arm := match kind, s.arm with
    | .keyword .kwSource, _ | .keyword .kwUse, _ => .keyword
    | .ident, .keyword => .named
    | _, _ => .off
  { s.emit { t with kind } with arm }

/-- `:name` joined to a value is a colon and a word, and a symbol anywhere else. -/
def colonWord (s : Scan) (t : Token) : Scan :=
  if t.glued && (s.prev.map TokenKind.endsValue).getD false then
    let word := String.ofList (t.text.toList.drop 1)
    let kind := match Keyword.ofWord? word with
      | some k => .keyword k
      | none => .ident
    let middle := t.span.start + 1
    let s := s.emit
      { kind := .colon, span := { t.span with stop := middle }, text := ":", glued := true }
    s.emit { kind, span := { t.span with start := middle }, text := word, glued := true }
  else s.emit { t with kind := .symbol }

def strToken (s : Scan) (t : Token) : Scan :=
  let faults := Escape.unknownEscapes (t.span.start + 1) (utf8 (Escape.body t.text.toList))
  let s := faults.foldl (fun s f => s.raise .invalidEscape ⟨s.chunk, f.1, f.2⟩) s
  s.emit { t with kind := .str }

def fixedToken (s : Scan) (t : Token) : Scan :=
  match t.kind with
  | .lparen | .lbracket | .lbrace => s.openBracket t
  | .rparen | .rbracket | .rbrace => s.close t
  | .op .lt =>
    if t.glued ∧ s.prev = some .ident then
      { s with arm := .off }.openFrame .candidate { t with kind := .langle }
    else s.emit t
  | .op .gt => if s.atCandidate then s.closeFrame { t with kind := .rangle } else s.emit t
  | _ => s.emit t

def plain (s : Scan) (lexeme : Lexeme) (t : Token) : Scan :=
  match lexeme with
  | .blank | .comment | .marker => s
  | .word => s.word t
  | .colonWord => s.colonWord t
  | .bareSign => (s.raise .emptyPrefixedName t.span).emit { t with kind := .unknown }
  | .openStr => (s.raise .unterminatedString t.span).strToken t
  | .str => s.strToken t
  | .builtin => s.emit { t with kind := .builtin }
  | .label => s.emit { t with kind := .label }
  | .param => s.emit { t with kind := .param }
  | .hex => s.emit { t with kind := .hex }
  | .int => s.emit { t with kind := .int }
  | .float => s.emit { t with kind := .float }
  | .fixed kind => s.fixedToken { t with kind }

def markedBy : Lexeme → Option TokenKind
  | .fixed kind => kind.marked?
  | _ => none

def textBetween (source : List Char) (start stop : Nat) : String :=
  String.ofList ((sliceBytes source start stop).getD [])

/-- A lexeme in its place. A marker is spent by the next lexeme, and makes an operator out of it if
that lexeme is an operator joined to the token before. -/
def lexeme (s : Scan) (source : List Char) (lexeme : Lexeme) (t : Token) : Scan :=
  match lexeme, s.marker with
  | .marker, some pending => { s.raise .markerWithoutOperator pending with marker := some t.span }
  | .marker, none => { s with marker := some t.span }
  | lexeme, some pending =>
    let s := { s with marker := none }
    match t.glued, markedBy lexeme with
    | true, some kind =>
      let span := pending.merge t.span
      s.emit { kind, span, text := textBetween source span.start span.stop }
    | _, _ => (s.raise .markerWithoutOperator pending).plain lexeme t
  | lexeme, none => s.plain lexeme t

inductive ForeignEnd where
  /-- At the end of the whole text. -/
  | unfinished
  /-- At the brace that closes the frame. -/
  | closed
  /-- At `$` and a brace, with `depth` braces open. -/
  | interp (depth : Nat)

def foreign : Nat → List Char → Nat × ForeignEnd
  | _, [] => (0, .unfinished)
  | depth, '$' :: '{' :: _ => (0, .interp depth)
  | 0, '}' :: _ => (0, .closed)
  | depth, c :: cs =>
    let depth := if c = '{' then depth + 1 else if c = '}' then depth - 1 else depth
    let rest := foreign depth cs
    (rest.1 + 1, rest.2)

inductive Piece where
  /-- A lexeme; none for a character that starts no lexeme. -/
  | lexeme (l : Option Lexeme) (size : Nat)
  | foreign (text : Nat) (stop : ForeignEnd)

def Piece.size : Piece → Nat
  | .lexeme _ n => n
  | .foreign n .unfinished => n
  | .foreign n .closed => n + 1
  | .foreign n (.interp _) => n + 2

def next (s : Scan) (cs : List Char) : Piece :=
  match s.frames with
  | ⟨.source depth, _, _⟩ :: _ =>
    let found := foreign depth cs
    .foreign found.1 found.2
  | _ =>
    match Lexeme.longest cs with
    | (some l, n + 1) => .lexeme (some l) (n + 1)
    | _ => .lexeme none 1

def foreignText (s : Scan) (pos : Nat) (text : List Char) (stop : ForeignEnd) : Scan :=
  let textEnd := pos + byteLength text
  let s := if text.isEmpty then s
    else s.push (.token
      { kind := .sourceText, span := ⟨s.chunk, pos, textEnd⟩, text := String.ofList text })
  match stop with
  | .unfinished => s
  | .closed =>
    { s.closeFrame { kind := .rbrace, span := ⟨s.chunk, textEnd, textEnd + 1⟩, text := "\x7d" } with
      lastEnd := some (textEnd + 1) }
  | .interp depth =>
    let frames := match s.frames with
      | f :: fs => { f with kind := .source depth } :: fs
      | [] => []
    let opener : Token :=
      { kind := .interpOpen, span := ⟨s.chunk, textEnd, textEnd + 2⟩, text := "$\x7b" }
    { { s with frames }.openFrame .group opener with lastEnd := some (textEnd + 2) }

def take (s : Scan) (source : List Char) (pos : Nat) (text : List Char) : Piece → Scan
  | .foreign n stop => s.foreignText pos (text.take n) stop
  | .lexeme (some .blank) _ => s
  | .lexeme (some .comment) _ => { s with lastEnd := none }
  | .lexeme l _ =>
    let stop := pos + byteLength text
    let t : Token :=
      { kind := .unknown, span := ⟨s.chunk, pos, stop⟩, text := String.ofList text,
        glued := s.lastEnd == some pos }
    let s := { s with lastEnd := some stop }
    match l with
    | some l => s.lexeme source l t
    | none => (s.raise .unknownCharacter t.span).emit t

def run (source : List Char) : List Char → Nat → Scan → Scan
  | [], _, s => s
  | c :: cs, pos, s =>
    let piece := s.next (c :: cs)
    let text := (c :: cs).take piece.size
    run source (cs.drop (piece.size - 1)) (pos + byteLength text) (s.take source pos text piece)
termination_by cs => cs.length
decreasing_by
  simp only [List.length_drop, List.length_cons]
  omega

def finish (s : Scan) (stop : Span) : TokenTree × List Issue :=
  let s := match s.marker with
    | some pending => s.raise .markerWithoutOperator pending
    | none => s
  let s := s.unwindTo (fun _ => false) stop
  (⟨s.root.toList, stop⟩, s.issues.toList)

end Scan

def TokenTree.ofText (chunk : Nat) (text : String) : TokenTree × List Issue :=
  let source := text.toList
  (Scan.run source source 0 { chunk }).finish (Span.point chunk (byteLength source))

end Ember

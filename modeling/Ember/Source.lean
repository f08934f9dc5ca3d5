import Ember.Span

/-!
# Source texts and places in them

Offsets count bytes of UTF-8, lines and columns start at 1. An offset past the end stands for the
end. A line is what lies between two newlines, without the carriage returns at its end. Where lines
start is tabulated, and offsets are looked up in the table.
-/
set_option autoImplicit false

namespace Ember

def utf8 (cs : List Char) : List UInt8 := cs.flatMap String.utf8EncodeChar

def byteLength (cs : List Char) : Nat := cs.foldr (fun c n => c.utf8Size + n) 0

/-- What follows the first `n` bytes; nothing if they end inside a character or past the end. -/
def dropBytes : Nat → List Char → Option (List Char)
  | 0, cs => some cs
  | _ + 1, [] => none
  | n + 1, c :: cs => if c.utf8Size ≤ n + 1 then dropBytes (n + 1 - c.utf8Size) cs else none
termination_by _ cs => cs.length

def takeBytes : Nat → List Char → Option (List Char)
  | 0, _ => some []
  | _ + 1, [] => none
  | n + 1, c :: cs =>
    if c.utf8Size ≤ n + 1 then (takeBytes (n + 1 - c.utf8Size) cs).map (c :: ·) else none
termination_by _ cs => cs.length

def sliceBytes (cs : List Char) (start stop : Nat) : Option (List Char) :=
  if start ≤ stop then (dropBytes start cs).bind (takeBytes (stop - start)) else none

/-- The offsets just after each newline, of a text that starts at offset `pos`. -/
def newlineEnds : Nat → List Char → List Nat
  | _, [] => []
  | pos, c :: cs =>
    let next := pos + c.utf8Size
    if c = '\n' then next :: newlineEnds next cs else newlineEnds next cs

/-- The pieces between newlines; a newline at the end opens one more, empty piece. -/
def newlinePieces : List Char → List (List Char)
  | [] => [[]]
  | c :: cs =>
    if c = '\n' then [] :: newlinePieces cs
    else match newlinePieces cs with
      | [] => [[c]]
      | piece :: rest => (c :: piece) :: rest

structure LineCol where
  line : Nat
  col : Nat
  deriving DecidableEq

structure Chunk where
  name : String
  text : String
  deriving Inhabited

namespace Chunk

def chars (c : Chunk) : List Char := c.text.toList

def lineStarts (c : Chunk) : Array Nat := (0 :: newlineEnds 0 c.chars).toArray

def lineCount (c : Chunk) : Nat := c.lineStarts.size

/-- Looks a number up between two places of an increasing table: the place where it stands, or else
the place where it would have to be put in. -/
def search (table : Array Nat) (x lo hi : Nat) : Except Nat Nat :=
  if lo < hi then
    let mid := lo + (hi - lo) / 2
    let found := table.getD mid 0
    if found = x then .ok mid
    else if found < x then search table x (mid + 1) hi
    else search table x lo mid
  else .error lo
termination_by hi - lo

def lineCol (c : Chunk) (offset : Nat) : LineCol :=
  let place := min offset (byteLength c.chars)
  let starts := c.lineStarts
  let line := match search starts place 0 starts.size with
    | .ok exact => exact
    | .error next => next - 1
  ⟨line + 1, place - starts.getD line 0 + 1⟩

/-- The text of a line; lines that do not exist are empty. -/
def lineText (c : Chunk) (line : Nat) : String :=
  match line with
  | 0 => ""
  | n + 1 =>
    let starts := c.lineStarts
    match starts[n]? with
    | none => ""
    | some start =>
      let text := (sliceBytes c.chars start (starts.getD (n + 1) (byteLength c.chars))).getD []
      String.ofList (text.reverse.dropWhile fun c => c == '\n' || c == '\r').reverse

def slice (c : Chunk) (start stop : Nat) : String :=
  String.ofList ((sliceBytes c.chars start stop).getD [])

end Chunk

structure Sources where
  chunks : Array Chunk := #[]
  deriving Inhabited

namespace Sources

def size (s : Sources) : Nat := s.chunks.size

def chunk? (s : Sources) (n : Nat) : Option Chunk := s.chunks[n]?

def add (s : Sources) (name text : String) : Nat × Sources :=
  (s.chunks.size, ⟨s.chunks.push ⟨name, text⟩⟩)

def slice (s : Sources) (span : Span) : String :=
  match s.chunk? span.chunk with
  | some c => c.slice span.start span.stop
  | none => ""

def location (s : Sources) (span : Span) : Option String :=
  (s.chunk? span.chunk).map fun c =>
    let place := c.lineCol span.start
    c.name ++ ":" ++ toString place.line ++ ":" ++ toString place.col

end Sources
end Ember

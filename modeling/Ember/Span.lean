/-!
# Byte ranges into source texts

A span names a chunk of source and the bytes from `start` up to `stop`. The chunk number `noChunk`
belongs to no source: a span in it is virtual, the place of something that was never written.
-/
set_option autoImplicit false

namespace Ember

/-- The chunk number of what has no place in any source. -/
def noChunk : Nat := 4294967295

structure Span where
  chunk : Nat
  start : Nat
  stop : Nat
  deriving DecidableEq, Inhabited

namespace Span

protected def virtual : Span := ⟨noChunk, 0, 0⟩

def point (chunk offset : Nat) : Span := ⟨chunk, offset, offset⟩

def isVirtual (s : Span) : Bool := s.chunk == noChunk

def isEmpty (s : Span) : Bool := s.start == s.stop

def contains (s t : Span) : Bool :=
  s.chunk == t.chunk && decide (s.start ≤ t.start) && decide (t.stop ≤ s.stop)

/-- The smallest span over both. A virtual span adds nothing, and of two chunks the first wins. -/
def merge (s t : Span) : Span :=
  if s.isVirtual then t
  else if t.isVirtual || t.chunk != s.chunk then s
  else ⟨s.chunk, min s.start t.start, max s.stop t.stop⟩

def endPoint (s : Span) : Span := point s.chunk s.stop

def text (s : Span) : String :=
  if s.isVirtual then "<virtual>" else toString s.start ++ ".." ++ toString s.stop

/-- The order in which problems are listed: by chunk, then by start, then by end. -/
def precedes (s t : Span) : Bool :=
  s.chunk < t.chunk || (s.chunk == t.chunk &&
    (s.start < t.start || (s.start == t.start && s.stop ≤ t.stop)))

end Span
end Ember

import StoryScript.Source.Position
/-!
# Spans of a source text

A span runs from its start up to its stop. Nothing forces the two into order: a span can be given
from outside, and then its text is asked for by `text?`, which refuses what the source does not
have.
-/

namespace StoryScript

/-- The stretch between two positions. -/
structure Span where
  start : Position
  /-- The first position no longer in the span. -/
  stop : Position
deriving DecidableEq, Repr

/-- A text from its `n`-th byte on, when a character begins there. -/
def dropBytes : Nat → List Char → Option (List Char)
  | 0, cs => some cs
  | _ + 1, [] => none
  | n + 1, c :: cs => if c.utf8Size ≤ n + 1 then dropBytes (n + 1 - c.utf8Size) cs else none

/-- The first `n` bytes of a text, when they end between two characters. -/
def takeBytes : Nat → List Char → Option (List Char)
  | 0, _ => some []
  | _ + 1, [] => none
  | n + 1, c :: cs =>
    if c.utf8Size ≤ n + 1 then (takeBytes (n + 1 - c.utf8Size) cs).map (c :: ·) else none

namespace Span

/-- The empty span at a position. -/
def point (p : Position) : Span := ⟨p, p⟩

/-- The span over `text` when it stands at `p`. -/
def ofText (p : Position) (text : List Char) : Span := ⟨p, p.advance text⟩

/-- The empty span before the first character. -/
def origin : Span := point Position.origin

instance : Inhabited Span := ⟨origin⟩

/-- From the start of one span to the stop of another. -/
def through (a b : Span) : Span := ⟨a.start, b.stop⟩

/-- Bytes covered, in 64 bits. -/
def length (s : Span) : UInt64 := s.stop.offset.toUInt64 - s.start.offset.toUInt64

/-- Whether both ends have one offset. -/
def isEmpty (s : Span) : Bool := s.start.offset == s.stop.offset

/-- Whether one place comes before another or is the same, by line and then column. -/
def noLater (line column line' column' : Nat) : Bool :=
  line < line' || (line == line' && column ≤ column')

/-- Whether a cursor stands on the span. The cursor right after the last character counts. -/
def contains (s : Span) (line column : Nat) : Bool :=
  noLater s.start.line s.start.column line column && noLater line column s.stop.line s.stop.column

/-- The text a span covers in a source. There is none when an end lies outside the source or inside
a character, or when the ends are in the wrong order. -/
def text? (s : Span) (source : List Char) : Option (List Char) :=
  if s.start.offset ≤ s.stop.offset then
    (dropBytes s.start.offset source).bind (takeBytes (s.stop.offset - s.start.offset))
  else none

/-- Both ends as they are written down. -/
def wrapped (s : Span) : Span := ⟨s.start.wrapped, s.stop.wrapped⟩

end Span

end StoryScript

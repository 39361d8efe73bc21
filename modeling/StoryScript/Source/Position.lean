/-!
# Positions in a source text

Lines and columns count from one. Offsets count the bytes of the text in UTF-8, columns its
characters.
-/

namespace StoryScript

/-- A place between two characters of a source text. -/
structure Position where
  /-- Bytes before this place. -/
  offset : Nat
  /-- The line, from one. -/
  line : Nat
  /-- The column, from one, in characters. -/
  column : Nat
deriving DecidableEq, Repr

namespace Position

/-- Before the first character. -/
def origin : Position := ⟨0, 1, 1⟩

instance : Inhabited Position := ⟨origin⟩

/-- The place after `c`: a line feed begins a line, every other character fills one column. -/
def next (p : Position) (c : Char) : Position :=
  if c = '\n' then ⟨p.offset + c.utf8Size, p.line + 1, 1⟩
  else ⟨p.offset + c.utf8Size, p.line, p.column + 1⟩

/-- The place after a text. -/
def advance (p : Position) (text : List Char) : Position := text.foldl next p

@[simp] theorem advance_nil (p : Position) : p.advance [] = p := rfl

@[simp] theorem advance_cons (p : Position) (c : Char) (cs : List Char) :
    p.advance (c :: cs) = (p.next c).advance cs := rfl

theorem advance_append (p : Position) (a b : List Char) :
    p.advance (a ++ b) = (p.advance a).advance b := List.foldl_append

/-- Order by offset, then line, then column. -/
def order (a b : Position) : Ordering :=
  (compare a.offset b.offset).then ((compare a.line b.line).then (compare a.column b.column))

/-- The numbers as they are written down: a 64-bit offset, a line and a column of 32 bits. -/
def words (p : Position) : UInt64 × UInt32 × UInt32 :=
  (p.offset.toUInt64, p.line.toUInt32, p.column.toUInt32)

/-- The position that `words` keeps. -/
def wrapped (p : Position) : Position :=
  ⟨p.words.1.toNat, p.words.2.1.toNat, p.words.2.2.toNat⟩

end Position

end StoryScript

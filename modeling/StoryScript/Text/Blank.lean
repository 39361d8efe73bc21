/-!
# Blank characters and margins

A text is cut at its ends by the Unicode property `White_Space`. Every cut is a split: the parts put
together again are the text.
-/

namespace StoryScript.Text

/-- The characters of the property `White_Space`. -/
def isBlank (c : Char) : Bool :=
  let n := c.toNat
  (0x09 ≤ n && n ≤ 0x0D) || n == 0x20 || n == 0x85 || n == 0xA0 || n == 0x1680 ||
    (0x2000 ≤ n && n ≤ 0x200A) || n == 0x2028 || n == 0x2029 || n == 0x202F || n == 0x205F ||
    n == 0x3000

/-- A text that holds nothing but blanks, the empty text among them. -/
def allBlank (cs : List Char) : Bool := cs.all isBlank

/-- The blanks a text begins with. -/
def leading (cs : List Char) : List Char := cs.takeWhile isBlank

/-- A text from its first character that is not blank. -/
def trimStart (cs : List Char) : List Char := cs.dropWhile isBlank

/-- The blanks a text ends with. -/
def trailing (cs : List Char) : List Char := (cs.reverse.takeWhile isBlank).reverse

/-- A text up to its last character that is not blank. -/
def trimEnd (cs : List Char) : List Char := (cs.reverse.dropWhile isBlank).reverse

/-- A text without the blanks at either end. -/
def trim (cs : List Char) : List Char := trimEnd (trimStart cs)

theorem leading_append_trimStart (cs : List Char) : leading cs ++ trimStart cs = cs :=
  List.takeWhile_append_dropWhile

theorem trimEnd_append_trailing (cs : List Char) : trimEnd cs ++ trailing cs = cs := by
  rw [trimEnd, trailing, ← List.reverse_append, List.takeWhile_append_dropWhile,
    List.reverse_reverse]

/-- The three parts a text falls into: blanks, what `trim` leaves, blanks. -/
theorem margins_append (cs : List Char) :
    leading cs ++ trim cs ++ trailing (trimStart cs) = cs := by
  rw [trim, List.append_assoc, trimEnd_append_trailing, leading_append_trimStart]

/-- `trim` on strings. -/
def trimmed (s : String) : String := String.ofList (trim s.toList)

/-- `allBlank` on strings. -/
def isBlankText (s : String) : Bool := allBlank s.toList

end StoryScript.Text

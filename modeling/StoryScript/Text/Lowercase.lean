import StoryScript.Text.CaseIgnorableTable
import StoryScript.Text.CasedTable
import StoryScript.Text.LowercaseTable
/-!
# Lowercase

Names are compared by their lowercase. It is the full Unicode mapping: one letter grows to two
characters, and a capital sigma at the end of a word becomes the final form.
-/

namespace StoryScript.Text

/-- Whether a code point lies in one of the ranges, which rise. -/
def inRanges : List (Nat × Nat) → Nat → Bool
  | [], _ => false
  | (first, last) :: rest, n => if n ≤ last then first ≤ n else inRanges rest n

/-- The property `Cased`. -/
def isCased (c : Char) : Bool := inRanges casedRanges c.toNat

/-- The property `Case_Ignorable`. -/
def isCaseIgnorable (c : Char) : Bool := inRanges caseIgnorableRanges c.toNat

/-- Whether the first character that case rules do not look past is a cased one. -/
def casedAhead (cs : List Char) : Bool :=
  match cs.dropWhile isCaseIgnorable with
  | c :: _ => isCased c
  | [] => false

/-- The lowercase of a character that no neighbour affects: capital I with a dot keeps its dot as a
combining mark, every other character goes to one character. -/
def lowerChar (c : Char) : List Char :=
  if c = '\u0130' then ['i', '\u0307'] else [Char.ofNat (CaseRun.find lowercaseRuns c.toNat)]

/-- Lowercase of a text whose left neighbour, looking past what case rules ignore, is cased or not.
A capital sigma is final when a cased character stands before it and none after it. -/
def lowerFrom : Bool → List Char → List Char
  | _, [] => []
  | behind, c :: cs =>
    (if c = '\u03A3' then [if behind && !casedAhead cs then '\u03C2' else '\u03C3']
      else lowerChar c) ++
      lowerFrom (if isCaseIgnorable c then behind else isCased c) cs

/-- The lowercase of a text. -/
def lowercase (s : String) : String := String.ofList (lowerFrom false s.toList)

/-- The letters `A` to `Z` in lowercase, every other character as it is. -/
def lowerLetters (s : String) : String := String.ofList (s.toList.map Char.toLower)

end StoryScript.Text

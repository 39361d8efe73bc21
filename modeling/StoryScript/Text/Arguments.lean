import StoryScript.Text.Blank
/-!
# Argument lists in text

A list of arguments is cut at the commas that stand outside double quotes and outside parentheses. A
character after a backslash neither cuts nor nests.
-/

namespace StoryScript.Text

/-- The first field and the fields after it of a list that is read from inside `depth` parentheses.
Depth can fall below zero, and then no comma cuts until it is back. -/
def splitFields (depth : Int) (quoted escaped : Bool) :
    List Char → List Char × List (List Char)
  | [] => ([], [])
  | c :: cs =>
    let keep := fun (r : List Char × List (List Char)) => (c :: r.1, r.2)
    let escapes := c == '\\'
    if escaped then keep (splitFields depth quoted escapes cs)
    else if c = '"' then keep (splitFields depth (!quoted) escapes cs)
    else if quoted then keep (splitFields depth quoted escapes cs)
    else if c = '(' then keep (splitFields (depth + 1) quoted escapes cs)
    else if c = ')' then keep (splitFields (depth - 1) quoted escapes cs)
    else if c = ',' ∧ depth = 0 then
      let r := splitFields depth quoted escapes cs
      ([], r.1 :: r.2)
    else keep (splitFields depth quoted escapes cs)

/-- The arguments of a list, trimmed. A blank field is no argument. -/
def splitArguments (list : List Char) : List (List Char) :=
  let r := splitFields 0 false false list
  ((r.1 :: r.2).map trim).filter (!·.isEmpty)

end StoryScript.Text

import StoryScript.Source.Span
import StoryScript.Text.Lowercase
/-!
# Stories

A story is a list of named sections. A section holds statements, and a choice holds statements of
its own. `Statement.preorder` lists a statement and all it holds in reading order; what is said
about statements at any depth is said about that list.
-/

namespace StoryScript

/-- `@name value` or `@@name value`. -/
structure Tag where
  /-- The name. A choice tag's keeps its second `@`. -/
  name : String
  /-- The value as written, with the space before it. -/
  value : Option String
  span : Span
deriving DecidableEq, Repr

/-- A part of a replica's or a choice's text. -/
inductive Segment where
  | text (text : String) (span : Span)
  /-- A call inside the text, with its arguments trimmed. -/
  | inlineCall (name : String) (args : List String) (span : Span)
deriving DecidableEq, Repr

/-- A jump to a section. -/
structure Goto where
  target : String
  tags : List Tag
  span : Span
deriving DecidableEq, Repr

/-- A call of a function of the game. -/
structure Call where
  name : String
  args : List String
  tags : List Tag
  span : Span
deriving DecidableEq, Repr

/-- Dialogue or narration. -/
structure Replica where
  /-- What the text segments hold together. -/
  text : String
  segments : List Segment
  tags : List Tag
  span : Span
deriving DecidableEq, Repr

/-- What the player can choose, without what follows from it. -/
structure Choice where
  /-- The text on the line of the `+`. -/
  inlineText : Option String
  /-- The text between bounds. -/
  blockText : Option String
  segments : List Segment
  tags : List Tag
  choiceTags : List Tag
  /-- All of the choice, its body included. -/
  span : Span
deriving DecidableEq, Repr

/-- A statement of a section or of a choice's body. -/
inductive Statement where
  | goto (goto : Goto)
  | call (call : Call)
  | replica (replica : Replica)
  /-- A choice and the statements indented under it, if any line is. -/
  | choice (choice : Choice) (body : Option (List Statement))
deriving Repr

/-- A named list of statements. -/
structure Section where
  name : String
  /-- The tags before the header. -/
  tags : List Tag
  statements : List Statement
  /-- From the header, or the first token if there is none, to the last token. -/
  span : Span
deriving Repr

/-- A story script that has been read. -/
structure Story where
  sections : List Section
deriving Repr

namespace Segment

/-- Where a segment stands. -/
def span : Segment → Span
  | text _ span => span
  | inlineCall _ _ span => span

/-- The text of a text segment. -/
def text? : Segment → Option String
  | text t _ => some t
  | inlineCall .. => none

end Segment

/-- The inline text, or else the text between bounds. -/
def Choice.text? (c : Choice) : Option String := c.inlineText <|> c.blockText

namespace Statement

/-- Where a statement stands, its body included. -/
def span : Statement → Span
  | goto g => g.span
  | call c => c.span
  | replica r => r.span
  | choice c _ => c.span

/-- The tags before a statement. -/
def tags : Statement → List Tag
  | goto g => g.tags
  | call c => c.tags
  | replica r => r.tags
  | choice c _ => c.tags

/-- The name of the kind of statement. -/
def kindName : Statement → String
  | goto _ => "goto"
  | call _ => "call"
  | replica _ => "replica"
  | choice .. => "choice"

mutual

/-- A statement, and then everything in its body. -/
def preorder : Statement → List Statement
  | goto g => [goto g]
  | call c => [call c]
  | replica r => [replica r]
  | choice c none => [choice c none]
  | choice c (some body) => choice c (some body) :: preorders body

/-- Statements in a row, each with everything in its body. -/
def preorders : List Statement → List Statement
  | [] => []
  | s :: ss => preorder s ++ preorders ss

end

mutual

/-- The innermost statement under a cursor that stands on this statement. -/
def innermost (line column : Nat) : Statement → Statement
  | goto g => goto g
  | call c => call c
  | replica r => replica r
  | choice c none => choice c none
  | choice c (some body) => (under? line column body).getD (choice c (some body))

/-- The innermost statement of the first one that a cursor stands on. -/
def under? (line column : Nat) : List Statement → Option Statement
  | [] => none
  | s :: ss =>
    if s.span.contains line column then some (innermost line column s) else under? line column ss

end

end Statement

namespace Section

/-- The name of the section that holds what stands under no header. -/
def mainName : String := "main"

/-- What sections are compared by. -/
def key (s : Section) : String := Text.lowercase s.name

/-- Whether a section is the main one. Only the letters `A` to `Z` may differ from the name. -/
def isMain (s : Section) : Bool := Text.lowerLetters s.name == mainName

/-- Every statement of a section at any depth, in reading order. -/
def preorder (s : Section) : List Statement := Statement.preorders s.statements

end Section

namespace Story

/-- The first section of that name, letter case aside. -/
def section? (story : Story) (name : String) : Option Section :=
  story.sections.find? (·.key == Text.lowercase name)

/-- The innermost statement under a cursor. -/
def statementAt? (story : Story) (line column : Nat) : Option Statement :=
  (story.sections.filter (·.span.contains line column)).findSome? fun s =>
    Statement.under? line column s.statements

/-- Every statement of a story at any depth, in reading order. -/
def preorder (story : Story) : List Statement := story.sections.flatMap Section.preorder

end Story

end StoryScript

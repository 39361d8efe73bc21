import StoryScript.Source.Span
import StoryScript.Text.Blank
/-!
# Issues

Reading and checking a story never fails: what is wrong is found and told. A finding is the cause,
an issue is what is said about it. A story with errors can be rejected as a whole.
-/

namespace StoryScript

/-- How bad an issue is. -/
inductive Severity where
  /-- The story is wrong. -/
  | error
  /-- The story can be used. -/
  | warning
deriving DecidableEq, Repr

/-- The word for a severity. -/
def Severity.name : Severity → String
  | error => "error"
  | warning => "warning"

/-- What is said about a story. -/
structure Issue where
  severity : Severity
  message : String
  /-- Where, when that is known. -/
  span : Option Span
deriving DecidableEq, Repr

namespace Issue

/-- Whether an issue is an error. -/
def isError (i : Issue) : Bool := i.severity == .error

/-- Whether an issue is a warning. -/
def isWarning (i : Issue) : Bool := i.severity == .warning

/-- An issue on one line, behind the line and column where it starts. -/
def display (i : Issue) : String :=
  let said := i.severity.name ++ ": " ++ i.message
  match i.span with
  | some s => s.start.line.repr ++ ":" ++ s.start.column.repr ++ ": " ++ said
  | none => said

end Issue

/-- How many errors there are. -/
def errorCount (issues : List Issue) : Nat := issues.countP (·.isError)

/-- How many warnings there are. -/
def warningCount (issues : List Issue) : Nat := issues.countP (·.isWarning)

/-- What can be found in a story. -/
inductive Finding where
  /-- Text that is no token. -/
  | strayText (text : String)
  | headerWithoutName
  | gotoWithoutTarget
  /-- A call without arguments that nothing follows on its line. -/
  | callWithoutArguments (name : String)
  | openChoiceText
  | openInlineCall
  | looseTag (name : String)
  | looseChoiceTag (name : String)
  | duplicateSection (name : String) (count : Nat)
  | emptySection (name : String)
  | callWithoutName (inSection : String)
  | emptyReplica
  | twoChoiceTexts
  | emptyChoice (inSection : String)
  | duplicateChoiceTag (name : String)
  | unknownTarget (target : String)
  | unreferencedSection (name : String)
deriving DecidableEq, Repr

namespace Finding

/-- How bad a finding is. -/
def severity : Finding → Severity
  | strayText _ | headerWithoutName | gotoWithoutTarget | duplicateSection .. | callWithoutName _
  | twoChoiceTexts | duplicateChoiceTag _ | unknownTarget _ => .error
  | callWithoutArguments _ | openChoiceText | openInlineCall | looseTag _ | looseChoiceTag _
  | emptySection _ | emptyReplica | emptyChoice _ | unreferencedSection _ => .warning

/-- What is said about a finding. -/
def message : Finding → String
  | strayText text => "Lexing error: " ++ Text.trimmed text
  | headerWithoutName => "Expected section name after '==' header"
  | gotoWithoutTarget => "Goto must be followed by a target name"
  | callWithoutArguments name => "Empty or malformed call: " ++ name ++ "()"
  | openChoiceText => "Unterminated choice text block (missing closing ```)"
  | openInlineCall => "Unterminated inline call"
  | looseTag name => "Tag '@" ++ name ++ "' is not attached to any statement"
  | looseChoiceTag name => "Choice tag '@" ++ name ++ "' is not followed by a choice"
  | duplicateSection name count =>
    "Duplicate section name: '" ++ name ++ "' is defined " ++ count.repr ++ " times"
  | emptySection name => "Section '" ++ name ++ "' has no statements"
  | callWithoutName inSection => "Empty call name in section '" ++ inSection ++ "'"
  | emptyReplica => "Empty replica text"
  | twoChoiceTexts => "Choice has both inline and block text"
  | emptyChoice inSection => "Empty choice in section '" ++ inSection ++ "'"
  | duplicateChoiceTag name => "Duplicate choice tag '" ++ name ++ "'"
  | unknownTarget target => "Goto target not found: '" ++ target ++ "'"
  | unreferencedSection name => "Unreferenced section: '" ++ name ++ "'"

end Finding

/-- A finding and where it was made. -/
structure Diagnostic where
  finding : Finding
  span : Span
deriving DecidableEq, Repr

/-- What is said about a finding. -/
def Diagnostic.issue (d : Diagnostic) : Issue :=
  ⟨d.finding.severity, d.finding.message, some d.span⟩

/-- Why a story is rejected as a whole. -/
structure Rejection where
  errors : Nat
  warnings : Nat
  /-- The first error. -/
  first : Issue
deriving DecidableEq, Repr

namespace Rejection

/-- The rejection of a story with these issues. Warnings alone reject nothing. -/
def ofIssues? (issues : List Issue) : Option Rejection :=
  (issues.find? (·.isError)).map fun first => ⟨errorCount issues, warningCount issues, first⟩

/-- A rejection on one line: how much is wrong, and what comes first. -/
def message (r : Rejection) : String :=
  "invalid story: " ++ r.errors.repr ++ " error(s), " ++ r.warnings.repr ++
    " warning(s); first: " ++ r.first.display

end Rejection

end StoryScript

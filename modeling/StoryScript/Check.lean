import StoryScript.Story.Parser
import StoryScript.Story.Validation
import StoryScript.Token.Lexer
/-!
# Checking a source

Everything there is to say about a source: about its tokens, then about how they are put together,
then about the story they tell.
-/

namespace StoryScript

/-- The story a source tells. -/
def parseSource (source : String) : Parsed := parse (tokenize source)

/-- A source that has been read and checked. -/
structure Checked where
  tokens : List Token
  story : Story
  diagnostics : List Diagnostic

namespace Checked

/-- What is said about a source, in the order it was found. -/
def issues (c : Checked) : List Issue := c.diagnostics.map Diagnostic.issue

/-- Whether anything is an error. -/
def hasErrors (c : Checked) : Bool := c.issues.any (·.isError)

end Checked

/-- Read and check a source. -/
def check (source : String) : Checked :=
  let tokens := tokenize source
  let parsed := parse tokens
  ⟨tokens, parsed.story, validateTokens tokens ++ parsed.diagnostics ++ validate parsed.story⟩

end StoryScript

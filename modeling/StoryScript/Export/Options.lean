/-!
# Export options
-/

namespace StoryScript.Export

/-- How much of a story is exported. -/
inductive Shape where
  /-- Without positions, and with the text of a choice in one field. -/
  | simple
  /-- With the positions of everything. -/
  | full
deriving DecidableEq, Repr

/-- The word for a shape. -/
def Shape.name : Shape → String
  | simple => "simple"
  | full => "full"

/-- How the exported document is written. -/
inductive Encoding where
  | json
  | messagePack
deriving DecidableEq, Repr

/-- The usual extension of a file. -/
def Encoding.extension : Encoding → String
  | json => "json"
  | messagePack => "msgpack"

/-- What is exported, and how. -/
structure Options where
  shape : Shape := .simple
  encoding : Encoding := .json
  /-- Indent JSON. -/
  pretty : Bool := false
  /-- Reject a story with errors. -/
  strict : Bool := false
  /-- Check the tokens and the story as well as how it is written. -/
  validated : Bool := false
deriving DecidableEq, Repr

end StoryScript.Export

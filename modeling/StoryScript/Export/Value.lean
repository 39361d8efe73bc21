/-!
# Values

What a document is made of in every encoding. Objects keep the order of their fields.
-/

namespace StoryScript.Export

/-- A value of a document. -/
inductive Value where
  | null
  | number (n : UInt64)
  | string (s : String)
  | array (items : List Value)
  | object (fields : List (String × Value))
deriving Repr

namespace Value

/-- A text that may be missing. -/
def ofOption (s : Option String) : Value := (s.map string).getD null

/-- A list of texts. -/
def strings (ss : List String) : Value := array (ss.map string)

end Value

end StoryScript.Export

import StoryScript.Export.Value
/-!
# JSON

Values as JSON text, on one line or indented. Only quotes, backslashes and control characters are
escaped.
-/

namespace StoryScript.Export.Json

/-- A hexadecimal digit. -/
def hexDigit (n : Nat) : Char := if n < 10 then Char.ofNat (48 + n) else Char.ofNat (87 + n)

/-- A character as it stands between quotes. -/
def escapeChar (c : Char) : List Char :=
  if c = '"' then ['\\', '"']
  else if c = '\\' then ['\\', '\\']
  else if c = '\x08' then ['\\', 'b']
  else if c = '\t' then ['\\', 't']
  else if c = '\n' then ['\\', 'n']
  else if c = '\x0c' then ['\\', 'f']
  else if c = '\r' then ['\\', 'r']
  else if c.toNat < 32 then
    ['\\', 'u', '0', '0', hexDigit (c.toNat / 16), hexDigit (c.toNat % 16)]
  else [c]

/-- A text between quotes. -/
def quote (s : String) : List Char := '"' :: s.toList.flatMap escapeChar ++ ['"']

/-- The line break before an item `depth` levels deep, when lines are broken. -/
def lineBreak (pretty : Bool) (depth : Nat) : List Char :=
  if pretty then '\n' :: List.replicate (2 * depth) ' ' else []

/-- A name of a field and the colon behind it. -/
def fieldName (pretty : Bool) (name : String) : List Char :=
  quote name ++ if pretty then [':', ' '] else [':']

mutual

/-- A value that stands `depth` levels deep. -/
def write (pretty : Bool) (depth : Nat) : Value → List Char
  | .null => ['n', 'u', 'l', 'l']
  | .number n => Nat.toDigits 10 n.toNat
  | .string s => quote s
  | .array [] => ['[', ']']
  | .array (v :: vs) =>
    '[' :: lineBreak pretty (depth + 1) ++ write pretty (depth + 1) v ++
      writeItems pretty (depth + 1) vs ++ lineBreak pretty depth ++ [']']
  | .object [] => ['{', '}']
  | .object ((name, v) :: fs) =>
    '{' :: lineBreak pretty (depth + 1) ++ fieldName pretty name ++ write pretty (depth + 1) v ++
      writeFields pretty (depth + 1) fs ++ lineBreak pretty depth ++ ['}']

/-- The items after the first of an array. -/
def writeItems (pretty : Bool) (depth : Nat) : List Value → List Char
  | [] => []
  | v :: vs =>
    ',' :: lineBreak pretty depth ++ write pretty depth v ++ writeItems pretty depth vs

/-- The fields after the first of an object. -/
def writeFields (pretty : Bool) (depth : Nat) : List (String × Value) → List Char
  | [] => []
  | (name, v) :: fs =>
    ',' :: lineBreak pretty depth ++ fieldName pretty name ++ write pretty depth v ++
      writeFields pretty depth fs

end

/-- A value as JSON text. -/
def render (pretty : Bool) (v : Value) : String := String.ofList (write pretty 0 v)

end StoryScript.Export.Json

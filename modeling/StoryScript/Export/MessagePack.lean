import StoryScript.Export.Value
/-!
# MessagePack

Values as MessagePack bytes, each behind the shortest header that holds its number, length or count.
-/

namespace StoryScript.Export.MessagePack

/-- The low `width` bytes of a number, the highest first. -/
def bigEndian : Nat → Nat → List UInt8
  | 0, _ => []
  | width + 1, n => (n / 256 ^ width).toUInt8 :: bigEndian width n

/-- A number. -/
def writeNumber (n : Nat) : List UInt8 :=
  if n < 0x80 then [n.toUInt8]
  else if n < 0x100 then 0xcc :: bigEndian 1 n
  else if n < 0x10000 then 0xcd :: bigEndian 2 n
  else if n < 0x100000000 then 0xce :: bigEndian 4 n
  else 0xcf :: bigEndian 8 n

/-- The bytes of a text behind their count. -/
def writeString (s : String) : List UInt8 :=
  let bytes := s.toUTF8.toList
  let n := bytes.length
  (if n < 0x20 then [(0xa0 + n).toUInt8]
    else if n < 0x100 then 0xd9 :: bigEndian 1 n
    else if n < 0x10000 then 0xda :: bigEndian 2 n
    else 0xdb :: bigEndian 4 n) ++ bytes

/-- The header of a count: a small one is added to the least byte, and others stand behind a byte. -/
def countHeader (least : Nat) (medium long : UInt8) (n : Nat) : List UInt8 :=
  if n < 0x10 then [(least + n).toUInt8]
  else if n < 0x10000 then medium :: bigEndian 2 n
  else long :: bigEndian 4 n

/-- The header of an array of `n` items. -/
def arrayHeader : Nat → List UInt8 := countHeader 0x90 0xdc 0xdd

/-- The header of an object of `n` fields. -/
def objectHeader : Nat → List UInt8 := countHeader 0x80 0xde 0xdf

mutual

/-- A value. -/
def write : Value → List UInt8
  | .null => [0xc0]
  | .number n => writeNumber n.toNat
  | .string s => writeString s
  | .array items => arrayHeader items.length ++ writeItems items
  | .object fields => objectHeader fields.length ++ writeFields fields

/-- The items of an array. -/
def writeItems : List Value → List UInt8
  | [] => []
  | v :: vs => write v ++ writeItems vs

/-- The fields of an object, each name before its value. -/
def writeFields : List (String × Value) → List UInt8
  | [] => []
  | (name, v) :: fs => writeString name ++ write v ++ writeFields fs

end

end StoryScript.Export.MessagePack

import StoryScript.Export.MessagePack
import Mathlib.Tactic.Ring
/-!
# Reading MessagePack

A reader of its own for MessagePack (`decode`). It takes every header by its first byte, whichever
width the writer chose, and needs no end marks: a header says how many values belong to it, so bytes
are read as a list of values in which the values behind a header are its own. A value whose texts and
lists are shorter than 2^32 is read back as it was written (`decode_write`).
-/

namespace StoryScript.Export

mutual

/-- Every text and every list in a value is shorter than 2^32. -/
def Value.Fits : Value → Prop
  | .null | .number _ => True
  | .string s => s.utf8ByteSize < 2 ^ 32
  | .array items => items.length < 2 ^ 32 ∧ Value.AllFit items
  | .object fields => fields.length < 2 ^ 32 ∧ Value.FieldsFit fields

/-- The same of all items. -/
def Value.AllFit : List Value → Prop
  | [] => True
  | v :: vs => v.Fits ∧ Value.AllFit vs

/-- The same of all fields and their names. -/
def Value.FieldsFit : List (String × Value) → Prop
  | [] => True
  | (name, v) :: fs => name.utf8ByteSize < 2 ^ 32 ∧ v.Fits ∧ Value.FieldsFit fs

end

mutual

def Value.decidableFits : (v : Value) → Decidable v.Fits
  | .null | .number _ => inferInstanceAs (Decidable True)
  | .string s => inferInstanceAs (Decidable (s.utf8ByteSize < 2 ^ 32))
  | .array items =>
    have := Value.decidableAllFit items
    inferInstanceAs (Decidable (items.length < 2 ^ 32 ∧ Value.AllFit items))
  | .object fields =>
    have := Value.decidableFieldsFit fields
    inferInstanceAs (Decidable (fields.length < 2 ^ 32 ∧ Value.FieldsFit fields))

def Value.decidableAllFit : (items : List Value) → Decidable (Value.AllFit items)
  | [] => inferInstanceAs (Decidable True)
  | v :: vs =>
    have := v.decidableFits
    have := Value.decidableAllFit vs
    inferInstanceAs (Decidable (v.Fits ∧ Value.AllFit vs))

def Value.decidableFieldsFit : (fields : List (String × Value)) → Decidable (Value.FieldsFit fields)
  | [] => inferInstanceAs (Decidable True)
  | (name, v) :: fs =>
    have := v.decidableFits
    have := Value.decidableFieldsFit fs
    inferInstanceAs (Decidable (name.utf8ByteSize < 2 ^ 32 ∧ v.Fits ∧ Value.FieldsFit fs))

end

instance : DecidablePred Value.Fits := Value.decidableFits

namespace MessagePack

/-! ## Numbers and texts in bytes -/

/-- The number that bytes stand for, the highest first. -/
def ofBigEndian (bytes : List UInt8) : Nat := bytes.foldl (fun n b => n * 256 + b.toNat) 0

/-- A number of so many bytes. -/
def readNumber (width : Nat) (bytes : List UInt8) : Option (Nat × List UInt8) :=
  if width ≤ bytes.length then some (ofBigEndian (bytes.take width), bytes.drop width) else none

/-- A text of so many bytes. -/
def readText (n : Nat) (bytes : List UInt8) : Option (String × List UInt8) :=
  if n ≤ bytes.length then
    (String.fromUTF8? (bytes.take n).toByteArray).map fun s => (s, bytes.drop n)
  else none

theorem bigEndian_succ (width n : Nat) :
    bigEndian (width + 1) n = (n / 256 ^ width).toUInt8 :: bigEndian width n := rfl

theorem length_bigEndian (width n : Nat) : (bigEndian width n).length = width := by
  induction width with
  | zero => rfl
  | succ width ih => rw [bigEndian_succ, List.length_cons, ih]

theorem foldl_bigEndian (width n start : Nat) :
    (bigEndian width n).foldl (fun n b => n * 256 + b.toNat) start =
      start * 256 ^ width + n % 256 ^ width := by
  induction width generalizing start with
  | zero =>
    rw [Nat.pow_zero, Nat.mul_one, Nat.mod_one]
    rfl
  | succ width ih =>
    have hbyte : (n / 256 ^ width).toUInt8.toNat = n / 256 ^ width % 256 := UInt8.toNat_ofNat
    rw [bigEndian_succ, List.foldl_cons, ih, hbyte, Nat.pow_succ, Nat.mod_mul]
    ring

theorem readNumber_bigEndian {width n : Nat} (h : n < 256 ^ width) (rest : List UInt8) :
    readNumber width (bigEndian width n ++ rest) = some (n, rest) := by
  have hlen := length_bigEndian width n
  have htake : (bigEndian width n ++ rest).take width = bigEndian width n := List.take_left' hlen
  have hdrop : (bigEndian width n ++ rest).drop width = rest := List.drop_left' hlen
  have hvalue : ofBigEndian (bigEndian width n) = n := by
    rw [ofBigEndian, foldl_bigEndian, Nat.mod_eq_of_lt h]
    omega
  rw [readNumber, if_pos (by rw [List.length_append, hlen]; omega), htake, hdrop, hvalue]

theorem toList_loop (bytes : ByteArray) (i : Nat) (before : List UInt8) :
    ByteArray.toList.loop bytes i before = before.reverse ++ bytes.data.toList.drop i := by
  fun_induction ByteArray.toList.loop bytes i before with
  | case1 i before h ih =>
    have hlen : i < bytes.data.toList.length := by simpa using h
    have hbyte : bytes.get! i = bytes.data.toList[i] := by simp [ByteArray.get!, h]
    rw [ih, List.reverse_cons, List.append_assoc, List.singleton_append, hbyte,
      List.getElem_cons_drop]
  | case2 i before h => simp [List.drop_eq_nil_of_le, Nat.le_of_not_lt h]

theorem toList_eq (bytes : ByteArray) : bytes.toList = bytes.data.toList := by
  rw [ByteArray.toList, toList_loop]
  rfl

theorem readText_append (s : String) (rest : List UInt8) :
    readText s.toUTF8.toList.length (s.toUTF8.toList ++ rest) = some (s, rest) := by
  have hbytes : s.toUTF8.toList.toByteArray = s.toByteArray := by
    rw [toList_eq]
    exact ByteArray.ext (by simp)
  have hvalid : String.fromUTF8? s.toByteArray = some s := dif_pos s.isValidUTF8
  rw [readText, if_pos (by simp), List.take_left, List.drop_left, hbytes, hvalid]
  rfl

/-! ## Headers -/

/-- What a header announces: a value without parts, or how many values belong to it. -/
inductive Head where
  | null
  | number (n : Nat)
  | string (s : String)
  | array (count : Nat)
  | object (count : Nat)

/-- What the first byte of a header says: what is announced, or how it is written in the bytes behind.
-/
inductive Header where
  | short (head : Head)
  /-- A text of so many bytes. -/
  | text (length : Nat)
  /-- A number of so many bytes, a text behind its length, or a count of values. -/
  | number (width : Nat)
  | string (width : Nat)
  | array (width : Nat)
  | object (width : Nat)

/-- The header that a byte begins. Kinds of values that documents do not have are refused. -/
def Header.ofByte? (b : UInt8) : Option Header :=
  let n := b.toNat
  if n < 0x80 then some (.short (.number n))
  else if n < 0x90 then some (.short (.object (n - 0x80)))
  else if n < 0xa0 then some (.short (.array (n - 0x90)))
  else if n < 0xc0 then some (.text (n - 0xa0))
  else match n with
    | 0xc0 => some (.short .null)
    | 0xcc => some (.number 1)
    | 0xcd => some (.number 2)
    | 0xce => some (.number 4)
    | 0xcf => some (.number 8)
    | 0xd9 => some (.string 1)
    | 0xda => some (.string 2)
    | 0xdb => some (.string 4)
    | 0xdc => some (.array 2)
    | 0xdd => some (.array 4)
    | 0xde => some (.object 2)
    | 0xdf => some (.object 4)
    | _ => none

/-- What a header announces, read to its end. -/
def Header.read (bytes : List UInt8) : Header → Option (Head × List UInt8)
  | .short head => some (head, bytes)
  | .text length => (readText length bytes).map fun r => (.string r.1, r.2)
  | .number width => (readNumber width bytes).map fun r => (.number r.1, r.2)
  | .string width =>
    ((readNumber width bytes).bind fun r => readText r.1 r.2).map fun r => (.string r.1, r.2)
  | .array width => (readNumber width bytes).map fun r => (.array r.1, r.2)
  | .object width => (readNumber width bytes).map fun r => (.object r.1, r.2)

theorem length_readNumber_le {width n : Nat} {bytes rest : List UInt8}
    (h : readNumber width bytes = some (n, rest)) : rest.length ≤ bytes.length := by
  unfold readNumber at h
  split at h
  · obtain ⟨-, rfl⟩ := Prod.mk.inj (Option.some.inj h)
    simp
  · cases h

theorem length_readText_le {n : Nat} {s : String} {bytes rest : List UInt8}
    (h : readText n bytes = some (s, rest)) : rest.length ≤ bytes.length := by
  unfold readText at h
  split at h
  · obtain ⟨t, -, ht⟩ := Option.map_eq_some_iff.1 h
    obtain ⟨-, rfl⟩ := Prod.mk.inj ht
    simp
  · cases h

theorem Header.length_read_le {header : Header} {bytes rest : List UInt8} {head : Head}
    (h : header.read bytes = some (head, rest)) : rest.length ≤ bytes.length := by
  cases header with
  | short head =>
    obtain ⟨-, rfl⟩ := Prod.mk.inj (Option.some.inj h)
    exact Nat.le_refl _
  | text length =>
    obtain ⟨⟨s, more⟩, hs, he⟩ := Option.map_eq_some_iff.1 h
    obtain ⟨-, rfl⟩ := Prod.mk.inj he
    exact length_readText_le hs
  | string width =>
    obtain ⟨⟨s, more⟩, hs, he⟩ := Option.map_eq_some_iff.1 h
    obtain ⟨⟨n, behind⟩, hn, ht⟩ := Option.bind_eq_some_iff.1 hs
    obtain ⟨-, rfl⟩ := Prod.mk.inj he
    exact Nat.le_trans (length_readText_le ht) (length_readNumber_le hn)
  | number width | array width | object width =>
    obtain ⟨⟨n, more⟩, hn, he⟩ := Option.map_eq_some_iff.1 h
    obtain ⟨-, rfl⟩ := Prod.mk.inj he
    exact length_readNumber_le hn

/-! ## Values -/

/-- The first `count` fields of an object that begins with a name. -/
def takeFields : Nat → List Value → Option (List (String × Value) × List Value)
  | 0, vs => some ([], vs)
  | count + 1, .string name :: v :: vs =>
    (takeFields count vs).map fun r => ((name, v) :: r.1, r.2)
  | _ + 1, _ => none

/-- Put a header before the values behind it. It takes those that belong to it. -/
def Head.push : Head → List Value → Option (List Value)
  | .null, vs => some (.null :: vs)
  | .number n, vs => some (.number n.toUInt64 :: vs)
  | .string s, vs => some (.string s :: vs)
  | .array count, vs =>
    if count ≤ vs.length then some (.array (vs.take count) :: vs.drop count) else none
  | .object count, vs => (takeFields count vs).map fun r => .object r.1 :: r.2

/-- What the bytes from `b` on begin with. -/
def readHead (b : UInt8) (bytes : List UInt8) : Option (Head × List UInt8) :=
  (Header.ofByte? b).bind (Header.read bytes)

theorem length_readHead_le {b : UInt8} {bytes rest : List UInt8} {head : Head}
    (h : readHead b bytes = some (head, rest)) : rest.length ≤ bytes.length := by
  obtain ⟨header, -, hr⟩ := Option.bind_eq_some_iff.1 h
  exact Header.length_read_le hr

/-- The values that bytes hold, one after the other. -/
def values : List UInt8 → Option (List Value)
  | [] => some []
  | b :: bytes =>
    match h : readHead b bytes with
    | none => none
    | some (head, rest) =>
      have : rest.length ≤ bytes.length := length_readHead_le h
      (values rest).bind head.push
termination_by bytes => bytes.length

/-- The value that bytes stand for, if they stand for one value and nothing else. -/
def decode (bytes : ByteArray) : Option Value :=
  match values bytes.data.toList with
  | some [v] => some v
  | _ => none

theorem values_cons {b : UInt8} {bytes rest : List UInt8} {head : Head}
    (h : readHead b bytes = some (head, rest)) :
    values (b :: bytes) = (values rest).bind head.push := by
  rw [values]
  split
  · next hn => simp [h] at hn
  · next hs =>
    obtain ⟨rfl, rfl⟩ := Prod.mk.inj (Option.some.inj (h.symm.trans hs))
    rfl

/-! ## What is written is read -/

/-- Bytes that are the header of something and nothing more. -/
def Announce (bytes : List UInt8) (head : Head) : Prop :=
  ∃ b more, bytes = b :: more ∧ ∀ rest, readHead b (more ++ rest) = some (head, rest)

theorem Announce.values_append {bytes : List UInt8} {head : Head} (h : Announce bytes head)
    (rest : List UInt8) : values (bytes ++ rest) = (values rest).bind head.push := by
  obtain ⟨b, more, rfl, hread⟩ := h
  exact values_cons (hread rest)

theorem announce_short {b : UInt8} {head : Head} (h : Header.ofByte? b = some (.short head)) :
    Announce [b] head :=
  ⟨b, [], rfl, fun rest => by rw [readHead, h]; rfl⟩

/-- A number that stands behind its first byte, whatever it counts. -/
theorem announce_long {b : UInt8} {header : Header} {f : Nat → Head} {width n : Nat}
    (h : Header.ofByte? b = some header)
    (hread : ∀ bytes, header.read bytes = (readNumber width bytes).map fun r => (f r.1, r.2))
    (hn : n < 256 ^ width) : Announce (b :: bigEndian width n) (f n) := by
  refine ⟨b, _, rfl, fun rest => ?_⟩
  rw [readHead, h, Option.bind_some, hread, readNumber_bigEndian hn]
  rfl

theorem announce_text {b : UInt8} {s : String} {width : Nat}
    (h : Header.ofByte? b = some (.string width)) (hn : s.toUTF8.toList.length < 256 ^ width) :
    Announce (b :: (bigEndian width s.toUTF8.toList.length ++ s.toUTF8.toList)) (.string s) := by
  refine ⟨b, _, rfl, fun rest => ?_⟩
  rw [readHead, h, Option.bind_some, Header.read, List.append_assoc, readNumber_bigEndian hn,
    Option.bind_some, readText_append]
  rfl

/-- A byte keeps a number that fits into it. -/
theorem toNat_toUInt8 {n : Nat} (h : n < 0x100) : n.toUInt8.toNat = n := UInt8.toNat_ofNat_of_lt h

theorem announce_writeNumber {n : Nat} (h : n < 2 ^ 64) : Announce (writeNumber n) (.number n) := by
  unfold writeNumber
  split
  · next hn =>
    refine announce_short ?_
    rw [Header.ofByte?, toNat_toUInt8 (by omega), if_pos hn]
  · split
    · next hn => exact announce_long rfl (fun _ => rfl) hn
    · split
      · next hn => exact announce_long rfl (fun _ => rfl) hn
      · split
        · next hn => exact announce_long rfl (fun _ => rfl) hn
        · exact announce_long rfl (fun _ => rfl) h

theorem announce_writeString {s : String} (h : s.utf8ByteSize < 2 ^ 32) :
    Announce (writeString s) (.string s) := by
  have hlen : s.toUTF8.toList.length = s.utf8ByteSize := by
    rw [toList_eq]
    rfl
  rw [← hlen] at h
  unfold writeString
  dsimp only
  split
  · next hn =>
    refine ⟨_, _, rfl, fun rest => ?_⟩
    have hbyte : Header.ofByte? (0xa0 + s.toUTF8.toList.length).toUInt8 =
        some (.text s.toUTF8.toList.length) := by
      rw [Header.ofByte?, toNat_toUInt8 (by omega), if_neg (by omega), if_neg (by omega),
        if_neg (by omega), if_pos (by omega), Nat.add_sub_cancel_left]
    rw [readHead, hbyte, Option.bind_some, Header.read]
    exact congrArg (Option.map _) (readText_append s rest)
  · split
    · next hn => exact announce_text rfl hn
    · split
      · next hn => exact announce_text rfl hn
      · exact announce_text rfl h

theorem announce_countHeader {least n : Nat} {medium long : UInt8} {header : Nat → Header}
    {head : Nat → Head} (h : n < 2 ^ 32)
    (hleast : n < 0x10 → Header.ofByte? (least + n).toUInt8 = some (.short (head n)))
    (hmedium : Header.ofByte? medium = some (header 2))
    (hlong : Header.ofByte? long = some (header 4))
    (hread : ∀ width bytes, (header width).read bytes =
      (readNumber width bytes).map fun r => (head r.1, r.2)) :
    Announce (countHeader least medium long n) (head n) := by
  unfold countHeader
  split
  · next hn => exact announce_short (hleast hn)
  · split
    · next hn => exact announce_long hmedium (hread 2) hn
    · exact announce_long hlong (hread 4) h

theorem announce_arrayHeader {n : Nat} (h : n < 2 ^ 32) : Announce (arrayHeader n) (.array n) := by
  refine announce_countHeader h (fun hn => ?_) rfl rfl fun _ _ => rfl
  rw [Header.ofByte?, toNat_toUInt8 (by omega), if_neg (by omega), if_neg (by omega),
    if_pos (by omega), Nat.add_sub_cancel_left]

theorem announce_objectHeader {n : Nat} (h : n < 2 ^ 32) :
    Announce (objectHeader n) (.object n) := by
  refine announce_countHeader h (fun hn => ?_) rfl rfl fun _ _ => rfl
  rw [Header.ofByte?, toNat_toUInt8 (by omega), if_neg (by omega), if_pos (by omega),
    Nat.add_sub_cancel_left]

/-- The fields of an object as values in a row, each name before its value. -/
def inRow (fields : List (String × Value)) : List Value :=
  fields.flatMap fun f => [.string f.1, f.2]

theorem takeFields_inRow (fields : List (String × Value)) (vs : List Value) :
    takeFields fields.length (inRow fields ++ vs) = some (fields, vs) := by
  induction fields with
  | nil => rfl
  | cons f fields ih =>
    have hrow : inRow (f :: fields) ++ vs = .string f.1 :: f.2 :: (inRow fields ++ vs) := rfl
    rw [hrow, List.length_cons, takeFields, ih]
    rfl

mutual

/-- A value in front is read first. -/
theorem values_write : (v : Value) → v.Fits → (rest : List UInt8) →
    values (write v ++ rest) = (values rest).map (v :: ·)
  | .null, _, rest => by
    rw [write, (announce_short rfl : Announce [0xc0] .null).values_append]
    cases values rest <;> rfl
  | .number n, _, rest => by
    rw [write, (announce_writeNumber n.toNat_lt).values_append]
    cases values rest <;> simp [Head.push]
  | .string s, h, rest => by
    rw [write, (announce_writeString h).values_append]
    cases values rest <;> rfl
  | .array items, h, rest => by
    rw [write, List.append_assoc, (announce_arrayHeader h.1).values_append,
      values_writeItems items h.2]
    cases values rest <;> simp [Head.push]
  | .object fields, h, rest => by
    rw [write, List.append_assoc, (announce_objectHeader h.1).values_append,
      values_writeFields fields h.2]
    cases values rest <;> simp [Head.push, takeFields_inRow]

theorem values_writeItems : (items : List Value) → Value.AllFit items → (rest : List UInt8) →
    values (writeItems items ++ rest) = (values rest).map (items ++ ·)
  | [], _, rest => by cases h : values rest <;> simp [writeItems, h]
  | v :: vs, h, rest => by
    rw [writeItems, List.append_assoc, values_write v h.1, values_writeItems vs h.2]
    cases values rest <;> simp

theorem values_writeFields : (fields : List (String × Value)) → Value.FieldsFit fields →
    (rest : List UInt8) →
    values (writeFields fields ++ rest) = (values rest).map (inRow fields ++ ·)
  | [], _, rest => by cases h : values rest <;> simp [writeFields, inRow, h]
  | (name, v) :: fs, h, rest => by
    rw [writeFields, List.append_assoc, List.append_assoc, (announce_writeString h.1).values_append,
      values_write v h.2.1, values_writeFields fs h.2.2]
    cases values rest <;> simp [Head.push, inRow]

end

/-- What is written is read back. -/
theorem decode_write {v : Value} (h : v.Fits) : decode (write v).toByteArray = some v := by
  have hvalues := values_write v h []
  rw [List.append_nil, values] at hvalues
  rw [decode, List.toList_data_toByteArray, hvalues]
  rfl

end MessagePack

end StoryScript.Export

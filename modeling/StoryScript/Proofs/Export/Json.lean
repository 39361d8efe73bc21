import StoryScript.Export.Json
import Mathlib.Algebra.Group.Nat.Defs
import Mathlib.Data.List.Basic
/-!
# Reading JSON

A reader of its own for JSON (`decode`), for the values that documents are made of: a text is cut into
marks with no regard to blanks, and the marks are put together with the open arrays and objects on a
stack. A value is read back as it was written, on one line or indented (`decode_render`).
-/

namespace StoryScript.Export.Json

/-! ## Marks -/

/-- What a JSON text is made of. -/
inductive Mark where
  | arrayOpen
  | arrayClose
  | objectOpen
  | objectClose
  | comma
  | colon
  | null
  | number (n : UInt64)
  | string (s : String)

/-- The blanks that may stand between marks. -/
def isSpace (c : Char) : Bool := c == ' ' || c == '\n' || c == '\t' || c == '\r'

/-- The value of a hexadecimal digit. -/
def hexValue? (c : Char) : Option Nat :=
  if '0' ≤ c ∧ c ≤ '9' then some (c.toNat - 48)
  else if 'a' ≤ c ∧ c ≤ 'f' then some (c.toNat - 87)
  else if 'A' ≤ c ∧ c ≤ 'F' then some (c.toNat - 55)
  else none

/-- The character of four hexadecimal digits. Half of a pair is none. -/
def hexChar? (a b c d : Char) : Option Char := do
  let n := (((← hexValue? a) * 16 + (← hexValue? b)) * 16 + (← hexValue? c)) * 16 + (← hexValue? d)
  if h : n.isValidChar then some (Char.ofNatAux n h) else none

/-- The character that a letter behind a backslash stands for. -/
def unescape? : Char → Option Char
  | '"' => some '"'
  | '\\' => some '\\'
  | '/' => some '/'
  | 'b' => some '\x08'
  | 'f' => some '\x0c'
  | 'n' => some '\n'
  | 'r' => some '\r'
  | 't' => some '\t'
  | _ => none

/-- What stands before the next quote, and what behind it. Control characters have to be escaped. -/
def readQuoted : List Char → Option (List Char × List Char)
  | [] => none
  | '"' :: cs => some ([], cs)
  | '\\' :: 'u' :: a :: b :: c :: d :: cs => do
    let char ← hexChar? a b c d
    (readQuoted cs).map fun r => (char :: r.1, r.2)
  | '\\' :: c :: cs => do
    let char ← unescape? c
    (readQuoted cs).map fun r => (char :: r.1, r.2)
  | c :: cs => if c.toNat < 32 then none else (readQuoted cs).map fun r => (c :: r.1, r.2)

/-- The number of some digits, if it has 64 bits. No zero may stand before another digit. -/
def readNumber (digits : List Char) : Option UInt64 :=
  let n := Nat.ofDigitChars 10 digits 0
  if digits.head? = some '0' ∧ 1 < digits.length then none
  else if n < 2 ^ 64 then some n.toUInt64 else none

/-- The mark that begins with `c`. -/
def readMark (c : Char) (cs : List Char) : Option (Mark × List Char) :=
  match c with
  | '[' => some (.arrayOpen, cs)
  | ']' => some (.arrayClose, cs)
  | '{' => some (.objectOpen, cs)
  | '}' => some (.objectClose, cs)
  | ',' => some (.comma, cs)
  | ':' => some (.colon, cs)
  | 'n' => if ['u', 'l', 'l'].isPrefixOf cs then some (.null, cs.drop 3) else none
  | '"' => (readQuoted cs).map fun r => (.string (String.ofList r.1), r.2)
  | c =>
    if c.isDigit then
      (readNumber (c :: cs.takeWhile Char.isDigit)).map fun n =>
        (.number n, cs.dropWhile Char.isDigit)
    else none

theorem length_readQuoted_le {cs text rest : List Char} (h : readQuoted cs = some (text, rest)) :
    rest.length ≤ cs.length := by
  -- one more character in front of what is read
  have push : ∀ (x : Char) {r : Option (List Char × List Char)} {text : List Char},
      r.map (fun r => (x :: r.1, r.2)) = some (text, rest) → ∃ text', r = some (text', rest) := by
    intro x r text hr
    obtain ⟨⟨t, u⟩, rfl, he⟩ := Option.map_eq_some_iff.1 hr
    obtain ⟨-, rfl⟩ := Prod.mk.inj he
    exact ⟨t, rfl⟩
  fun_induction readQuoted cs generalizing text with
  | case1 => cases h
  | case2 cs =>
    obtain ⟨-, rfl⟩ := Prod.mk.inj (Option.some.inj h)
    simp
  | case3 a b c d cs ih =>
    obtain ⟨x, -, hr⟩ := Option.bind_eq_some_iff.1 h
    obtain ⟨text', hr'⟩ := push x hr
    have hle := ih hr'
    simp only [List.length_cons]
    omega
  | case4 c cs _ ih =>
    obtain ⟨x, -, hr⟩ := Option.bind_eq_some_iff.1 h
    obtain ⟨text', hr'⟩ := push x hr
    have hle := ih hr'
    simp only [List.length_cons]
    omega
  | case5 => cases h
  | case6 c cs _ _ _ _ ih =>
    obtain ⟨text', hr⟩ := push c h
    exact Nat.le_succ_of_le (ih hr)

theorem length_readMark_le {c : Char} {cs rest : List Char} {mark : Mark}
    (h : readMark c cs = some (mark, rest)) : rest.length ≤ cs.length := by
  unfold readMark at h
  split at h
  case h_7 =>
    split at h
    · obtain ⟨-, rfl⟩ := Prod.mk.inj (Option.some.inj h)
      simp
    · cases h
  case h_8 =>
    obtain ⟨⟨text, r⟩, hr, he⟩ := Option.map_eq_some_iff.1 h
    obtain ⟨-, rfl⟩ := Prod.mk.inj he
    exact length_readQuoted_le hr
  case h_9 =>
    split at h
    · obtain ⟨n, -, he⟩ := Option.map_eq_some_iff.1 h
      obtain ⟨-, rfl⟩ := Prod.mk.inj he
      exact (List.dropWhile_sublist _).length_le
    · cases h
  all_goals
    obtain ⟨-, rfl⟩ := Prod.mk.inj (Option.some.inj h)
    exact Nat.le_refl _

/-- The marks of a text. -/
def marks : List Char → Option (List Mark)
  | [] => some []
  | c :: cs =>
    if isSpace c then marks cs
    else
      match h : readMark c cs with
      | none => none
      | some (mark, rest) =>
        have : rest.length ≤ cs.length := length_readMark_le h
        (marks rest).map (mark :: ·)
termination_by cs => cs.length

theorem marks_space {c : Char} (h : isSpace c = true) (cs : List Char) :
    marks (c :: cs) = marks cs := by
  rw [marks, if_pos h]

theorem marks_cons {c : Char} {cs rest : List Char} {mark : Mark} (hc : isSpace c = false)
    (h : readMark c cs = some (mark, rest)) :
    marks (c :: cs) = (marks rest).map (mark :: ·) := by
  rw [marks, if_neg (by simp [hc])]
  split
  · next hn => simp [h] at hn
  · next hs =>
    obtain ⟨rfl, rfl⟩ := Prod.mk.inj (Option.some.inj (h.symm.trans hs))
    rfl

/-! ## What is written falls into marks -/

theorem hexValue?_hexDigit : ∀ n < 16, hexValue? (hexDigit n) = some n := by decide

theorem hexChar?_hexDigit {c : Char} (h : c.toNat < 32) :
    hexChar? '0' '0' (hexDigit (c.toNat / 16)) (hexDigit (c.toNat % 16)) = some c := by
  have hzero : hexValue? '0' = some 0 := by decide
  have hn : ((0 * 16 + 0) * 16 + c.toNat / 16) * 16 + c.toNat % 16 = c.toNat := by omega
  have hvalid : c.toNat.isValidChar := c.valid
  rw [hexChar?, hzero, hexValue?_hexDigit _ (by omega), hexValue?_hexDigit _ (by omega)]
  change (if h : Nat.isValidChar (((0 * 16 + 0) * 16 + c.toNat / 16) * 16 + c.toNat % 16) then
    some (Char.ofNatAux _ h) else none) = some c
  rw [hn]
  exact dif_pos hvalid

/-- An escaped character is read as the character. -/
theorem readQuoted_escapeChar (c : Char) (cs : List Char) :
    readQuoted (escapeChar c ++ cs) = (readQuoted cs).map fun r => (c :: r.1, r.2) := by
  by_cases hq : c = '"'
  · subst hq
    rfl
  by_cases hb : c = '\\'
  · subst hb
    rfl
  unfold escapeChar
  rw [if_neg hq, if_neg hb]
  split
  · next h => subst h; rfl
  split
  · next h => subst h; rfl
  split
  · next h => subst h; rfl
  split
  · next h => subst h; rfl
  split
  · next h => subst h; rfl
  split
  · next h =>
    simp only [List.cons_append, List.nil_append]
    rw [readQuoted, hexChar?_hexDigit h]
    rfl
  · next h =>
    rw [List.singleton_append, readQuoted, if_neg h] <;> simp_all

theorem readQuoted_quote (text rest : List Char) :
    readQuoted (text.flatMap escapeChar ++ '"' :: rest) = some (text, rest) := by
  induction text with
  | nil => simp [readQuoted]
  | cons c cs ih =>
    rw [List.flatMap_cons, List.append_assoc, readQuoted_escapeChar, ih]
    rfl

theorem marks_quote (s : String) (rest : List Char) :
    marks (quote s ++ rest) = (marks rest).map (.string s :: ·) := by
  have htext : quote s ++ rest = '"' :: (s.toList.flatMap escapeChar ++ '"' :: rest) := by
    simp [quote]
  rw [htext]
  refine marks_cons rfl ?_
  rw [readMark, readQuoted_quote]
  simp

/-- A text that does not go on with a digit. -/
def EndsNumber (cs : List Char) : Prop := ∀ c ∈ cs.head?, c.isDigit = false

theorem eq_zero_of_head?_toDigits {n : Nat} (h : (Nat.toDigits 10 n).head? = some '0') : n = 0 := by
  induction n using Nat.strongRecOn with
  | ind n ih =>
    rw [Nat.toDigits_eq_if (by decide)] at h
    split at h
    · simpa using h
    · have hhead : (Nat.toDigits 10 (n / 10)).head? = some '0' := by
        rwa [List.head?_append_of_ne_nil _ Nat.toDigits_ne_nil] at h
      have := ih (n / 10) (by omega) hhead
      omega

theorem readNumber_toDigits (n : UInt64) : readNumber (Nat.toDigits 10 n.toNat) = some n := by
  unfold readNumber
  dsimp only
  rw [Nat.ofDigitChars_ten_toDigits, if_neg, if_pos n.toNat_lt, Nat.toUInt64]
  · simp
  · rintro ⟨hzero, hlen⟩
    rw [eq_zero_of_head?_toDigits hzero, Nat.toDigits_zero] at hlen
    exact absurd hlen (by decide)

theorem readMark_digit {c : Char} (h : c.isDigit = true) (cs : List Char) :
    readMark c cs = (readNumber (c :: cs.takeWhile Char.isDigit)).map fun n =>
      (.number n, cs.dropWhile Char.isDigit) := by
  unfold readMark
  split <;> first | cases h | rw [if_pos h]

theorem isSpace_of_isDigit {c : Char} (h : c.isDigit = true) : isSpace c = false := by
  rw [← Bool.not_eq_true]
  intro hs
  simp only [isSpace, Bool.or_eq_true, beq_iff_eq] at hs
  rcases hs with ((rfl | rfl) | rfl) | rfl <;> cases h

theorem marks_number (n : UInt64) {rest : List Char} (h : EndsNumber rest) :
    marks (Nat.toDigits 10 n.toNat ++ rest) = (marks rest).map (.number n :: ·) := by
  have hdigits : ∀ c ∈ Nat.toDigits 10 n.toNat, c.isDigit :=
    fun c hc => Nat.isDigit_of_mem_toDigits (by decide) (by decide) hc
  have hread := readNumber_toDigits n
  obtain ⟨c, cs, hcs⟩ := List.exists_cons_of_ne_nil (Nat.toDigits_ne_nil (n := n.toNat) (b := 10))
  rw [hcs] at hdigits hread
  obtain ⟨hc, hmore⟩ := List.forall_mem_cons.1 hdigits
  have htake : rest.takeWhile Char.isDigit = [] ∧ rest.dropWhile Char.isDigit = rest := by
    cases rest with
    | nil => exact ⟨rfl, rfl⟩
    | cons d ds => simp [h d rfl]
  rw [hcs, List.cons_append]
  refine marks_cons (isSpace_of_isDigit hc) ?_
  rw [readMark_digit hc, List.takeWhile_append_of_pos hmore, List.dropWhile_append_of_pos hmore,
    htake.1, htake.2, List.append_nil, hread]
  rfl

theorem marks_lineBreak (pretty : Bool) (depth : Nat) (rest : List Char) :
    marks (lineBreak pretty depth ++ rest) = marks rest := by
  cases pretty with
  | false => rfl
  | true =>
    have hspaces : ∀ n : Nat, marks (List.replicate n ' ' ++ rest) = marks rest := by
      intro n
      induction n with
      | zero => rfl
      | succ n ih => rw [List.replicate_succ, List.cons_append, marks_space rfl, ih]
    exact (marks_space rfl _).trans (hspaces _)

theorem marks_fieldName (pretty : Bool) (name : String) (rest : List Char) :
    marks (fieldName pretty name ++ rest) =
      (marks rest).map fun ms => .string name :: .colon :: ms := by
  have hcolon : marks ((if pretty then [':', ' '] else [':']) ++ rest) =
      (marks rest).map (.colon :: ·) := by
    cases pretty with
    | false => exact marks_cons rfl rfl
    | true => exact (marks_cons rfl rfl).trans (congrArg _ (marks_space rfl rest))
  rw [fieldName, List.append_assoc, marks_quote, hcolon, Option.map_map]
  rfl

mutual

/-- The marks of a value. -/
def valueMarks : Value → List Mark
  | .null => [.null]
  | .number n => [.number n]
  | .string s => [.string s]
  | .array [] => [.arrayOpen, .arrayClose]
  | .array (v :: vs) => .arrayOpen :: (valueMarks v ++ itemMarks vs ++ [.arrayClose])
  | .object [] => [.objectOpen, .objectClose]
  | .object ((name, v) :: fs) =>
    .objectOpen :: .string name :: .colon :: (valueMarks v ++ fieldMarks fs ++ [.objectClose])

/-- The marks of the items after the first of an array. -/
def itemMarks : List Value → List Mark
  | [] => []
  | v :: vs => .comma :: (valueMarks v ++ itemMarks vs)

/-- The marks of the fields after the first of an object. -/
def fieldMarks : List (String × Value) → List Mark
  | [] => []
  | (name, v) :: fs => .comma :: .string name :: .colon :: (valueMarks v ++ fieldMarks fs)

end

theorem endsNumber_cons {c : Char} (h : c.isDigit = false) (cs : List Char) :
    EndsNumber (c :: cs) := by
  rintro d ⟨⟩
  exact h

theorem endsNumber_lineBreak (pretty : Bool) (depth : Nat) {rest : List Char}
    (h : EndsNumber rest) : EndsNumber (lineBreak pretty depth ++ rest) := by
  cases pretty with
  | false => exact h
  | true => exact endsNumber_cons rfl _

theorem endsNumber_writeItems (pretty : Bool) (depth : Nat) (vs : List Value) {rest : List Char}
    (h : EndsNumber rest) : EndsNumber (writeItems pretty depth vs ++ rest) := by
  cases vs with
  | nil => exact h
  | cons v vs => exact endsNumber_cons rfl _

theorem endsNumber_writeFields (pretty : Bool) (depth : Nat) (fs : List (String × Value))
    {rest : List Char} (h : EndsNumber rest) : EndsNumber (writeFields pretty depth fs ++ rest) := by
  cases fs with
  | nil => exact h
  | cons f fs => exact endsNumber_cons rfl _

mutual

/-- However it is laid out, a value has the same marks. -/
theorem marks_write (pretty : Bool) : (v : Value) → (depth : Nat) → (rest : List Char) →
    EndsNumber rest → marks (write pretty depth v ++ rest) = (marks rest).map (valueMarks v ++ ·)
  | .null, depth, rest, _ => marks_cons rfl (by simp [readMark])
  | .number n, depth, rest, h => marks_number n h
  | .string s, depth, rest, _ => marks_quote s rest
  | .array [], depth, rest, _ => by
    have hclose : marks (']' :: rest) = (marks rest).map (.arrayClose :: ·) := marks_cons rfl rfl
    refine (marks_cons rfl rfl : marks ('[' :: ']' :: rest) = _).trans ?_
    rw [hclose, Option.map_map]
    rfl
  | .array (v :: vs), depth, rest, h => by
    have hclose : marks (']' :: rest) = (marks rest).map (.arrayClose :: ·) := marks_cons rfl rfl
    have hend : EndsNumber (lineBreak pretty depth ++ ']' :: rest) :=
      endsNumber_lineBreak pretty depth (endsNumber_cons rfl rest)
    rw [write]
    simp only [List.cons_append, List.append_assoc, List.nil_append]
    rw [(marks_cons rfl rfl : marks ('[' :: _) = _), marks_lineBreak,
      marks_write pretty v _ _ (endsNumber_writeItems pretty _ vs hend),
      marks_writeItems pretty vs _ _ hend, marks_lineBreak, hclose]
    cases marks rest <;> simp [valueMarks]
  | .object [], depth, rest, _ => by
    have hclose : marks ('}' :: rest) = (marks rest).map (.objectClose :: ·) := marks_cons rfl rfl
    refine (marks_cons rfl rfl : marks ('{' :: '}' :: rest) = _).trans ?_
    rw [hclose, Option.map_map]
    rfl
  | .object ((name, v) :: fs), depth, rest, h => by
    have hclose : marks ('}' :: rest) = (marks rest).map (.objectClose :: ·) := marks_cons rfl rfl
    have hend : EndsNumber (lineBreak pretty depth ++ '}' :: rest) :=
      endsNumber_lineBreak pretty depth (endsNumber_cons rfl rest)
    rw [write]
    simp only [List.cons_append, List.append_assoc, List.nil_append]
    rw [(marks_cons rfl rfl : marks ('{' :: _) = _), marks_lineBreak, marks_fieldName,
      marks_write pretty v _ _ (endsNumber_writeFields pretty _ fs hend),
      marks_writeFields pretty fs _ _ hend, marks_lineBreak, hclose]
    cases marks rest <;> simp [valueMarks]

theorem marks_writeItems (pretty : Bool) : (vs : List Value) → (depth : Nat) →
    (rest : List Char) → EndsNumber rest →
    marks (writeItems pretty depth vs ++ rest) = (marks rest).map (itemMarks vs ++ ·)
  | [], depth, rest, _ => by cases h : marks rest <;> simp [writeItems, itemMarks, h]
  | v :: vs, depth, rest, h => by
    rw [writeItems]
    simp only [List.cons_append, List.append_assoc]
    rw [(marks_cons rfl rfl : marks (',' :: _) = _), marks_lineBreak,
      marks_write pretty v _ _ (endsNumber_writeItems pretty _ vs h),
      marks_writeItems pretty vs _ _ h]
    cases marks rest <;> simp [itemMarks]

theorem marks_writeFields (pretty : Bool) : (fs : List (String × Value)) → (depth : Nat) →
    (rest : List Char) → EndsNumber rest →
    marks (writeFields pretty depth fs ++ rest) = (marks rest).map (fieldMarks fs ++ ·)
  | [], depth, rest, _ => by cases h : marks rest <;> simp [writeFields, fieldMarks, h]
  | (name, v) :: fs, depth, rest, h => by
    rw [writeFields]
    simp only [List.cons_append, List.append_assoc]
    rw [(marks_cons rfl rfl : marks (',' :: _) = _), marks_lineBreak, marks_fieldName,
      marks_write pretty v _ _ (endsNumber_writeFields pretty _ fs h),
      marks_writeFields pretty fs _ _ h]
    cases marks rest <;> simp [fieldMarks]

end

/-! ## Putting marks together -/

/-- An array or an object that is not closed yet: what it holds so far, the last first, and the name
of the field that is read. -/
inductive Frame where
  | items (done : List Value)
  | fields (done : List (String × Value)) (name : String)

mutual

/-- A value is next, inside the arrays and objects that are open. -/
def readValue : List Frame → List Mark → Option Value
  | stack, .null :: ms => readNext stack .null ms
  | stack, .number n :: ms => readNext stack (.number n) ms
  | stack, .string s :: ms => readNext stack (.string s) ms
  | stack, .arrayOpen :: .arrayClose :: ms => readNext stack (.array []) ms
  | stack, .arrayOpen :: ms => readValue (.items [] :: stack) ms
  | stack, .objectOpen :: .objectClose :: ms => readNext stack (.object []) ms
  | stack, .objectOpen :: .string name :: .colon :: ms => readValue (.fields [] name :: stack) ms
  | _, _ => none

/-- What may follow a value that has been read: the next one of the innermost array or object, or its
end. Outside of all, nothing may. -/
def readNext : List Frame → Value → List Mark → Option Value
  | [], v, [] => some v
  | .items done :: stack, v, .comma :: ms => readValue (.items (v :: done) :: stack) ms
  | .items done :: stack, v, .arrayClose :: ms => readNext stack (.array (v :: done).reverse) ms
  | .fields done last :: stack, v, .comma :: .string name :: .colon :: ms =>
    readValue (.fields ((last, v) :: done) name :: stack) ms
  | .fields done last :: stack, v, .objectClose :: ms =>
    readNext stack (.object ((last, v) :: done).reverse) ms
  | _, _, _ => none

end

/-- The value of a JSON text. -/
def parse (text : List Char) : Option Value := (marks text).bind (readValue [])

/-- The value of bytes that are JSON text in UTF-8. -/
def decode (bytes : ByteArray) : Option Value :=
  (String.fromUTF8? bytes).bind fun text => parse text.toList

/-- No value begins with the end of an array. -/
theorem exists_valueMarks (v : Value) : ∃ m ms, valueMarks v = m :: ms ∧ m ≠ .arrayClose := by
  cases v with
  | null | number | string => exact ⟨_, _, rfl, nofun⟩
  | array items => cases items <;> exact ⟨_, _, rfl, nofun⟩
  | object fields => cases fields <;> exact ⟨_, _, rfl, nofun⟩

theorem readValue_arrayOpen (stack : List Frame) (v : Value) (ms : List Mark) :
    readValue stack (.arrayOpen :: (valueMarks v ++ ms)) =
      readValue (.items [] :: stack) (valueMarks v ++ ms) := by
  obtain ⟨m, more, hm, hne⟩ := exists_valueMarks v
  rw [hm, List.cons_append, readValue]
  intro ms' h
  exact hne (List.cons.inj h).1

mutual

/-- The marks of a value are put together to the value. -/
theorem readValue_append : (v : Value) → (stack : List Frame) → (ms : List Mark) →
    readValue stack (valueMarks v ++ ms) = readNext stack v ms
  | .null, stack, ms => by rw [valueMarks, List.singleton_append, readValue]
  | .number n, stack, ms => by rw [valueMarks, List.singleton_append, readValue]
  | .string s, stack, ms => by rw [valueMarks, List.singleton_append, readValue]
  | .array [], stack, ms => by
    simp only [valueMarks, List.cons_append, List.nil_append]
    rw [readValue]
  | .array (v :: vs), stack, ms => by
    simp only [valueMarks, List.cons_append, List.append_assoc, List.nil_append]
    rw [readValue_arrayOpen, readValue_append v, readNext_items vs]
    rfl
  | .object [], stack, ms => by
    simp only [valueMarks, List.cons_append, List.nil_append]
    rw [readValue]
  | .object ((name, v) :: fs), stack, ms => by
    simp only [valueMarks, List.cons_append, List.append_assoc, List.nil_append]
    rw [readValue, readValue_append v, readNext_fields fs]
    rfl

theorem readNext_items : (vs : List Value) → (v : Value) → (done : List Value) →
    (stack : List Frame) → (ms : List Mark) →
    readNext (.items done :: stack) v (itemMarks vs ++ .arrayClose :: ms) =
      readNext stack (.array (done.reverse ++ v :: vs)) ms
  | [], v, done, stack, ms => by
    rw [itemMarks, List.nil_append, readNext, List.reverse_cons]
  | w :: vs, v, done, stack, ms => by
    simp only [itemMarks, List.cons_append, List.append_assoc]
    rw [readNext, readValue_append w, readNext_items vs]
    simp

theorem readNext_fields : (fs : List (String × Value)) → (name : String) → (v : Value) →
    (done : List (String × Value)) → (stack : List Frame) → (ms : List Mark) →
    readNext (.fields done name :: stack) v (fieldMarks fs ++ .objectClose :: ms) =
      readNext stack (.object (done.reverse ++ (name, v) :: fs)) ms
  | [], name, v, done, stack, ms => by
    rw [fieldMarks, List.nil_append, readNext, List.reverse_cons]
  | (next, w) :: fs, name, v, done, stack, ms => by
    simp only [fieldMarks, List.cons_append, List.append_assoc]
    rw [readNext, readValue_append w, readNext_fields fs]
    simp

end

/-- What is written is read back, on one line or indented. -/
theorem decode_render (pretty : Bool) (v : Value) : decode (render pretty v).toUTF8 = some v := by
  have hmarks := marks_write pretty v 0 [] nofun
  have hvalue := readValue_append v [] []
  rw [List.append_nil] at hmarks hvalue
  have hbytes : String.fromUTF8? (render pretty v).toUTF8 = some (render pretty v) :=
    dif_pos (render pretty v).isValidUTF8
  rw [decode, hbytes, Option.bind_some, render, String.toList_ofList, parse, hmarks, marks]
  simp [hvalue, readNext]

end StoryScript.Export.Json

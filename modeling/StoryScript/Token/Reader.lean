import StoryScript.Token.Lookbehind
/-!
# Reading stretches of text

Each reader splits the text ahead into what it takes and what it leaves. A stretch never runs over
the end of its line, and what is taken followed by what is left is the text that was there.
-/

namespace StoryScript

/-- Read up to the first place that satisfies `stop`. -/
def readUntil (stop : Lookbehind → List Char → Bool) :
    Lookbehind → List Char → List Char × List Char
  | _, [] => ([], [])
  | b, c :: cs =>
    if stop b (c :: cs) then ([], c :: cs)
    else
      let r := readUntil stop (b.next c) cs
      (c :: r.1, r.2)

theorem readUntil_append (stop : Lookbehind → List Char → Bool) (b : Lookbehind) (cs : List Char) :
    (readUntil stop b cs).1 ++ (readUntil stop b cs).2 = cs := by
  induction cs generalizing b with
  | nil => rfl
  | cons c cs ih =>
    rw [readUntil]
    split
    · rfl
    · simp [ih]

theorem length_readUntil_le (stop : Lookbehind → List Char → Bool) (b : Lookbehind)
    (cs : List Char) : (readUntil stop b cs).2.length ≤ cs.length := by
  have h := congrArg List.length (readUntil_append stop b cs)
  rw [List.length_append] at h
  omega

/-- A reader that need not stop at once reads something. -/
theorem length_readUntil_lt {stop : Lookbehind → List Char → Bool} {b : Lookbehind} {c : Char}
    {cs : List Char} (h : stop b (c :: cs) = false) :
    (readUntil stop b (c :: cs)).2.length < (c :: cs).length := by
  rw [readUntil, if_neg (by simp [h])]
  exact Nat.lt_succ_of_le (length_readUntil_le stop (b.next c) cs)

/-! ## Text with inline calls -/

/-- How deep inside an inline call a place is. Depth can fall below zero. -/
structure CallNesting where
  depth : Int := 0
  quoted : Bool := false
deriving DecidableEq, Repr

/-- The nesting after a character, or `none` when the character closes the call. -/
def CallNesting.next (n : CallNesting) (escaped : Bool) (c : Char) : Option CallNesting :=
  if escaped then some n
  else if c = '"' then some { n with quoted := !n.quoted }
  else if n.quoted then some n
  else if c = '(' then some { n with depth := n.depth + 1 }
  else if c = ')' then some { n with depth := n.depth - 1 }
  else if c = '}' ∧ n.depth ≤ 0 then none
  else some n

/-- Read text up to the end of the line or to a place that satisfies `stop` and lies in no inline
call. The letters that open a call nest nothing, so a call is entered at its brace. -/
def readText (stop : Lookbehind → List Char → Bool) :
    Option CallNesting → Lookbehind → List Char → List Char × List Char
  | _, _, [] => ([], [])
  | nesting, b, c :: cs =>
    if atLineEnd (c :: cs) then ([], c :: cs)
    else
      match nesting with
      | some n =>
        let r := readText stop (n.next b.escaped c) (b.next c) cs
        (c :: r.1, r.2)
      | none =>
        if b.atInlineCall (c :: cs) then
          let r := readText stop (some {}) (b.next c) cs
          (c :: r.1, r.2)
        else if stop b (c :: cs) then ([], c :: cs)
        else
          let r := readText stop none (b.next c) cs
          (c :: r.1, r.2)

theorem readText_append (stop : Lookbehind → List Char → Bool) (nesting : Option CallNesting)
    (b : Lookbehind) (cs : List Char) :
    (readText stop nesting b cs).1 ++ (readText stop nesting b cs).2 = cs := by
  induction cs generalizing nesting b with
  | nil => cases nesting <;> rfl
  | cons c cs ih =>
    cases nesting with
    | some n =>
      rw [readText]
      split
      · rfl
      · simp [ih]
    | none =>
      rw [readText]
      split
      · rfl
      · split
        · simp [ih]
        · split
          · rfl
          · simp [ih]

theorem length_readText_le (stop : Lookbehind → List Char → Bool) (nesting : Option CallNesting)
    (b : Lookbehind) (cs : List Char) : (readText stop nesting b cs).2.length ≤ cs.length := by
  have h := congrArg List.length (readText_append stop nesting b cs)
  rw [List.length_append] at h
  omega

/-- Inside a line, a text that need not stop at once is not empty. -/
theorem length_readText_lt {stop : Lookbehind → List Char → Bool} {b : Lookbehind} {c : Char}
    {cs : List Char} (hl : atLineEnd (c :: cs) = false) (h : stop b (c :: cs) = false) :
    (readText stop none b (c :: cs)).2.length < (c :: cs).length := by
  rw [readText, if_neg (by simp [hl])]
  simp only [h]
  split <;> exact Nat.lt_succ_of_le (length_readText_le ..)

/-! ## Argument lists -/

/-- The fields of an argument list, cut at its commas, whether its parenthesis closed, and the text
after it. -/
structure ArgumentList where
  first : List Char
  others : List (List Char)
  closed : Bool
  rest : List Char
deriving DecidableEq, Repr

namespace ArgumentList

/-- One more character in front of the first field. -/
def push (c : Char) (l : ArgumentList) : ArgumentList := { l with first := c :: l.first }

/-- A comma in front: a field begins. -/
def cut (l : ArgumentList) : ArgumentList :=
  { l with first := [], others := l.first :: l.others }

/-- The list as it stands in the source, behind its opening parenthesis. -/
def text (l : ArgumentList) : List Char :=
  l.first ++ l.others.flatMap (',' :: ·) ++ if l.closed then [')'] else []

@[simp] theorem text_push (c : Char) (l : ArgumentList) : (l.push c).text = c :: l.text := rfl

@[simp] theorem text_cut (l : ArgumentList) : l.cut.text = ',' :: l.text := rfl

@[simp] theorem text_unclosed (rest : List Char) : text ⟨[], [], false, rest⟩ = [] := rfl

@[simp] theorem text_closed (rest : List Char) : text ⟨[], [], true, rest⟩ = [')'] := rfl

@[simp] theorem rest_push (c : Char) (l : ArgumentList) : (l.push c).rest = l.rest := rfl

@[simp] theorem rest_cut (l : ArgumentList) : l.cut.rest = l.rest := rfl

end ArgumentList

/-- Read an argument list behind its opening parenthesis. Commas cut where one parenthesis is open
and no quote is, and the list has to close on its line. -/
def readArguments (depth : Nat) (quoted : Bool) (b : Lookbehind) : List Char → ArgumentList
  | [] => ⟨[], [], false, []⟩
  | c :: cs =>
    if atLineEnd (c :: cs) then ⟨[], [], false, c :: cs⟩
    else if b.escaped then (readArguments depth quoted (b.next c) cs).push c
    else if c = '"' then (readArguments depth (!quoted) (b.next c) cs).push c
    else if quoted then (readArguments depth quoted (b.next c) cs).push c
    else if c = '(' then (readArguments (depth + 1) quoted (b.next c) cs).push c
    else if c = ')' then
      if depth ≤ 1 then ⟨[], [], true, cs⟩
      else (readArguments (depth - 1) quoted (b.next c) cs).push c
    else if c = ',' ∧ depth = 1 then (readArguments depth quoted (b.next c) cs).cut
    else (readArguments depth quoted (b.next c) cs).push c

theorem readArguments_append (depth : Nat) (quoted : Bool) (b : Lookbehind) (cs : List Char) :
    (readArguments depth quoted b cs).text ++ (readArguments depth quoted b cs).rest = cs := by
  induction cs generalizing depth quoted b with
  | nil => rfl
  | cons c cs ih =>
    rw [readArguments]
    repeat' split
    all_goals simp [*]

theorem length_readArguments_le (depth : Nat) (quoted : Bool) (b : Lookbehind) (cs : List Char) :
    (readArguments depth quoted b cs).rest.length ≤ cs.length := by
  have h := congrArg List.length (readArguments_append depth quoted b cs)
  rw [List.length_append] at h
  omega

end StoryScript

import StoryScript.Proofs.Source.Place
import StoryScript.Token
/-!
# Reading by index, with guards

Tokens can be read by their indices and texts by their bytes. Then an index can be out of range, a
window can lie askew, a cut can fall into a character, and a loop or a recursion can go on without end.
A guarded computation gives a result or tells which guard fired. `At` says which tokens an index and a
stop stand for, and from it follows what the guarded accesses give.
-/

namespace StoryScript.Indexed

open Token (Kind)

/-- The guards. -/
inductive Fault where
  /-- A loop took more turns than it is allowed: one for each token and one more in a block, four for
  each byte and some more in a source. -/
  | ceiling
  /-- A window that does not lie in the tokens. -/
  | window
  /-- A token that is not there. -/
  | index
  /-- A count of levels or of open parentheses that would fall below zero. -/
  | level
  /-- A part of a text that is not there or begins or ends inside a character. -/
  | slice
  /-- A loop in a text that took a turn without reading anything, or more turns than the text has
  bytes, and one more. -/
  | turns
  /-- A body inside of more bodies than there are tokens. -/
  | depth
deriving DecidableEq, Repr

/-- A result or a guard that fired. -/
abbrev Guarded := Except Fault

/-! ## Tokens -/

/-- The token at an index. -/
def tokenAt (tokens : List Token) (i : Nat) : Guarded Token :=
  match tokens[i]? with
  | some t => pure t
  | none => throw .index

/-- The kind at an index, if that lies before the stop and in the tokens. -/
def kindAt (tokens : List Token) (i stop : Nat) : Option Kind :=
  if i < stop then tokens[i]?.map Token.kind else none

/-- A loop that goes on only where it finds a token comes nearer to its stop. -/
theorem sub_lt_of_kindAt {tokens : List Token} {i stop : Nat} {kind : Kind}
    (h : kindAt tokens i stop = some kind) : stop - (i + 1) < stop - i := by
  rw [kindAt] at h
  split at h
  · omega
  · cases h

/-- Fail unless a window lies in the tokens. -/
def checkWindow (tokens : List Token) (start stop : Nat) : Guarded Unit :=
  if start ≤ stop ∧ stop ≤ tokens.length then pure () else throw .window

/-- The tokens of a window. -/
def window (tokens : List Token) (start stop : Nat) : Guarded (List Token) := do
  checkWindow tokens start stop
  return (tokens.take stop).drop start

/-- The tokens from an index up to a stop. -/
def At (tokens : List Token) (i stop : Nat) (ts : List Token) : Prop :=
  ∃ before after, tokens = before ++ ts ++ after ∧ before.length = i ∧ i + ts.length = stop

namespace At

variable {tokens ts as bs : List Token} {t : Token} {i j stop : Nat}

theorem le (h : At tokens i stop ts) : i ≤ stop := by
  obtain ⟨before, after, -, -, hstop⟩ := h
  omega

theorem le_length (h : At tokens i stop ts) : stop ≤ tokens.length := by
  obtain ⟨before, after, rfl, hi, hstop⟩ := h
  simp only [List.length_append]
  omega

theorem add_length (h : At tokens i stop ts) : i + ts.length = stop := by
  obtain ⟨before, after, -, -, hstop⟩ := h
  exact hstop

theorem of_append_left (h : At tokens i stop (as ++ bs)) : At tokens i (i + as.length) as := by
  obtain ⟨before, after, rfl, hi, -⟩ := h
  exact ⟨before, bs ++ after, by simp, hi, rfl⟩

theorem of_append_right (h : At tokens i stop (as ++ bs)) : At tokens (i + as.length) stop bs := by
  obtain ⟨before, after, rfl, hi, hstop⟩ := h
  refine ⟨before ++ as, after, by simp, by simp [hi], ?_⟩
  rw [← hstop, List.length_append]
  omega

theorem tail (h : At tokens i stop (t :: ts)) : At tokens (i + 1) stop ts :=
  of_append_right (show At tokens i stop ([t] ++ ts) from h)

theorem getElem?_eq (h : At tokens i stop (t :: ts)) : tokens[i]? = some t := by
  obtain ⟨before, after, rfl, rfl, -⟩ := h
  simp

theorem lt (h : At tokens i stop (t :: ts)) : i < stop := by
  have hstop := h.add_length
  rw [List.length_cons] at hstop
  omega

theorem eq_stop (h : At tokens i stop []) : i = stop := h.add_length

theorem not_lt (h : At tokens i stop []) : ¬ i < stop := by
  rw [h.eq_stop]
  omega

theorem length_le (h : At tokens i stop ts) : ts.length ≤ tokens.length := by
  have hstop := h.add_length
  have hle := h.le_length
  omega

theorem tokenAt_eq (h : At tokens i stop (t :: ts)) : tokenAt tokens i = pure t := by
  rw [tokenAt, h.getElem?_eq]

theorem kindAt_cons (h : At tokens i stop (t :: ts)) : kindAt tokens i stop = some t.kind := by
  rw [kindAt, if_pos h.lt, h.getElem?_eq]
  rfl

theorem kindAt_nil (h : At tokens i stop []) : kindAt tokens i stop = none :=
  if_neg h.not_lt

theorem kindAt_eq (h : At tokens i stop ts) : kindAt tokens i stop = ts.head?.map Token.kind := by
  cases ts with
  | nil => exact h.kindAt_nil
  | cons t ts => exact h.kindAt_cons

theorem checkWindow_eq (h : At tokens i stop ts) : checkWindow tokens i stop = pure () :=
  if_pos ⟨h.le, h.le_length⟩

theorem drop_take (h : At tokens i stop ts) : (tokens.take stop).drop i = ts := by
  obtain ⟨before, after, rfl, rfl, rfl⟩ := h
  rw [← List.length_append, List.take_left, List.drop_left]

theorem window_eq (h : At tokens i stop ts) : window tokens i stop = pure ts := by
  rw [window, h.checkWindow_eq, h.drop_take]
  rfl

/-- The tokens between two indices with one stop. -/
theorem of_right (h : At tokens i stop (as ++ bs)) (hj : At tokens j stop bs) : j = i + as.length := by
  have hi := h.add_length
  have hstop := hj.add_length
  rw [List.length_append] at hi
  omega

end At

/-! ## Texts -/

/-- The part of a text between two bytes. -/
def sliceText (text : List Char) (start stop : Nat) : Guarded (List Char) :=
  match if start ≤ stop then (dropBytes start text).bind (takeBytes (stop - start)) else none with
  | some part => pure part
  | none => throw .slice

theorem sliceText_eq (before part after : List Char) :
    sliceText (before ++ part ++ after) (String.utf8Len before)
      (String.utf8Len (before ++ part)) = pure part := by
  have hlen : String.utf8Len (before ++ part) - String.utf8Len before = String.utf8Len part := by
    rw [String.utf8Len_append]
    omega
  rw [sliceText, if_pos (by rw [String.utf8Len_append]; omega), hlen, List.append_assoc,
    dropBytes_append, Option.bind_some, takeBytes_append]

/-- Half a character is no part of a text. -/
example : sliceText ['é'] 0 1 = throw .slice := rfl

theorem utf8Len_pos {cs : List Char} (h : cs ≠ []) : 0 < String.utf8Len cs := by
  obtain ⟨c, cs, rfl⟩ := List.exists_cons_of_ne_nil h
  have := c.utf8Size_pos
  rw [String.utf8Len_cons]
  omega

theorem sliceText_left (before after : List Char) :
    sliceText (before ++ after) 0 (String.utf8Len before) = pure before :=
  sliceText_eq [] before after

theorem sliceText_right (before after : List Char) :
    sliceText (before ++ after) (String.utf8Len before) (String.utf8Len (before ++ after)) =
      pure after := by
  have h := sliceText_eq before after []
  rwa [List.append_nil] at h

theorem length_le_utf8Len (cs : List Char) : cs.length ≤ String.utf8Len cs := by
  induction cs with
  | nil => exact Nat.le_refl _
  | cons c cs ih =>
    have := c.utf8Size_pos
    rw [List.length_cons, String.utf8Len_cons]
    omega

end StoryScript.Indexed

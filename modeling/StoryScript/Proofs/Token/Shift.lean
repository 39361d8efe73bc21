import StoryScript.Proofs.Source.Place
import StoryScript.Proofs.Token.Lines
/-!
# Tokens moved by lines

Text that is put before a source in whole lines moves every place of it by the bytes and the lines of
that text and leaves the columns (`advance_wholeLines`). Pieces that stand at a moved place have the
same tokens, moved (`place_shift`).
-/

namespace StoryScript

/-- The place so many bytes and lines on. -/
def Position.shift (bytes lines : Nat) (p : Position) : Position :=
  ⟨p.offset + bytes, p.line + lines, p.column⟩

/-- The span with both ends moved. -/
def Span.shift (bytes lines : Nat) (s : Span) : Span :=
  ⟨s.start.shift bytes lines, s.stop.shift bytes lines⟩

/-- The token with its span moved. -/
def Token.shift (bytes lines : Nat) (t : Token) : Token :=
  { t with span := t.span.shift bytes lines }

section
variable (bytes lines : Nat)

namespace Position

theorem next_shift (p : Position) (c : Char) :
    (p.shift bytes lines).next c = (p.next c).shift bytes lines := by
  unfold next
  split
  · simp only [shift, Nat.add_right_comm]
  · simp only [shift, Nat.add_right_comm]

theorem advance_shift (p : Position) (text : List Char) :
    (p.shift bytes lines).advance text = (p.advance text).shift bytes lines := by
  induction text generalizing p with
  | nil => rfl
  | cons c cs ih => rw [advance_cons, advance_cons, next_shift, ih]

end Position

theorem Span.ofText_shift (p : Position) (text : List Char) :
    Span.ofText (p.shift bytes lines) text = (Span.ofText p text).shift bytes lines := by
  rw [ofText, Position.advance_shift]
  rfl

namespace Piece

theorem fieldToken_shift (p : Position) (field : List Char) :
    fieldToken (p.shift bytes lines) field =
      (fieldToken p field).map (Token.shift bytes lines) := by
  unfold fieldToken
  split
  · rfl
  · rw [Position.advance_shift, Span.ofText_shift]
    rfl

theorem fieldTokens_shift (p : Position) (fields : List (List Char)) :
    fieldTokens (p.shift bytes lines) fields =
      (fieldTokens p fields).map (Token.shift bytes lines) := by
  induction fields generalizing p with
  | nil => rfl
  | cons field fields ih =>
    rw [fieldTokens, fieldTokens, List.map_append, Position.next_shift, fieldToken_shift,
      Position.advance_shift, ih]

theorem tokens_shift (p : Position) (piece : Piece) :
    piece.tokens (p.shift bytes lines) = (piece.tokens p).map (Token.shift bytes lines) := by
  cases piece with
  | covered text kinds =>
    rw [tokens, tokens, Span.ofText_shift, List.map_map]
    rfl
  | arguments list =>
    rw [tokens, tokens, List.map_append, List.map_append, Position.next_shift, fieldToken_shift,
      Position.advance_shift, fieldTokens_shift]
    congr 1
    split
    · rfl
    · dsimp only
      rw [Span.ofText_shift]
      rfl

/-- Pieces at a moved place have their tokens moved. -/
theorem place_shift (p : Position) (pieces : List Piece) :
    place (p.shift bytes lines) pieces = (place p pieces).map (Token.shift bytes lines) := by
  induction pieces generalizing p with
  | nil => rfl
  | cons piece pieces ih =>
    rw [place, place, List.map_append, tokens_shift, Position.advance_shift, ih]

end Piece

end

/-- Whole lines lead to the first column, so many bytes and lines on. -/
theorem Position.advance_wholeLines {cs : List Char} (h : WholeLines cs) {p : Position}
    (hp : p.column = 1) : p.advance cs = p.shift (String.utf8Len cs) (cs.count '\n') := by
  have hline : (p.advance cs).line = p.line + cs.count '\n' := by
    clear h hp
    induction cs generalizing p with
    | nil => rfl
    | cons c cs ih =>
      rw [advance_cons, ih, next, List.count_cons]
      by_cases hc : c = '\n'
      · simp only [hc, if_true, beq_self_eq_true]
        omega
      · simp [hc]
  have hcolumn : (p.advance cs).column = 1 := by
    rcases h with rfl | h
    · exact hp
    · obtain ⟨init, rfl⟩ := List.getLast?_eq_some_iff.1 h
      rw [advance_append]
      rfl
  have hoffset := offset_advance p cs
  rw [shift, ← hline, ← hoffset, hp, ← hcolumn]

end StoryScript

import StoryScript.Proofs.LineEnds.Lexer
/-!
# Tokens without their offsets

A carriage return at the end of a line moves the offsets of all that follows, but no line and no
column. What is left of a place when its offset is dropped (`bare`) is the same for both texts, and so
are the tokens up to their offsets (`tokenize_withReturns`).
-/

namespace StoryScript

open Token (Kind)

/-- The line and the column of a place. -/
def Position.bare (p : Position) : Position := { p with offset := 0 }

/-- A span by the lines and columns of its ends. -/
def Span.bare (s : Span) : Span := ⟨s.start.bare, s.stop.bare⟩

/-- A token by its kind and the lines and columns of its ends. -/
def Token.bare (t : Token) : Token := { t with span := t.span.bare }

namespace Position

variable {p q : Position}

theorem bare_eq_iff : p.bare = q.bare ↔ p.line = q.line ∧ p.column = q.column := by
  simp [bare]

theorem bare_next (h : p.bare = q.bare) (c : Char) : (p.next c).bare = (q.next c).bare := by
  rw [bare_eq_iff] at h ⊢
  unfold next
  split <;> simp [h.1, h.2]

theorem bare_advance (h : p.bare = q.bare) (text : List Char) :
    (p.advance text).bare = (q.advance text).bare := by
  induction text generalizing p q with
  | nil => exact h
  | cons c cs ih => exact ih (bare_next h c)

/-- The column that a carriage return takes is given back by the line feed behind it. -/
theorem bare_advance_withReturns (h : p.bare = q.bare) (text : List Char) :
    (p.advance (withReturns text)).bare = (q.advance text).bare := by
  induction text generalizing p q with
  | nil => exact h
  | cons c cs ih =>
    by_cases hc : c = '\n'
    · subst hc
      refine ih (p := (p.next '\r').next '\n') ?_
      rw [bare_eq_iff] at h ⊢
      simp [next, h.1]
    · rw [withReturns_cons hc, advance_cons, advance_cons]
      exact ih (bare_next h c)

end Position

namespace Span

theorem bare_ofText {p q : Position} (h : p.bare = q.bare) (text : List Char) :
    (ofText p text).bare = (ofText q text).bare := by
  rw [bare, bare, ofText, ofText, h, Position.bare_advance h]

theorem bare_ofText_withReturns {p q : Position} (h : p.bare = q.bare) (text : List Char) :
    (ofText p (withReturns text)).bare = (ofText q text).bare := by
  rw [bare, bare, ofText, ofText, h, Position.bare_advance_withReturns h]

end Span

namespace Piece

variable {p q : Position}

theorem bare_fieldToken (h : p.bare = q.bare) (field : List Char) :
    (fieldToken p field).map Token.bare = (fieldToken q field).map Token.bare := by
  unfold fieldToken
  split
  · rfl
  · simp [Token.bare, Span.bare_ofText (Position.bare_advance h (Text.leading field))]

theorem bare_fieldTokens (h : p.bare = q.bare) (fields : List (List Char)) :
    (fieldTokens p fields).map Token.bare = (fieldTokens q fields).map Token.bare := by
  induction fields generalizing p q with
  | nil => rfl
  | cons field fields ih =>
    have hnext := Position.bare_next h ','
    rw [fieldTokens, fieldTokens, List.map_append, List.map_append, bare_fieldToken hnext,
      ih (Position.bare_advance hnext field)]

theorem bare_tokens_withReturns (h : p.bare = q.bare) (piece : Piece) :
    (piece.withReturns.tokens p).map Token.bare = (piece.tokens q).map Token.bare := by
  cases piece with
  | covered text kinds =>
    simp only [withReturns, tokens, List.map_map]
    refine List.map_congr_left fun k _ => ?_
    simp [Token.bare, Span.bare_ofText_withReturns h]
  | arguments list =>
    have hnext := Position.bare_next h '('
    simp only [withReturns, ArgumentList.withReturns, tokens, List.map_append,
      bare_fieldToken hnext, bare_fieldTokens (Position.bare_advance hnext list.first)]
    congr 1
    split
    · rfl
    · simp [Token.bare, ArgumentList.text, Span.bare_ofText h]

theorem bare_place_withReturns (h : p.bare = q.bare) (pieces : List Piece) :
    (place p (pieces.map withReturns)).map Token.bare = (place q pieces).map Token.bare := by
  induction pieces generalizing p q with
  | nil => rfl
  | cons piece pieces ih =>
    have hnext : (p.advance piece.withReturns.text).bare = (q.advance piece.text).bare := by
      cases piece with
      | covered text kinds => exact Position.bare_advance_withReturns h text
      | arguments list => exact Position.bare_advance h ('(' :: list.text)
    rw [List.map_cons, place, place, List.map_append, List.map_append, bare_tokens_withReturns h,
      ih hnext]

end Piece

/-- The tokens of a text are the same, up to their offsets, if its lines end with carriage returns. -/
theorem tokenize_withReturns {cs : List Char} (h : NoReturns cs) :
    (tokenize (String.ofList (withReturns cs))).map Token.bare =
      (tokenize (String.ofList cs)).map Token.bare := by
  rw [tokenize, tokenize, String.toList_ofList, String.toList_ofList, Lexer.run_withReturns _ h,
    Piece.settle_withReturns, Piece.bare_place_withReturns rfl]

end StoryScript

import StoryScript.Proofs.Source.Place
import StoryScript.Proofs.Token.Reading
/-!
# Where tokens stand

Pieces follow each other without a gap, so a token's span is found by walking over the texts before
it, and the text of the span is the token's lexeme (`lexeme_of_mem_tokenize`). This holds through
trimmed texts, argument lists and the ends of replicas that were moved.
-/

namespace StoryScript

open Token (Kind)

/-! ## Tokens in a text -/

/-- The token covers a part of the text that stands at `p`, and that part is its lexeme. -/
def Token.Lies (p : Position) (cs : List Char) (t : Token) : Prop :=
  ∃ before text after, cs = before ++ text ++ after ∧
    t.span = Span.ofText (p.advance before) text ∧ t.kind.Lexeme text

theorem Token.Lies.append_right {p : Position} {cs : List Char} {t : Token} (h : t.Lies p cs)
    (ds : List Char) : t.Lies p (cs ++ ds) := by
  obtain ⟨before, text, after, rfl, hspan, hlex⟩ := h
  exact ⟨before, text, after ++ ds, by simp, hspan, hlex⟩

theorem Token.Lies.append_left {p : Position} {cs : List Char} {t : Token} (ds : List Char)
    (h : t.Lies (p.advance ds) cs) : t.Lies p (ds ++ cs) := by
  obtain ⟨before, text, after, rfl, hspan, hlex⟩ := h
  exact ⟨ds ++ before, text, after, by simp, by rw [hspan, Position.advance_append], hlex⟩

namespace Piece

theorem lies_of_mem_fieldToken {p : Position} {field : List Char} {t : Token}
    (h : t ∈ fieldToken p field) : t.Lies p field := by
  unfold fieldToken at h
  split at h
  · cases h
  · rw [List.mem_singleton.1 h]
    exact ⟨Text.leading field, Text.trim field, _, (Text.margins_append field).symm, rfl,
      by simp [Kind.Lexeme]⟩

theorem lies_of_mem_fieldTokens {p : Position} {fields : List (List Char)} {t : Token}
    (h : t ∈ fieldTokens p fields) : t.Lies p (fields.flatMap (',' :: ·)) := by
  induction fields generalizing p with
  | nil => cases h
  | cons field fields ih =>
    rw [List.flatMap_cons]
    rcases List.mem_append.1 h with h | h
    · exact ((lies_of_mem_fieldToken h).append_left [',']).append_right _
    · exact (ih h).append_left (',' :: field)

/-- Arguments lie in their list, and so does the error of a list that does not close. -/
theorem lies_of_mem_arguments {p : Position} {list : ArgumentList} {t : Token}
    (h : t ∈ (arguments list).tokens p) : t.Lies p ('(' :: list.text) := by
  simp only [tokens, List.mem_append] at h
  rcases h with (h | h) | h
  · rw [ArgumentList.text, List.append_assoc]
    exact ((lies_of_mem_fieldToken h).append_right _).append_left ['(']
  · rw [ArgumentList.text]
    exact ((lies_of_mem_fieldTokens h).append_left ('(' :: list.first)).append_right _
  · split at h
    · cases h
    · rw [List.mem_singleton.1 h]
      exact ⟨[], Text.trimEnd ('(' :: list.text), Text.trailing ('(' :: list.text),
        (Text.trimEnd_append_trailing _).symm, rfl, by simp [Kind.Lexeme]⟩

theorem lies_of_mem_tokens {p : Position} {piece : Piece} (hf : piece.Faithful) {t : Token}
    (h : t ∈ piece.tokens p) : t.Lies p piece.text := by
  cases piece with
  | covered text kinds =>
    obtain ⟨k, hk, rfl⟩ := List.mem_map.1 h
    exact ⟨[], text, [], by simp, rfl, hf k hk⟩
  | arguments list => exact lies_of_mem_arguments h

theorem lies_of_mem_place {p : Position} {pieces : List Piece}
    (hf : ∀ piece ∈ pieces, piece.Faithful) {t : Token} (h : t ∈ place p pieces) :
    t.Lies p (texts pieces) := by
  induction pieces generalizing p with
  | nil => cases h
  | cons piece pieces ih =>
    rw [texts_cons]
    rcases List.mem_append.1 h with h | h
    · exact (lies_of_mem_tokens (hf piece (by simp)) h).append_right _
    · exact (ih (fun q hq => hf q (by simp [hq])) h).append_left piece.text

end Piece

theorem lies_of_mem_tokenize {source : String} {t : Token} (h : t ∈ tokenize source) :
    t.Lies Position.origin source.toList := by
  have hf : ∀ piece ∈ Piece.settle (Lexer.run {} source.toList), piece.Faithful := by
    intro piece hp
    exact Lexer.faithful_run _ _ piece ((Piece.perm_settle _).mem_iff.1 hp)
  have hlies := Piece.lies_of_mem_place hf h
  rwa [Piece.texts_settle, Lexer.texts_run] at hlies

/-- Every token stands where its span says, and there the source shows its lexeme. -/
theorem lexeme_of_mem_tokenize (source : String) (t : Token) (h : t ∈ tokenize source) :
    t.span.start.offset ≤ t.span.stop.offset ∧ t.span.stop.offset ≤ source.utf8ByteSize ∧
      t.span.start.Coherent source.toList ∧ t.span.stop.Coherent source.toList ∧
      ∃ text, t.span.text? source.toList = some text ∧ t.kind.Lexeme text := by
  obtain ⟨before, text, after, hsource, hspan, hlex⟩ := lies_of_mem_tokenize h
  have hsize : source.utf8ByteSize = String.utf8Len source.toList := by
    rw [← String.utf8ByteSize_ofList, String.ofList_toList]
  rw [hsize, hsource, hspan]
  refine ⟨by simp [Span.ofText], by simp [Span.ofText], ?_, ?_, text, ?_, hlex⟩
  · rw [List.append_assoc]
    exact Position.coherent_advance before (text ++ after)
  · rw [Span.ofText, ← Position.advance_append]
    exact Position.coherent_advance (before ++ text) after
  · exact Span.text?_ofText before text after

/-- An argument behind a line of two-byte letters that ends in a carriage return. -/
theorem lexeme_of_argument :
    let source := "# éé\r\n@call:f( ü )"
    let t : Token := ⟨.argument "ü", ⟨17, 2, 10⟩, ⟨19, 2, 11⟩⟩
    t ∈ tokenize source ∧
      t.span.start.offset ≤ t.span.stop.offset ∧ t.span.stop.offset ≤ source.utf8ByteSize ∧
      t.span.start.Coherent source.toList ∧ t.span.stop.Coherent source.toList ∧
      ∃ text, t.span.text? source.toList = some text ∧ t.kind.Lexeme text :=
  have h : (⟨.argument "ü", ⟨17, 2, 10⟩, ⟨19, 2, 11⟩⟩ : Token) ∈ tokenize "# éé\r\n@call:f( ü )" := by
    decide +kernel
  ⟨h, lexeme_of_mem_tokenize _ _ h⟩

end StoryScript

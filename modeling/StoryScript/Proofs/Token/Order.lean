import StoryScript.Proofs.Token.Lexemes
import StoryScript.Proofs.Token.Units
/-!
# The order of tokens

Pieces follow each other, so the tokens of one piece end where those of the next begin at the latest.
Inside a piece two things can overlap: the levels of one line, which share a span, and the arguments
of a list that does not close, which lie in the span of its error. `pairwise_precedes_place` says that
there is nothing else.
-/

namespace StoryScript

open Token (Kind)

/-! ## Tidy pieces -/

/-- How a text can be covered by tokens: by several only if they are levels of one kind, by none only
if it is blank, and over a line end only by the token of that line end. -/
structure CoveredTidily (text : List Char) (kinds : List Kind) : Prop where
  levels : kinds.Pairwise fun k l => k.isLevel ∧ l = k
  blank : kinds = [] → Text.allBlank text
  newline : '\n' ∈ text → kinds = [.newline]

namespace Piece

/-- What holds of every piece of a source. -/
def Tidy : Piece → Prop
  | covered text kinds => CoveredTidily text kinds
  | arguments list => InLine list.text

@[simp] theorem tidy_gap {text : List Char} :
    (gap text).Tidy ↔ Text.allBlank text ∧ InLine text := by
  constructor
  · intro h
    exact ⟨h.blank rfl, fun hn => nomatch h.newline hn⟩
  · rintro ⟨hb, hl⟩
    exact ⟨.nil, fun _ => hb, fun hn => absurd hn hl⟩

theorem tidy_token {kind : Kind} {text : List Char} (h : InLine text) : (token kind text).Tidy :=
  ⟨List.pairwise_singleton _ _, nofun, fun hn => absurd hn h⟩

@[simp] theorem tidy_mark (kind : Kind) : (mark kind).Tidy := tidy_token List.not_mem_nil

theorem tidy_newline (text : List Char) : (token .newline text).Tidy :=
  ⟨List.pairwise_singleton _ _, nofun, fun _ => rfl⟩

/-- A line goes to one level, so it only enters or only leaves levels. -/
theorem tidy_levels {spacers : List Char} (hs : ∀ c ∈ spacers, isSpacer c) (m n : Nat) :
    (covered spacers (List.replicate (m - n) .indent ++ List.replicate (n - m) .dedent)).Tidy := by
  refine ⟨?_, fun _ => allBlank_of_spacers hs, fun hn => absurd hn (inLine_of_spacers hs)⟩
  have hzero : m - n = 0 ∨ n - m = 0 := by omega
  rcases hzero with h | h
  · rw [h, List.replicate_zero, List.nil_append, List.pairwise_replicate]
    exact .inr ⟨rfl, rfl⟩
  · rw [h, List.replicate_zero, List.append_nil, List.pairwise_replicate]
    exact .inr ⟨rfl, rfl⟩

end Piece

namespace Lexer

open Piece Context

theorem Context.Reads.tidy {f g : Context} {unit : List Piece} (h : f.Reads unit g) :
    ∀ piece ∈ unit, piece.Tidy := by
  have hcall : InLine callMark := by decide
  cases h with
  | newline => simpa using tidy_newline _
  | space hb hl => simp [hb, hl]
  | comment hl | commentText hl | stray hl | choiceText hl | speech _ hl =>
    simpa using tidy_token hl
  | commentOpen | commentClose | header | choice | openReplica | openBound | closeBound =>
    simpa using tidy_token (by decide)
  | levels hs hn => simpa using tidy_levels hs _ _
  | tag hk hl => simpa using tidy_token (hl.cons (by decide))
  | tagValue hk hl hv =>
    simpa using ⟨tidy_token (hl.cons (by decide)), tidy_token hv⟩
  | call hl => simpa using tidy_token (hcall.append hl)
  | callList hl ha => simpa using ⟨tidy_token (hcall.append hl), ha⟩
  | namedHeader hs hl =>
    simpa [allBlank_of_spacers hs, inLine_of_spacers hs] using
      ⟨tidy_token (by decide), tidy_token hl⟩
  | goto hc => simpa using tidy_token (inLine_arrow hc)
  | gotoTarget hc hs hm hml hb hl =>
    simpa [allBlank_of_spacers hs, inLine_of_spacers hs, hm, hml] using
      ⟨tidy_token (inLine_arrow hc), tidy_token hl⟩
  | choiceLine hl =>
    simpa using ⟨tidy_token (by decide), tidy_token hl⟩
  | replicaEnd => simp

theorem Context.ReadsAll.tidy {f g : Context} {pieces : List Piece} (h : f.ReadsAll pieces g) :
    ∀ piece ∈ pieces, piece.Tidy := by
  induction h with
  | nil => exact nofun
  | cons hu _ ih =>
    intro piece hp
    rcases List.mem_append.1 hp with hp | hp
    · exact hu.tidy piece hp
    · exact ih piece hp

theorem tidy_run (s : State) (cs : List Char) : ∀ piece ∈ run s cs, piece.Tidy := by
  obtain ⟨body, f, hrun, hbody, -⟩ := readsAll_run s cs
  intro piece hp
  rw [hrun, closing] at hp
  simp only [List.mem_append, List.mem_replicate, List.mem_singleton] at hp
  rcases hp with hp | ⟨-, rfl⟩ | rfl
  · exact hbody.tidy piece hp
  · exact tidy_mark _
  · exact tidy_mark _

end Lexer

/-! ## Offsets and lines of tokens in a text -/

namespace Token.Lies

variable {p : Position} {cs : List Char} {t : Token}

theorem offset_le_start (h : t.Lies p cs) : p.offset ≤ t.span.start.offset := by
  obtain ⟨before, text, after, -, hspan, -⟩ := h
  simp [hspan, Span.ofText]

theorem stop_le_offset (h : t.Lies p cs) : t.span.stop.offset ≤ (p.advance cs).offset := by
  obtain ⟨before, text, after, rfl, hspan, -⟩ := h
  simp [hspan, Span.ofText]
  omega

theorem line_le_start (h : t.Lies p cs) : p.line ≤ t.span.start.line := by
  obtain ⟨before, text, after, -, hspan, -⟩ := h
  rw [hspan]
  exact p.line_le_advance before

theorem stop_le_line (h : t.Lies p cs) : t.span.stop.line ≤ (p.advance cs).line := by
  obtain ⟨before, text, after, rfl, hspan, -⟩ := h
  rw [hspan, Position.advance_append, Position.advance_append]
  exact Position.line_le_advance _ after

theorem start_line_le_stop (h : t.Lies p cs) : t.span.start.line ≤ t.span.stop.line := by
  obtain ⟨before, text, after, -, hspan, -⟩ := h
  rw [hspan]
  exact Position.line_le_advance _ text

theorem start_lt_stop (h : t.Lies p cs) (hk : t.kind = .newline) :
    t.span.start.line < t.span.stop.line := by
  obtain ⟨before, text, after, -, hspan, hlex⟩ := h
  rw [hspan]
  rw [hk] at hlex
  rcases hlex with rfl | rfl
  · exact Nat.lt_succ_self _
  · exact Nat.lt_succ_self _

end Token.Lies

/-! ## Order -/

/-- Whether a kind is the text of an argument. -/
def Token.Kind.isArgument : Kind → Bool
  | .argument _ => true
  | _ => false

/-- Whether a kind is text that is no token. -/
def Token.Kind.isError : Kind → Bool
  | .error _ => true
  | _ => false

namespace Token

/-- One token ends before the other begins. -/
def Before (t u : Token) : Prop := t.span.stop.offset ≤ u.span.start.offset

/-- One token lies inside the other. -/
def Within (t u : Token) : Prop :=
  u.span.start.offset ≤ t.span.start.offset ∧ t.span.stop.offset ≤ u.span.stop.offset

/-- How an earlier token of a source lies to a later one. -/
def Precedes (t u : Token) : Prop :=
  t.Before u ∨ (t.kind.isLevel ∧ u.kind = t.kind ∧ u.span = t.span) ∨
    (t.kind.isArgument ∧ u.kind.isError ∧ t.Within u)

theorem Precedes.before {t u : Token} (h : t.Precedes u) (hl : t.kind.isLevel = false)
    (ha : t.kind.isArgument = false) : t.Before u := by
  rcases h with h | ⟨h, -⟩ | ⟨h, -⟩
  · exact h
  · exact absurd h (by simp [hl])
  · exact absurd h (by simp [ha])

end Token

namespace Piece

/-- An argument is what is left of a field that is not blank. -/
theorem argument_of_mem_fieldToken {p : Position} {field : List Char} {t : Token}
    (h : t ∈ fieldToken p field) :
    ∃ field, Text.allBlank field = false ∧ t.kind = .argument (String.ofList (Text.trim field)) := by
  unfold fieldToken at h
  split at h
  · cases h
  · next hb =>
    rw [List.mem_singleton.1 h]
    exact ⟨field, by simpa using hb, rfl⟩

theorem argument_of_mem_fieldTokens {p : Position} {fields : List (List Char)} {t : Token}
    (h : t ∈ fieldTokens p fields) :
    ∃ field, Text.allBlank field = false ∧ t.kind = .argument (String.ofList (Text.trim field)) := by
  induction fields generalizing p with
  | nil => cases h
  | cons field fields ih =>
    rcases List.mem_append.1 h with h | h
    · exact argument_of_mem_fieldToken h
    · exact ih h

theorem pairwise_fieldToken (p : Position) (field : List Char) :
    (fieldToken p field).Pairwise Token.Before := by
  unfold fieldToken
  split
  · exact .nil
  · exact List.pairwise_singleton _ _

theorem pairwise_fieldTokens (p : Position) (fields : List (List Char)) :
    (fieldTokens p fields).Pairwise Token.Before := by
  induction fields generalizing p with
  | nil => exact .nil
  | cons field fields ih =>
    refine List.pairwise_append.2 ⟨pairwise_fieldToken _ field, ih _, ?_⟩
    intro t ht u hu
    exact Nat.le_trans (lies_of_mem_fieldToken ht).stop_le_offset
      (lies_of_mem_fieldTokens hu).offset_le_start

/-- The tokens of a list's arguments, without the error of a list that does not close. -/
def argumentTokens (p : Position) (list : ArgumentList) : List Token :=
  fieldToken (p.next '(') list.first ++ fieldTokens ((p.next '(').advance list.first) list.others

/-- The error of a list that does not close. -/
def listError (p : Position) (list : ArgumentList) : Token :=
  ⟨.error (String.ofList (Text.trimEnd ('(' :: list.text))),
    Span.ofText p (Text.trimEnd ('(' :: list.text))⟩

theorem tokens_arguments (p : Position) (list : ArgumentList) :
    (arguments list).tokens p =
      argumentTokens p list ++ if list.closed then [] else [listError p list] := rfl

theorem argument_of_mem_argumentTokens {p : Position} {list : ArgumentList} {t : Token}
    (h : t ∈ argumentTokens p list) :
    ∃ field, Text.allBlank field = false ∧ t.kind = .argument (String.ofList (Text.trim field)) := by
  rcases List.mem_append.1 h with h | h
  · exact argument_of_mem_fieldToken h
  · exact argument_of_mem_fieldTokens h

theorem isArgument_of_mem_argumentTokens {p : Position} {list : ArgumentList} {t : Token}
    (h : t ∈ argumentTokens p list) : t.kind.isArgument := by
  obtain ⟨field, -, hk⟩ := argument_of_mem_argumentTokens h
  rw [hk]
  rfl

theorem pairwise_argumentTokens (p : Position) (list : ArgumentList) :
    (argumentTokens p list).Pairwise Token.Before := by
  refine List.pairwise_append.2 ⟨pairwise_fieldToken _ _, pairwise_fieldTokens _ _, ?_⟩
  intro t ht u hu
  exact Nat.le_trans (lies_of_mem_fieldToken ht).stop_le_offset
    (lies_of_mem_fieldTokens hu).offset_le_start

/-- The error ends no sooner than the arguments, which end with a character that is not blank. -/
theorem within_listError {p : Position} {list : ArgumentList} {t : Token}
    (h : t ∈ argumentTokens p list) : t.Within (listError p list) := by
  have hmem : t ∈ (arguments list).tokens p := List.mem_append_left _ h
  have hlies := lies_of_mem_arguments hmem
  refine ⟨hlies.offset_le_start, ?_⟩
  obtain ⟨before, text, after, htext, hspan, hlex⟩ := hlies
  obtain ⟨field, hb, hk⟩ := argument_of_mem_argumentTokens h
  -- an argument ends with a character that is not blank, which trimming the list cannot reach
  obtain ⟨as, c, htrim, hc⟩ := Text.exists_trim hb
  have hlast : text = as ++ [c] := by
    rw [hk] at hlex
    simpa [Kind.Lexeme, htrim] using hlex
  obtain ⟨more, hmore⟩ := Text.append_prefix_trimEnd hc (before ++ as) after
  rw [List.append_assoc before, ← hlast, ← htext] at hmore
  rw [hspan, listError, ← hmore, Span.ofText, Span.ofText, Position.advance_append _ _ more,
    Position.advance_append]
  simp

theorem pairwise_tokens {piece : Piece} (ht : piece.Tidy) (p : Position) :
    (piece.tokens p).Pairwise Token.Precedes := by
  cases piece with
  | covered text kinds =>
    refine List.pairwise_map.2 (ht.levels.imp fun h => ?_)
    exact .inr (.inl ⟨h.1, h.2, rfl⟩)
  | arguments list =>
    rw [tokens_arguments]
    refine List.pairwise_append.2 ⟨(pairwise_argumentTokens p list).imp .inl, ?_, ?_⟩
    · split
      · exact .nil
      · exact List.pairwise_singleton _ _
    · intro t ht u hu
      split at hu
      · cases hu
      · rw [List.mem_singleton.1 hu]
        exact .inr (.inr ⟨isArgument_of_mem_argumentTokens ht, rfl,
          within_listError ht⟩)

theorem pairwise_precedes_place {pieces : List Piece} (hf : ∀ piece ∈ pieces, piece.Faithful)
    (ht : ∀ piece ∈ pieces, piece.Tidy) (p : Position) :
    (place p pieces).Pairwise Token.Precedes := by
  induction pieces generalizing p with
  | nil => exact .nil
  | cons piece pieces ih =>
    have hf' : ∀ q ∈ pieces, q.Faithful := fun q hq => hf q (by simp [hq])
    refine List.pairwise_append.2 ⟨pairwise_tokens (ht piece (by simp)) p,
      ih hf' (fun q hq => ht q (by simp [hq])) _, ?_⟩
    intro t ht u hu
    exact .inl (Nat.le_trans (lies_of_mem_tokens (hf piece (by simp)) ht).stop_le_offset
      (lies_of_mem_place hf' hu).offset_le_start)

end Piece

end StoryScript

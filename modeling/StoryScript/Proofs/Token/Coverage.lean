import StoryScript.Proofs.Token.Replicas
/-!
# Nothing is lost and nothing is read twice

Every character of a source is in a token, or is blank, or is a mark of an argument list. Every line
feed is in one token of its own. Tokens stand one behind the other, up to levels of one line and lists
that do not close (`coverage_tokenize`).
-/

namespace StoryScript

open Token (Kind)
open Lexer (Context)

theorem Position.line_advance {text : List Char} (h : InLine text) (p : Position) :
    (p.advance text).line = p.line := by
  induction text generalizing p with
  | nil => rfl
  | cons c cs ih =>
    obtain ⟨hc, hcs⟩ := not_or.1 (List.mem_cons.not.1 h)
    rw [advance_cons, ih hcs, next, if_neg (Ne.symm hc)]

theorem Position.line_lt_advance {text : List Char} (h : '\n' ∈ text) (p : Position) :
    p.line < (p.advance text).line := by
  obtain ⟨before, after, rfl⟩ := List.append_of_mem h
  rw [advance_append]
  exact Nat.lt_of_lt_of_le (Nat.lt_succ_of_le (p.line_le_advance before))
    (((p.advance before).next '\n').line_le_advance after)

/-- A character of two texts in a row, or an element of two lists, stands in the first or in the
second. -/
theorem split_append {α : Type} {as bs before after : List α} {c : α}
    (h : as ++ bs = before ++ c :: after) :
    (∃ more, as = before ++ c :: more) ∨
      ∃ more, before = as ++ more ∧ bs = more ++ c :: after := by
  rcases List.append_eq_append_iff.1 h with ⟨more, rfl, hb⟩ | ⟨more, rfl, ha⟩
  · exact .inr ⟨more, rfl, hb⟩
  · cases more with
    | nil => exact .inr ⟨[], by simp, ha.symm⟩
    | cons d more =>
      obtain ⟨rfl, -⟩ := List.cons.inj ha
      exact .inl ⟨more, rfl⟩

/-! ## Lists of arguments stand behind calls -/

namespace Piece

/-- Pieces in which a list of arguments, and nothing else that holds arguments, stands right behind
the token of its call. -/
inductive Called : List Piece → Prop where
  | nil : Called []
  | covered {text : List Char} {kinds : List Kind} {pieces : List Piece} (hp : Called pieces) :
    Called (.covered text kinds :: pieces)
  | list {name : String} {text : List Char} {list : ArgumentList} {pieces : List Piece}
      (hp : Called pieces) :
    Called (.token (.call name) text :: .arguments list :: pieces)

theorem Called.reads {f g : Context} {unit pieces : List Piece} (hu : f.Reads unit g)
    (hp : Called pieces) : Called (unit ++ pieces) := by
  cases hu with
  | callList => exact .list hp
  | _ =>
    repeat' apply Called.covered
    exact hp

theorem InReplica.called {inside pieces : List Piece} (hi : ∀ piece ∈ inside, piece.InReplica)
    (hp : Called pieces) : Called (inside ++ pieces) := by
  induction inside with
  | nil => exact hp
  | cons piece inside ih =>
    obtain ⟨f, g, hu, -, -⟩ := hi piece (by simp)
    have hall := Called.reads hu (ih fun q hq => hi q (by simp [hq]))
    exact hall

theorem Settled.called {m : Lexer.Mode} {pieces tail : List Piece} (h : Settled m pieces)
    (ht : Called tail) : Called (pieces ++ tail) := by
  induction h with
  | nil => exact ht
  | outside hu _ _ _ ih =>
    rw [List.append_assoc]
    exact .reads hu ih
  | replica hi _ _ ih =>
    rw [List.append_assoc]
    exact .covered (InReplica.called hi (.covered ih))

theorem called_closing (n : Nat) : Called (Lexer.closing n) := by
  unfold Lexer.closing
  induction n with
  | zero => exact .covered .nil
  | succ n ih => exact .covered ih

end Piece

/-! ## Every character is accounted for -/

/-- The token covers the byte at an offset. -/
def Token.Covers (t : Token) (offset : Nat) : Prop :=
  t.span.start.offset ≤ offset ∧ offset < t.span.stop.offset

/-- The token is a call that ends in the line of a place and not behind it. -/
def Token.CallsBefore (t : Token) (p : Position) : Prop :=
  (∃ name, t.kind = .call name) ∧ t.span.stop.offset ≤ p.offset ∧ t.span.stop.line = p.line

/-- Every character of a text that stands at `p` is covered by one of the tokens, or is blank, or is
a parenthesis or a comma behind a call in its line. -/
def Accounted (p : Position) (text : List Char) (tokens : List Token) : Prop :=
  ∀ before c after, text = before ++ c :: after →
    (∃ t ∈ tokens, t.Covers (p.advance before).offset) ∨ Text.isBlank c ∨
      (c ∈ ['(', ',', ')'] ∧ ∃ t ∈ tokens, t.CallsBefore (p.advance before))

theorem Token.CallsBefore.advance {t : Token} {p : Position} {text : List Char}
    (h : t.CallsBefore p) (hl : InLine text) : t.CallsBefore (p.advance text) := by
  obtain ⟨hk, ho, hline⟩ := h
  refine ⟨hk, ?_, ?_⟩
  · rw [Position.offset_advance]
    exact Nat.le_add_right_of_le ho
  · rw [Position.line_advance hl, hline]

namespace Accounted

variable {p : Position} {text as bs : List Char} {ts us : List Token}

theorem nil : Accounted p [] ts := by
  intro before c after h
  cases before <;> cases h

theorem subset (h : Accounted p text ts) (hs : ts ⊆ us) : Accounted p text us := by
  intro before c after htext
  rcases h before c after htext with ⟨t, ht, hc⟩ | hb | ⟨hc, t, ht, hcall⟩
  · exact .inl ⟨t, hs ht, hc⟩
  · exact .inr (.inl hb)
  · exact .inr (.inr ⟨hc, t, hs ht, hcall⟩)

theorem append (ha : Accounted p as ts) (hb : Accounted (p.advance as) bs ts) :
    Accounted p (as ++ bs) ts := by
  intro before c after h
  rcases split_append h with ⟨more, hmore⟩ | ⟨more, rfl, hmore⟩
  · exact ha before c more hmore
  · rw [Position.advance_append]
    exact hb more c after hmore

theorem blank (h : Text.allBlank text) : Accounted p text ts := by
  rintro before c after rfl
  exact .inr (.inl (List.all_eq_true.1 h c (by simp)))

/-- A token accounts for its own text. -/
theorem ofText {t : Token} (ht : t ∈ ts) (hspan : t.span = Span.ofText p text) :
    Accounted p text ts := by
  rintro before c after rfl
  refine .inl ⟨t, ht, ?_⟩
  have hc := c.utf8Size_pos
  rw [Token.Covers, hspan]
  simp [Span.ofText]
  omega

theorem delimiter {c : Char} {t : Token} (hc : c ∈ ['(', ',', ')']) (ht : t ∈ ts)
    (hcall : t.CallsBefore p) : Accounted p [c] ts := by
  intro before d after h
  cases before with
  | nil =>
    obtain ⟨rfl, -⟩ := List.cons.inj h
    exact .inr (.inr ⟨hc, t, ht, hcall⟩)
  | cons _ before => cases before <;> cases h

end Accounted

namespace Piece

theorem accounted_fieldToken (p : Position) (field : List Char) :
    Accounted p field (fieldToken p field) := by
  unfold fieldToken
  split
  · next hb => exact .blank hb
  · rw [← Text.margins_append field]
    refine .append (.append (.blank (Text.allBlank_leading _)) ?_)
      (.blank (Text.allBlank_trailing _))
    rw [Text.margins_append]
    exact .ofText (List.mem_singleton_self _) rfl

theorem accounted_fieldTokens {call : Token} {p : Position} {fields : List (List Char)}
    (hc : call.CallsBefore p) (hl : InLine (fields.flatMap (',' :: ·))) :
    Accounted p (fields.flatMap (',' :: ·)) (call :: fieldTokens p fields) := by
  induction fields generalizing p with
  | nil => exact .nil
  | cons field fields ih =>
    have hfield : InLine (',' :: field) := hl.subset (List.subset_append_left _ _)
    have hrest : InLine (fields.flatMap (',' :: ·)) := hl.subset (List.subset_append_right _ _)
    have hcomma : Accounted p [','] (call :: fieldTokens p (field :: fields)) :=
      .delimiter (by decide) List.mem_cons_self hc
    refine .append (hcomma.append ?_) ?_
    · refine (accounted_fieldToken (p.next ',') field).subset ?_
      exact List.Subset.trans (List.subset_append_left _ _) (List.subset_cons_self _ _)
    · refine (ih (hc.advance hfield) hrest).subset ?_
      exact List.cons_subset_cons _ (List.subset_append_right _ _)

/-- The list of a call is accounted for by the call and the list's arguments. -/
theorem accounted_arguments {call : Token} {p : Position} {list : ArgumentList}
    (hc : call.CallsBefore p) (hl : InLine list.text) :
    Accounted p ('(' :: list.text) (call :: argumentTokens p list) := by
  have hfirst : InLine ('(' :: list.first) := by
    refine (hl.subset ?_).cons (by decide)
    exact List.Subset.trans (List.subset_append_left _ _) (List.subset_append_left _ _)
  have hothers : InLine (list.others.flatMap (',' :: ·)) :=
    hl.subset (List.Subset.trans (List.subset_append_right _ _) (List.subset_append_left _ _))
  have hcall := hc.advance hfirst
  have hopen : Accounted p ['('] (call :: argumentTokens p list) :=
    .delimiter (by decide) List.mem_cons_self hc
  have hfields : Accounted p ('(' :: list.first ++ list.others.flatMap (',' :: ·))
      (call :: argumentTokens p list) := by
    refine .append (hopen.append ?_) ?_
    · refine (accounted_fieldToken (p.next '(') list.first).subset ?_
      exact List.Subset.trans (List.subset_append_left _ _) (List.subset_cons_self _ _)
    · refine (accounted_fieldTokens hcall hothers).subset ?_
      exact List.cons_subset_cons _ (List.subset_append_right _ _)
  refine hfields.append ?_
  split
  · refine .delimiter (by decide) List.mem_cons_self ?_
    rw [Position.advance_append]
    exact hcall.advance hothers
  · exact .nil

theorem accounted_place {pieces : List Piece} (h : Called pieces)
    (ht : ∀ piece ∈ pieces, piece.Tidy) (p : Position) :
    Accounted p (texts pieces) (place p pieces) := by
  induction h generalizing p with
  | nil => exact .nil
  | @covered text kinds pieces _ ih =>
    refine .append ?_ ((ih (fun q hq => ht q (by simp [hq])) _).subset (List.subset_append_right _ _))
    cases kinds with
    | nil => exact .blank ((ht (.covered text []) (by simp)).blank rfl)
    | cons k kinds => exact .ofText List.mem_cons_self rfl
  | @list name text list pieces _ ih =>
    have hl : InLine list.text := ht (.arguments list) (by simp)
    have hcall : Token.CallsBefore ⟨.call name, Span.ofText p text⟩ (p.advance text) :=
      ⟨⟨name, rfl⟩, Nat.le_refl _, rfl⟩
    rw [texts_cons, texts_cons, place_token, place, tokens_arguments]
    refine .append (.ofText List.mem_cons_self rfl) (.append ?_ ?_)
    · refine (accounted_arguments hcall hl).subset (List.cons_subset_cons _ ?_)
      exact List.Subset.trans (List.subset_append_left _ _) (List.subset_append_left _ _)
    · refine (ih (fun q hq => ht q (by simp [hq])) _).subset ?_
      exact List.Subset.trans (List.subset_append_right _ _) (List.subset_cons_self _ _)

end Piece

/-! ## Every line feed is one token -/

instance (t : Token) (offset : Nat) : Decidable (t.Covers offset) :=
  inferInstanceAs (Decidable (_ ∧ _))

/-- Among the tokens of a text that stands at `p`, each line feed is covered by one token of a line
end, and each token of a line end covers a line feed. -/
structure LinesEnded (p : Position) (text : List Char) (tokens : List Token) : Prop where
  one : ∀ before after, text = before ++ '\n' :: after →
    tokens.countP (fun t => t.kind = .newline ∧ t.Covers (p.advance before).offset) = 1
  only : ∀ t ∈ tokens, t.kind = .newline →
    ∃ before after, text = before ++ '\n' :: after ∧ t.Covers (p.advance before).offset

theorem Token.Lies.not_covers_behind {p : Position} {cs : List Char} {t : Token} (h : t.Lies p cs)
    {offset : Nat} (ho : (p.advance cs).offset ≤ offset) : ¬ t.Covers offset := by
  intro hc
  have hle := Nat.le_trans h.stop_le_offset ho
  exact absurd hc.2 (Nat.not_lt.2 hle)

theorem Token.Lies.not_covers_ahead {p : Position} {cs : List Char} {t : Token} (h : t.Lies p cs)
    {offset : Nat} (ho : offset < p.offset) : ¬ t.Covers offset := by
  intro hc
  have hlt := Nat.lt_of_lt_of_le ho h.offset_le_start
  exact absurd hc.1 (Nat.not_le.2 hlt)

namespace Piece

/-- A piece with a line feed in it is the token of that line's end. -/
theorem Tidy.eq_newline {piece : Piece} (h : piece.Tidy) (hn : '\n' ∈ piece.text) :
    piece = token .newline piece.text := by
  cases piece with
  | covered text kinds => rw [h.newline hn]; rfl
  | arguments list =>
    rcases List.mem_cons.1 hn with hc | hl
    · exact absurd hc (by decide)
    · exact absurd hl h

theorem countP_newline_place {pieces : List Piece} (hf : ∀ piece ∈ pieces, piece.Faithful)
    (ht : ∀ piece ∈ pieces, piece.Tidy) {p : Position} {before after : List Char}
    (h : texts pieces = before ++ '\n' :: after) :
    (place p pieces).countP
      (fun t => t.kind = .newline ∧ t.Covers (p.advance before).offset) = 1 := by
  induction pieces generalizing p before with
  | nil => cases before <;> cases h
  | cons piece pieces ih =>
    have hf' : ∀ q ∈ pieces, q.Faithful := fun q hq => hf q (by simp [hq])
    rw [texts_cons] at h
    rw [place, List.countP_append]
    rcases split_append h with ⟨more, hmore⟩ | ⟨more, rfl, hmore⟩
    · -- the line feed is in this piece, and everything else starts behind it
      have hsize : String.utf8Len before < String.utf8Len piece.text := by
        rw [hmore, String.utf8Len_append, String.utf8Len_cons]
        have := ('\n').utf8Size_pos
        omega
      have hrest : (place (p.advance piece.text) pieces).countP
          (fun t => t.kind = .newline ∧ t.Covers (p.advance before).offset) = 0 := by
        refine List.countP_eq_zero.2 fun t hmem hc => ?_
        refine (lies_of_mem_place hf' hmem).not_covers_ahead ?_ (of_decide_eq_true hc).2
        simpa using hsize
      have hcovers : Token.Covers ⟨.newline, Span.ofText p piece.text⟩ (p.advance before).offset := by
        simpa [Token.Covers, Span.ofText] using hsize
      have hpiece := (ht piece (by simp)).eq_newline (by simp [hmore])
      have htokens : piece.tokens p = [⟨.newline, Span.ofText p piece.text⟩] := by
        conv => lhs; rw [hpiece]
        rfl
      rw [hrest, htokens, List.countP_singleton, if_pos (by simpa using hcovers)]
    · have hnone : (piece.tokens p).countP
          (fun t => t.kind = .newline ∧ t.Covers (p.advance (piece.text ++ more)).offset) = 0 := by
        refine List.countP_eq_zero.2 fun t hmem hc => ?_
        refine (lies_of_mem_tokens (hf piece (by simp)) hmem).not_covers_behind ?_
          (of_decide_eq_true hc).2
        simp
      rw [hnone, Nat.zero_add, Position.advance_append]
      exact ih hf' (fun q hq => ht q (by simp [hq])) hmore

theorem linesEnded_place {pieces : List Piece} (hf : ∀ piece ∈ pieces, piece.Faithful)
    (ht : ∀ piece ∈ pieces, piece.Tidy) (p : Position) :
    LinesEnded p (texts pieces) (place p pieces) := by
  refine ⟨fun before after h => countP_newline_place hf ht h, ?_⟩
  intro t hmem hk
  obtain ⟨before, text, after, htext, hspan, hlex⟩ := lies_of_mem_place hf hmem
  obtain ⟨start, rfl⟩ : ∃ start, text = start ++ ['\n'] := by
    rw [hk] at hlex
    rcases hlex with rfl | rfl
    · exact ⟨[], rfl⟩
    · exact ⟨['\r'], rfl⟩
  refine ⟨before ++ start, after, by simp [htext], ?_⟩
  have := ('\n').utf8Size_pos
  simp only [Token.Covers, hspan, Span.ofText, Position.advance_append, Position.offset_advance,
    String.utf8Len_cons, String.utf8Len_nil]
  omega

end Piece

/-! ## One token behind the other -/

/-- Tokens that stand one behind the other from an offset on. Levels of one line share a span. A list
of arguments that does not close is an error from its parenthesis on, and the arguments it holds,
which come before it, lie in its span. -/
inductive LaidOut : Nat → List Token → Prop where
  | nil {offset : Nat} : LaidOut offset []
  | token {offset : Nat} {t : Token} {ts : List Token} (h : offset ≤ t.span.start.offset)
      (hs : LaidOut t.span.stop.offset ts) : LaidOut offset (t :: ts)
  | levels {offset n : Nat} {t : Token} {ts : List Token} (hk : t.kind.isLevel)
      (h : offset ≤ t.span.start.offset) (hs : LaidOut t.span.stop.offset ts) :
    LaidOut offset (List.replicate (n + 1) t ++ ts)
  | unclosed {offset : Nat} {call error : Token} {name : String} {text : List Char}
      {args ts : List Token} (hc : call.kind = .call name) (h : offset ≤ call.span.start.offset)
      (hlist : LaidOut call.span.stop.offset args) (hargs : ∀ t ∈ args, t.kind.isArgument)
      (hin : ∀ t ∈ args, t.Within error) (he : error.kind = .error (String.ofList ('(' :: text)))
      (hstart : error.span.start = call.span.stop) (hs : LaidOut error.span.stop.offset ts) :
    LaidOut offset (call :: args ++ error :: ts)

theorem LaidOut.mono {m n : Nat} {ts : List Token} (h : LaidOut n ts) (hm : m ≤ n) :
    LaidOut m ts := by
  cases h with
  | nil => exact .nil
  | token h hs => exact .token (Nat.le_trans hm h) hs
  | levels hk h hs => exact .levels hk (Nat.le_trans hm h) hs
  | unclosed hc h hlist hargs hin he hstart hs =>
    exact .unclosed hc (Nat.le_trans hm h) hlist hargs hin he hstart hs

namespace Piece

theorem laidOut_fieldToken {p : Position} {field : List Char} {ts : List Token}
    (h : LaidOut (p.advance field).offset ts) : LaidOut p.offset (fieldToken p field ++ ts) := by
  unfold fieldToken
  split
  · exact h.mono (by simp)
  · refine .token (by simp [Span.ofText]) (h.mono ?_)
    conv => rhs; rw [← Text.margins_append field]
    simp [Span.ofText]
    omega

theorem laidOut_fieldTokens {p : Position} {fields : List (List Char)} {ts : List Token}
    (h : LaidOut (p.advance (fields.flatMap (',' :: ·))).offset ts) :
    LaidOut p.offset (fieldTokens p fields ++ ts) := by
  induction fields generalizing p with
  | nil => exact h
  | cons field fields ih =>
    rw [fieldTokens, List.append_assoc]
    rw [List.flatMap_cons, Position.advance_append] at h
    have hfield : LaidOut (p.next ',').offset (fieldToken (p.next ',') field ++ _) :=
      laidOut_fieldToken (ih h)
    exact hfield.mono (by simp)

theorem laidOut_argumentTokens {p : Position} {list : ArgumentList} {ts : List Token}
    (h : LaidOut (p.advance ('(' :: list.text)).offset ts) :
    LaidOut p.offset (argumentTokens p list ++ ts) := by
  rw [argumentTokens, List.append_assoc]
  refine (laidOut_fieldToken (laidOut_fieldTokens (h.mono ?_))).mono (by simp)
  simp [ArgumentList.text]
  omega

/-- The tokens of one text are none, one, or levels of one kind. -/
theorem laidOut_covered {p : Position} {text : List Char} {kinds : List Kind} {ts : List Token}
    (ht : (covered text kinds).Tidy) (h : LaidOut (p.advance text).offset ts) :
    LaidOut p.offset ((covered text kinds).tokens p ++ ts) := by
  match kinds, ht.levels with
  | [], _ => exact h.mono (by simp)
  | [k], _ => exact .token (Nat.le_refl _) h
  | k :: l :: kinds, hlevels =>
    obtain ⟨hk, -⟩ := List.pairwise_cons.1 hlevels
    have hall : k :: l :: kinds = List.replicate (kinds.length + 2) k := by
      refine List.eq_replicate_iff.2 ⟨rfl, fun j hj => ?_⟩
      rcases List.mem_cons.1 hj with rfl | hj
      · rfl
      · exact (hk j hj).2
    rw [hall, tokens, List.map_replicate]
    exact .levels (hk l (by simp)).1 (Nat.le_refl _) h

theorem trimEnd_parenthesis (text : List Char) :
    ∃ rest, Text.trimEnd ('(' :: text) = '(' :: rest := by
  obtain ⟨rest, hrest⟩ := Text.append_prefix_trimEnd (c := '(') (by decide) [] text
  exact ⟨rest, hrest.symm⟩

theorem laidOut_place {pieces : List Piece} (h : Called pieces)
    (ht : ∀ piece ∈ pieces, piece.Tidy) (p : Position) : LaidOut p.offset (place p pieces) := by
  induction h generalizing p with
  | nil => exact .nil
  | covered _ ih =>
    exact laidOut_covered (ht _ (by simp)) (ih (fun q hq => ht q (by simp [hq])) _)
  | @list name text list pieces _ ih =>
    have hrest := ih (fun q hq => ht q (by simp [hq])) ((p.advance text).advance ('(' :: list.text))
    rw [place_token, place, tokens_arguments, text_arguments]
    cases list.closed with
    | true =>
      rw [if_pos rfl, List.append_nil]
      exact .token (Nat.le_refl _) (laidOut_argumentTokens hrest)
    | false =>
      -- the error stands behind the arguments and spans them
      obtain ⟨rest, htrim⟩ := trimEnd_parenthesis list.text
      have herror : (listError (p.advance text) list).kind =
          .error (String.ofList ('(' :: rest)) := by
        rw [listError, htrim]
      have hargs : LaidOut (p.advance text).offset (argumentTokens (p.advance text) list ++ []) :=
        laidOut_argumentTokens .nil
      rw [List.append_nil] at hargs
      rw [if_neg (by simp), List.append_assoc]
      refine .unclosed rfl (Nat.le_refl _) hargs (fun t => isArgument_of_mem_argumentTokens)
        (fun t => within_listError) herror rfl (hrest.mono ?_)
      conv => rhs; rw [← Text.trimEnd_append_trailing ('(' :: list.text)]
      simp [listError, Span.ofText]

end Piece

/-- The lexer loses no text and reads none twice. Every character is accounted for, every line feed is
one token, and the tokens stand one behind the other. -/
theorem coverage_tokenize (source : String) :
    Accounted Position.origin source.toList (tokenize source) ∧
      LinesEnded Position.origin source.toList (tokenize source) ∧
      LaidOut 0 (tokenize source) := by
  obtain ⟨pieces, n, htokens, hsettled, htext, hall⟩ := settled_tokenize source
  have hcalled := hsettled.called (Piece.called_closing n)
  have hf : ∀ piece ∈ pieces ++ Lexer.closing n, piece.Faithful := fun q hq => (hall q hq).1
  have ht : ∀ piece ∈ pieces ++ Lexer.closing n, piece.Tidy := fun q hq => (hall q hq).2
  have htexts : Piece.texts (pieces ++ Lexer.closing n) = source.toList := by simp [htext]
  rw [htokens, ← htexts]
  exact ⟨Piece.accounted_place hcalled ht _, Piece.linesEnded_place hf ht _,
    Piece.laidOut_place hcalled ht Position.origin⟩

end StoryScript

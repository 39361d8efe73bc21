import StoryScript.Proofs.Canonical.Lines
import StoryScript.Proofs.Token.Copies
/-!
# Escaped dialogue

Every mark begins with one of the `signs` and counts only where no backslash stands before it. A text
in which a backslash stands before every sign therefore has no place at which a speech could stop:
the whole of it is one speech (`readText_escape`), whatever signs, backslashes and carriage returns
it holds.
-/

namespace StoryScript

open Token (Kind)

/-- The characters a mark begins with, or ends or nests with. -/
def signs : List Char := "@\"`/*-=()#+\x7b\x7d".toList

/-- A text with a backslash before each of its signs. -/
def escape (text : List Char) : List Char :=
  text.flatMap fun c => if c ∈ signs then ['\\', c] else [c]

variable {b : Lookbehind} {c : Char} {cs text : List Char}

theorem escape_cons_sign (hc : c ∈ signs) (text : List Char) :
    escape (c :: text) = '\\' :: c :: escape text := by
  rw [escape, List.flatMap_cons, if_pos hc]
  rfl

theorem escape_cons (hc : c ∉ signs) (text : List Char) :
    escape (c :: text) = c :: escape text := by
  rw [escape, List.flatMap_cons, if_neg hc]
  rfl

theorem subset_escape (text : List Char) : text ⊆ escape text := by
  intro c hc
  refine List.mem_flatMap.2 ⟨c, hc, ?_⟩
  split <;> simp

theorem inLine_escape (h : InLine text) : InLine (escape text) := by
  intro hn
  obtain ⟨c, hc, hmem⟩ := List.mem_flatMap.1 hn
  split at hmem
  · obtain hmem | hmem := List.mem_pair.1 hmem
    · cases hmem
    · exact h (hmem ▸ hc)
  · exact h (List.mem_singleton.1 hmem ▸ hc)

theorem not_allBlank_escape (h : Text.allBlank text = false) :
    Text.allBlank (escape text) = false := by
  obtain ⟨c, hc, hb⟩ := List.all_eq_false.1 h
  exact List.all_eq_false.2 ⟨c, subset_escape text hc, hb⟩

/-! ## No mark stands at an inert place -/

namespace Lookbehind

/-- A backslash stands before the place, or it does not begin with a sign. -/
def Inert (b : Lookbehind) (c : Char) : Prop := b.escaped = true ∨ c ∉ signs

/-- A mark that begins with a sign and stands behind no backslash is not met at an inert place. -/
theorem Inert.not_mark (h : b.Inert c) {mark : Bool} (hs : mark = true → c ∈ signs)
    (hb : mark = true → b.escaped = false) : mark = false := by
  rw [← Bool.not_eq_true]
  intro hm
  rcases h with h | h
  · rw [hb hm] at h
    cases h
  · exact h (hs hm)

theorem Inert.not_atComment (h : b.Inert c) (cs : List Char) : b.atComment (c :: cs) = false := by
  refine h.not_mark (fun hm => ?_) b.escaped_of_atComment
  rcases Bool.or_eq_true_iff.1 hm with hm | hm
  · obtain ⟨ds, hds⟩ := cons_of_atCommentOpen hm
    exact (List.cons.inj hds).1 ▸ by decide
  · obtain ⟨ds, hds⟩ := cons_of_atLineComment hm
    exact (List.cons.inj hds).1 ▸ by decide

theorem Inert.not_endsReplica (h : b.Inert c) (cs : List Char) :
    b.endsReplica (c :: cs) = false := by
  refine h.not_mark (fun hm => ?_) b.escaped_of_endsReplica
  simp only [endsReplica, Bool.or_eq_true] at hm
  rcases hm with (((hm | hm) | hm) | hm) | hm
  · obtain ⟨ds, hds⟩ := cons_of_atReplica hm
    exact (List.cons.inj hds).1 ▸ by decide
  · obtain ⟨ds, hds⟩ := cons_of_atTag hm
    exact (List.cons.inj hds).1 ▸ by decide
  · obtain ⟨ds, hds⟩ := cons_of_atHeader hm
    exact (List.cons.inj hds).1 ▸ by decide
  · obtain ⟨d, ds, hd, hds⟩ := cons_of_atGoto hm
    rcases hd with rfl | rfl
    · exact (List.cons.inj hds).1 ▸ by decide
    · exact (List.cons.inj hds).1 ▸ by decide
  · obtain ⟨ds, hds⟩ := cons_of_atChoice hm
    exact (List.cons.inj hds).1 ▸ by decide

theorem Inert.not_atInlineCall (h : b.Inert c) (cs : List Char) :
    b.atInlineCall (c :: cs) = false := by
  refine h.not_mark (fun hm => ?_) fun hm => ?_
  · obtain ⟨ds, hds⟩ := List.isPrefixOf_iff_prefix.1 (Bool.and_eq_true_iff.1 hm).2
    exact (List.cons.inj hds).1 ▸ by decide
  · simpa using (Bool.and_eq_true_iff.1 hm).1

/-- The first place of an escaped text. -/
theorem inert_head_escape (b : Lookbehind) (h : escape text = c :: cs) : b.Inert c := by
  refine .inr ?_
  cases text with
  | nil => cases h
  | cons d text =>
    by_cases hd : d ∈ signs
    · rw [escape_cons_sign hd] at h
      exact (List.cons.inj h).1 ▸ by decide
    · rw [escape_cons hd] at h
      exact (List.cons.inj h).1 ▸ hd

end Lookbehind

/-! ## Reading an escaped text -/

theorem not_atLineEnd_cons (h : InLine (c :: cs)) : atLineEnd (c :: cs) = false := by
  rw [← Bool.not_eq_true]
  intro hn
  rcases newline_of_atNewline hn with ⟨ds, hds⟩ | ⟨ds, hds⟩ <;> exact h (by simp [hds])

variable {stop : Lookbehind → List Char → Bool}

/-- A reader passes an inert place. -/
theorem readText_cons_inert (hs : ∀ {b c}, b.Inert c → ∀ cs, stop b (c :: cs) = false)
    (h : b.Inert c) (hn : InLine (c :: cs)) :
    readText stop none b (c :: cs) =
      (c :: (readText stop none (b.next c) cs).1, (readText stop none (b.next c) cs).2) := by
  rw [readText]
  simp only [not_atLineEnd_cons hn, h.not_atInlineCall cs, hs h cs, Bool.false_eq_true, if_false]

/-- An escaped text on one line is read to its end, also behind a backslash. -/
theorem readText_escape (hs : ∀ {b c}, b.Inert c → ∀ cs, stop b (c :: cs) = false)
    (hn : InLine text) (b : Lookbehind) :
    readText stop none b (escape text) = (escape text, []) := by
  induction text generalizing b with
  | nil => rfl
  | cons c text ih =>
    have hescape := inLine_escape hn
    have ih := ih (hn.subset (List.subset_cons_self c text))
    by_cases hc : c ∈ signs
    · -- the backslash is no sign, and the sign has it before it
      rw [escape_cons_sign hc] at hescape ⊢
      have hsign : (b.next '\\').Inert c := .inl rfl
      rw [readText_cons_inert hs (.inr (by decide)) hescape,
        readText_cons_inert hs hsign (hescape.subset (List.subset_cons_self _ _)), ih]
    · rw [escape_cons hc] at hescape ⊢
      rw [readText_cons_inert hs (.inr hc) hescape, ih]

namespace Lexer

/-- In a replica an escaped text up to the end of the source is one speech. -/
theorem run_escape {s : State} (hm : s.mode = .replica) (hc : s.inComment = false)
    (hf : s.freshLine = false) (hn : InLine text) (hb : Text.allBlank text = false) :
    run s (escape text) =
      .token (.speech (String.ofList (escape text))) (escape text) ::
        (s.past [.token (.speech (String.ofList (escape text))) (escape text)]).finish := by
  have hline := inLine_escape hn
  have hblank := not_allBlank_escape hb
  have hread := @readText_escape text (fun b cs => b.endsReplica cs || b.atComment cs)
    (fun h cs => by simp [h.not_endsReplica, h.not_atComment]) hn s.behind
  have hinert := @Lookbehind.inert_head_escape
  generalize he : escape text = said at *
  cases said with
  | nil => cases hblank
  | cons c cs =>
    have hinert := hinert s.behind he
    have hcomment := Bool.or_eq_false_iff.1 (hinert.not_atComment cs)
    have hscan : s.scan c cs = s.read [.token (.speech (String.ofList (c :: cs))) (c :: cs)] [] := by
      unfold State.scan
      rw [if_neg (by simp [hc]), hm]
      unfold State.replica
      rw [if_neg (by simp [hinert.not_endsReplica]), if_neg (by simp [hcomment.1]),
        if_neg (by simp [hcomment.2])]
      simp [hread, hblank]
    rw [Canonical.run_scan hf (not_atLineEnd_cons hline), hscan, State.rest_read, run]
    rfl

end Lexer

/-- Escaped dialogue is inert: it is one speech, and nothing of it is anything else. -/
theorem tokenize_escape (t : String) (hn : '\n' ∉ t.toList) (hb : Text.isBlankText t = false) :
    let said := escape t.toList
    let start := Position.origin.advance ['"', ' ']
    let stop := start.advance said
    tokenize ("\" " ++ String.ofList said) =
      [⟨.replicaBegin, ⟨Position.origin, start⟩⟩, ⟨.speech (String.ofList said), ⟨start, stop⟩⟩,
        ⟨.replicaEnd, ⟨stop, stop⟩⟩, ⟨.eof, ⟨stop, stop⟩⟩] := by
  intro said start stop
  have hsource : ("\" " ++ String.ofList said).toList = '"' :: ' ' :: said := by simp
  let speech := Piece.token (.speech (String.ofList said)) said
  have hrun : Lexer.run {} ('"' :: ' ' :: said) =
      [.gap [], .token .replicaBegin ['"', ' '], speech, .mark .replicaEnd, .mark .eof] := by
    refine (@Canonical.run_same_level 0 '"' (' ' :: said) false rfl rfl).trans ?_
    rw [if_neg Bool.false_ne_true, Canonical.run_scan rfl rfl]
    change _ :: .token .replicaBegin ['"', ' '] ::
      Lexer.run (Canonical.inReplica 0 ⟨false, false⟩) said = _
    rw [Lexer.run_escape rfl rfl rfl hn hb]
    rfl
  have hend : Piece.settle [speech, .mark .replicaEnd, .mark .eof] =
      [speech, .mark .replicaEnd, .mark .eof] :=
    @Piece.pushSettled_holds speech [.mark .eof] rfl
  have hspeech : [speech, .mark .replicaEnd, .mark .eof].head? ≠ some (.mark .replicaEnd) := by
    simp [speech, Piece.token, Piece.mark]
  rw [tokenize, hsource, hrun, Piece.settle_cons, Piece.settle_cons, hend,
    Piece.pushSettled_eq hspeech]
  rfl

/-- A text of backslashes, pairs of signs, an open call, a carriage return and other blanks. -/
theorem tokenize_escape_signs :
    let t := "\\\\\x7bcall:f(\")\\\\\x7d /*-> == @@+\\# ```\r\u00a0\\"
    let said := escape t.toList
    let start := Position.origin.advance ['"', ' ']
    let stop := start.advance said
    ('\n' ∉ t.toList ∧ Text.isBlankText t = false) ∧
      tokenize ("\" " ++ String.ofList said) =
        [⟨.replicaBegin, ⟨Position.origin, start⟩⟩, ⟨.speech (String.ofList said), ⟨start, stop⟩⟩,
          ⟨.replicaEnd, ⟨stop, stop⟩⟩, ⟨.eof, ⟨stop, stop⟩⟩] := by
  intro t said start stop
  have ht : '\n' ∉ t.toList ∧ Text.isBlankText t = false := by decide +kernel
  exact ⟨ht, tokenize_escape t ht.1 ht.2⟩

end StoryScript

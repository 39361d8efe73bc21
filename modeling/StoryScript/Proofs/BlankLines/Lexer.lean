import StoryScript.Proofs.Canonical.Tokens
import StoryScript.Proofs.Token.Lines
import StoryScript.Proofs.Token.Replicas
/-!
# Lines without content

A line of spaces and tabs, with or without a comment behind them, is read into trivia and leaves the
state at its start what it was (`run_blankLine`). It can stand in an open replica: if that goes on, the
trivia are in it, and else its end moves back over them. So in either case the pieces are put in at one
place (`settle_padding`).
-/

namespace StoryScript

open Token (Kind)

/-- Spaces and tabs, or a comment behind them, on a line. -/
inductive BlankLine : List Char → Prop where
  | spaces {spacers : List Char} (hs : ∀ c ∈ spacers, isSpacer c) : BlankLine (spacers ++ ['\n'])
  | comment {spacers text : List Char} (hs : ∀ c ∈ spacers, isSpacer c) (hl : InLine text) :
    BlankLine (spacers ++ '#' :: text ++ ['\n'])

theorem BlankLine.wholeLines {line : List Char} (h : BlankLine line) : WholeLines line := by
  cases h <;> exact .inr List.getLast?_concat

namespace Piece

/-- Space between tokens, or trivia. -/
def isPadding : Piece → Bool
  | covered _ [] => true
  | covered _ [kind] => kind.isTrivia
  | _ => false

variable {piece : Piece}

theorem holdsReplica_of_isPadding (h : piece.isPadding = true) : piece.holdsReplica = false := by
  unfold holdsReplica
  split
  · cases h
  · cases h
  · rfl

theorem ne_mark_of_isPadding (h : piece.isPadding = true) : piece ≠ .mark .replicaEnd := by
  rintro rfl
  cases h

theorem isTrivia_of_isPadding (h : piece.isPadding = true) {p : Position} {t : Token}
    (ht : t ∈ piece.tokens p) : t.isTrivia = true := by
  unfold isPadding at h
  split at h
  · cases ht
  · rw [List.mem_singleton.1 ht]
    exact h
  · cases h

end Piece

/-- The pieces of a line without content. -/
structure Piece.Pads (pad : List Piece) (line : List Char) : Prop where
  padding : ∀ piece ∈ pad, piece.isPadding = true
  newline : .newline ∈ pad.flatMap kinds
  texts : texts pad = line

/-! ## Reading one -/

/-- What is read up to the end of a line, and the line end. -/
theorem readUntil_lineEnd {text : List Char} (hl : InLine text) (b : Lookbehind)
    (rest : List Char) :
    ∃ read ending, text ++ ['\n'] = read ++ ending ∧
      (ending = ['\n'] ∨ ending = ['\r', '\n']) ∧
      readUntil (fun _ cs => atLineEnd cs) b (text ++ '\n' :: rest) = (read, ending ++ rest) := by
  induction text generalizing b with
  | nil => exact ⟨[], ['\n'], rfl, .inl rfl, rfl⟩
  | cons c text ih =>
    have htail : InLine text := hl.subset (List.subset_cons_self c text)
    rw [List.cons_append, List.cons_append, readUntil]
    by_cases hend : atLineEnd (c :: (text ++ '\n' :: rest)) = true
    · rw [if_pos hend]
      rcases newline_of_atNewline hend with ⟨ds, hds⟩ | ⟨ds, hds⟩
      · obtain ⟨rfl, -⟩ := List.cons.inj hds
        exact absurd (List.mem_cons_self) hl
      · -- a carriage return that the line feed follows belongs to the line end
        obtain ⟨rfl, hrest⟩ := List.cons.inj hds
        cases text with
        | nil => exact ⟨[], ['\r', '\n'], rfl, .inr rfl, rfl⟩
        | cons d text =>
          obtain ⟨rfl, -⟩ := List.cons.inj hrest
          exact absurd List.mem_cons_self htail
    · obtain ⟨read, ending, htext, hending, hread⟩ := ih htail (b.next c)
      rw [if_neg hend, hread]
      exact ⟨c :: read, ending, by rw [htext, List.cons_append], hending, rfl⟩

namespace Lexer

variable {s : State}

theorem run_lineEnd (s : State) {ending : List Char}
    (h : ending = ['\n'] ∨ ending = ['\r', '\n']) (rest : List Char) :
    run s (ending ++ rest) =
      .token .newline ending :: run { s with freshLine := true, behind := {} } rest := by
  rcases h with rfl | rfl
  · exact Canonical.run_newline s rest
  · rw [List.cons_append, run]
    rfl

theorem State.Fresh.eq (hf : s.Fresh) : { s with freshLine := true, behind := {} } = s := by
  obtain ⟨mode, inComment, freshLine, level, behind⟩ := s
  obtain ⟨rfl, rfl⟩ := hf
  rfl

/-- Where a comment begins, it is all that is read, whether or not a replica is open. -/
theorem scan_lineComment (hc : s.inComment = false) (hm : s.mode ≠ .choiceText)
    (hb : s.behind.escaped = false) (cs : List Char) :
    s.scan '#' cs = s.lineComment ('#' :: cs) := by
  have hcomment : s.behind.atLineComment ('#' :: cs) = true := by
    rw [Lookbehind.atLineComment, hb]
    rfl
  have hopen : ¬ s.behind.atCommentOpen ('#' :: cs) = true := by
    simp [Lookbehind.atCommentOpen]
  have hends : ¬ s.behind.endsReplica ('#' :: cs) = true := by
    simp [Lookbehind.endsReplica, Lookbehind.atReplica, Lookbehind.atTag, Lookbehind.atHeader,
      Lookbehind.atGoto, Lookbehind.atChoice]
  rw [State.scan, if_neg (by simp [hc])]
  split
  · rw [State.structural, if_neg (by decide), if_neg hopen, if_pos hcomment]
  · rw [State.replica, if_neg hends, if_neg hopen, if_pos hcomment]
  · next hmode => exact absurd hmode hm

theorem run_comment (hf : s.freshLine = false) (hc : s.inComment = false)
    (hm : s.mode ≠ .choiceText) (hb : s.behind.escaped = false) {text : List Char}
    (hl : InLine text) (after : List Char) :
    ∃ read ending, '#' :: text ++ ['\n'] = read ++ ending ∧
      run s ('#' :: (text ++ '\n' :: after)) =
        .token (.comment (String.ofList read)) read :: .token .newline ending ::
          run { s with freshLine := true, behind := {} } after := by
  obtain ⟨read, ending, htext, hending, hread⟩ :=
    readUntil_lineEnd (hl.cons (by decide : '#' ≠ '\n')) s.behind after
  refine ⟨read, ending, htext, ?_⟩
  rw [Canonical.run_scan hf rfl, scan_lineComment hc hm hb, State.lineComment, ← List.cons_append,
    hread, State.rest_read, run_lineEnd _ hending]
  rfl

/-- A line of spaces and tabs is read in one step before its end, if there are any. -/
theorem run_spaces (hf : s.Fresh) (hs : s.measures = true) {spacers : List Char}
    (hsp : ∀ c ∈ spacers, isSpacer c) (after : List Char) :
    ∃ pad, Piece.Pads pad (spacers ++ ['\n']) ∧
      run s (spacers ++ '\n' :: after) = pad ++ run s after := by
  cases spacers with
  | nil =>
    refine ⟨[.token .newline ['\n']], ⟨?_, List.mem_singleton_self _, rfl⟩, ?_⟩
    · intro piece hpiece
      rw [List.mem_singleton.1 hpiece]
      rfl
    · rw [List.nil_append, Canonical.run_newline, hf.eq]
      rfl
  | cons c cs =>
    have hc : atNewline (c :: (cs ++ '\n' :: after)) = false := by
      have hspacer := hsp c (by simp)
      simp only [isSpacer, Bool.or_eq_true, beq_iff_eq] at hspacer
      rcases hspacer with rfl | rfl <;> rfl
    have hstep : s.step c (cs ++ '\n' :: after) =
        { s with freshLine := false }.read [.gap (c :: cs)] ('\n' :: after) := by
      have hspan : (c :: (cs ++ '\n' :: after)).takeWhile isSpacer = c :: cs ∧
          (c :: (cs ++ '\n' :: after)).dropWhile isSpacer = '\n' :: after :=
        Canonical.span_append hsp (by decide)
      rw [State.step, hc, hs, hspan.1, hspan.2]
      rfl
    -- the line end undoes what the spaces have changed
    have hback : { ({ s with freshLine := false }.past [.gap (c :: cs)]) with
        freshLine := true, behind := {} } = s := hf.eq
    refine ⟨[.gap (c :: cs), .token .newline ['\n']], ⟨?_, List.mem_singleton_self _, by simp⟩, ?_⟩
    · intro piece hpiece
      simp only [List.mem_cons, List.not_mem_nil, or_false] at hpiece
      rcases hpiece with rfl | rfl <;> rfl
    · rw [List.cons_append, run, hstep, State.rest_read, Canonical.run_newline]
      exact congrArg (fun t => _ :: _ :: run t after) hback

/-- A comment alone on its line keeps the level and an open replica. -/
theorem run_commentLine (hf : s.Fresh) (hs : s.measures = true) {spacers text : List Char}
    (hsp : ∀ c ∈ spacers, isSpacer c) (hl : InLine text) (after : List Char) :
    ∃ pad, Piece.Pads pad (spacers ++ '#' :: text ++ ['\n']) ∧
      run s (spacers ++ '#' :: (text ++ '\n' :: after)) = pad ++ run s after := by
  have hbehind : s.behind.past spacers = {} := by
    rw [hf.behind]
    exact Canonical.past_spacers hsp
  -- whatever the level of the line is, it is not taken
  have hindent : ∀ cs, { s with freshLine := false }.indentation spacers ('#' :: cs) =
      ([.gap spacers], { s with freshLine := false }) := by
    intro cs
    rw [State.indentation, hbehind]
    rfl
  have hback : { ({ s with freshLine := false }.past [.gap spacers]) with
      freshLine := true, behind := {} } = s := hf.eq
  obtain ⟨hc, hm⟩ : s.inComment = false ∧ s.mode ≠ .choiceText := by
    simpa [State.measures, hf.freshLine] using hs
  have hescaped : ({ s with freshLine := false }.past [.gap spacers]).behind.escaped = false := by
    simp [State.past, hbehind]
  obtain ⟨read, ending, htext, hrun⟩ :=
    run_comment (s := { s with freshLine := false }.past [.gap spacers]) rfl hc hm hescaped hl after
  rw [hback] at hrun
  refine ⟨[.gap spacers, .token (.comment (String.ofList read)) read, .token .newline ending],
    ⟨?_, List.mem_cons_of_mem _ (List.mem_singleton_self _), by simp [← htext]⟩, ?_⟩
  · intro piece hpiece
    simp only [List.mem_cons, List.not_mem_nil, or_false] at hpiece
    rcases hpiece with rfl | rfl | rfl <;> rfl
  · rw [Canonical.run_fresh hs hsp (by decide) rfl, hindent]
    exact congrArg (.gap spacers :: ·) hrun

/-- A line without content is read into trivia, and what follows it is read as without it. -/
theorem run_blankLine (hf : s.Fresh) (hc : s.inComment = false) (hm : s.mode ≠ .choiceText)
    {line : List Char} (h : BlankLine line) (after : List Char) :
    ∃ pad, Piece.Pads pad line ∧ run s (line ++ after) = pad ++ run s after := by
  have hs : s.measures = true := by
    simp [State.measures, hf.freshLine, hc, hm]
  cases h with
  | spaces hsp =>
    obtain ⟨pad, hpad, hrun⟩ := run_spaces hf hs hsp after
    exact ⟨pad, hpad, by simpa using hrun⟩
  | comment hsp hl =>
    obtain ⟨pad, hpad, hrun⟩ := run_commentLine hf hs hsp hl after
    exact ⟨pad, hpad, by simpa using hrun⟩

end Lexer

/-! ## Putting one in -/

namespace Piece

variable {pad tail : List Piece} (hpad : ∀ piece ∈ pad, piece.isPadding = true)
  (ht : tail.head? ≠ some (.mark .replicaEnd))
include hpad ht

theorem head?_padding : (pad ++ tail).head? ≠ some (.mark .replicaEnd) := by
  cases pad with
  | nil => exact ht
  | cons piece pad => exact fun h => ne_mark_of_isPadding (hpad piece (by simp)) (Option.some.inj h)

/-- The end of a replica moves back over padding. -/
theorem foldr_padding {front : List Piece} (hf : front = [] ∨ front = [.mark .replicaEnd]) :
    pad.foldr pushSettled (front ++ tail) = front ++ (pad ++ tail) := by
  induction pad with
  | nil => rfl
  | cons piece pad ih =>
    have hrest : ∀ q ∈ pad, q.isPadding = true := fun q hq => hpad q (by simp [hq])
    rw [List.foldr_cons, ih hrest]
    rcases hf with rfl | rfl
    · rw [List.nil_append, List.nil_append]
      exact pushSettled_eq (head?_padding hrest ht)
    · exact pushSettled_mark (holdsReplica_of_isPadding (hpad piece (by simp)))

/-- Padding is put in behind the end of a replica that it does not go on with. -/
theorem settle_padding {rest front : List Piece} (hr : settle rest = front ++ tail)
    (hf : front = [] ∨ front = [.mark .replicaEnd]) (pieces : List Piece) :
    settle (pieces ++ (pad ++ rest)) = settle (pieces ++ front) ++ (pad ++ tail) := by
  have hfront : settle front = front := by
    rcases hf with rfl | rfl <;> rfl
  calc settle (pieces ++ (pad ++ rest))
    _ = pieces.foldr pushSettled (pad.foldr pushSettled (settle rest)) := by
        rw [settle, List.foldr_append, List.foldr_append, settle]
    _ = pieces.foldr pushSettled (settle front ++ (pad ++ tail)) := by
        rw [hr, foldr_padding hpad ht hf, hfront]
    _ = settle (pieces ++ front) ++ (pad ++ tail) := by
        rw [foldr_pushSettled_append (head?_padding hpad ht), settle, ← List.foldr_append, settle]

end Piece

end StoryScript

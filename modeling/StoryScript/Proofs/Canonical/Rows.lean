import StoryScript.Proofs.Canonical.Lines
/-!
# How rows are read

The lexer stands at the start of a line, at a level and with a replica open or not, and reads rows
one after the other. `run_row` says what one row is read into, `settle_run_written` what all of them
are, once the ends of replicas have been moved back.
-/

namespace StoryScript.Canonical

open Token (Kind)
open Lexer (State run levelOf)
open Piece (pushSettled_eq pushSettled_mark pushSettled_holds settle_cons foldr_pushSettled)

variable {level n : Nat} {c : Char} {cs rest : List Char}

/-! ## The start of a line -/

/-- The indentation of a line at level `n` behind one at `level`. -/
def layout (level n : Nat) : Piece :=
  .covered (indent n) (List.replicate (n - level) .indent ++ List.replicate (level - n) .dedent)

theorem layout_ne_mark (level n : Nat) : layout level n ≠ .mark .replicaEnd := by
  intro h
  have hkinds := (Piece.covered.inj h).2
  have hmem : Kind.replicaEnd ∈ [Kind.replicaEnd] := by simp
  rw [← hkinds] at hmem
  simp at hmem

/-- Behind the indentation of a line, where a replica is open. -/
def inReplica (level : Nat) (b : Lookbehind) : State :=
  { mode := .replica, freshLine := false, level := level, behind := b }

@[simp] theorem levelOf_indent (n : Nat) : levelOf (indent n) = n := by
  have hs : (indent n).countP (· == ' ') = 2 * n := by simp [indent, List.countP_replicate]
  have ht : (indent n).countP (· == '\t') = 0 := by simp [indent, List.countP_replicate]
  rw [levelOf, hs, ht, Lexer.levelWidth]
  omega

/-- Spaces and tabs leave the start of a line what it is. -/
theorem past_spacers {spacers : List Char} (h : ∀ c ∈ spacers, isSpacer c) :
    Lookbehind.past {} spacers = {} := by
  induction spacers with
  | nil => rfl
  | cons c cs ih =>
    have hc := h c (by simp)
    have hnext : Lookbehind.next {} c = {} := by
      simp only [isSpacer, Bool.or_eq_true, beq_iff_eq] at hc
      rcases hc with rfl | rfl <;> rfl
    rw [Lookbehind.past_cons, hnext]
    exact ih fun d hd => h d (by simp [hd])

theorem isSpacer_of_mem_indent (n : Nat) : ∀ c ∈ indent n, isSpacer c := by
  intro c hc
  rw [(List.mem_replicate.1 hc).2]
  rfl

@[simp] theorem past_indent (n : Nat) : Lookbehind.past {} (indent n) = {} :=
  past_spacers (isSpacer_of_mem_indent n)

theorem atNewline_spacers {spacers : List Char} (h : ∀ c ∈ spacers, isSpacer c)
    (hn : atNewline (c :: cs) = false) : atNewline (spacers ++ c :: cs) = false := by
  cases spacers with
  | nil => exact hn
  | cons d ds =>
    have hd := h d (by simp)
    simp only [isSpacer, Bool.or_eq_true, beq_iff_eq] at hd
    rcases hd with rfl | rfl <;> rfl

/-- A step at the start of a line measures the indentation and goes on behind it. -/
theorem run_fresh {s : State} {spacers : List Char} (hf : s.measures = true)
    (hsp : ∀ c ∈ spacers, isSpacer c) (hs : isSpacer c = false) (hn : atNewline (c :: cs) = false) :
    let r := { s with freshLine := false }.indentation spacers (c :: cs)
    run s (spacers ++ c :: cs) = r.1 ++ run (r.2.past r.1) (c :: cs) := by
  intro r
  obtain ⟨d, ds, hd⟩ : ∃ d ds, spacers ++ c :: cs = d :: ds :=
    List.exists_cons_of_ne_nil (by simp)
  -- the indentation is measured once, whatever it is
  have hfresh : (r.2.past r.1).freshLine = false := by
    change ({ s with freshLine := false }.indentation spacers (c :: cs)).2.freshLine = false
    unfold State.indentation State.leaveReplica
    dsimp only
    repeat' split
    all_goals rfl
  have hstep : s.step d ds =
      { (r.2.past r.1).scan c cs with pieces := r.1 ++ ((r.2.past r.1).scan c cs).pieces } := by
    unfold State.step
    rw [← hd]
    simp only [atNewline_spacers hsp hn, span_append hsp hs, hf, hn, if_true, if_false,
      Bool.false_eq_true]
    rfl
  rw [hd, run, hstep, run_scan hfresh hn]
  simp

/-- The end of the replica, if one is open, goes ahead of what follows it. -/
def closing (opened : Bool) (pieces : List Piece) : List Piece :=
  if opened then .mark .replicaEnd :: pieces else pieces

theorem not_atLineComment {b : Lookbehind} (hc : c ≠ '#') : b.atLineComment (c :: cs) = false := by
  rw [← Bool.not_eq_true]
  intro h
  obtain ⟨ds, hds⟩ := Lookbehind.cons_of_atLineComment h
  exact hc (List.cons.inj hds).1

/-- A line at the level of the one before. -/
theorem run_same_level {opened : Bool} (hs : isSpacer c = false)
    (hn : atNewline (c :: cs) = false) :
    run (lineState opened n) (indent n ++ c :: cs) =
      .gap (indent n) :: run (if opened then inReplica n {} else inLine n) (c :: cs) := by
  have hr : { lineState opened n with freshLine := false }.indentation (indent n) (c :: cs) =
      ([.gap (indent n)], { lineState opened n with freshLine := false }) := by
    simp [State.indentation, lineState]
  rw [run_fresh (by cases opened <;> rfl) (isSpacer_of_mem_indent n) hs hn, hr]
  cases opened <;> simp [State.past, lineState, inReplica, inLine]

/-- A line at another level ends an open replica. -/
theorem run_other_level {opened : Bool} (hl : n ≠ level) (hs : isSpacer c = false)
    (hn : atNewline (c :: cs) = false) (hc : c ≠ '#') :
    run (lineState opened level) (indent n ++ c :: cs) =
      closing opened (layout level n :: run (inLine n) (c :: cs)) := by
  have hr : { lineState opened level with freshLine := false }.indentation (indent n) (c :: cs) =
      (closing opened [layout level n], inLine n) := by
    cases opened <;> simp [State.indentation, lineState, not_atLineComment hc, hl, State.replicaEnd,
      State.leaveReplica, closing, layout, inLine]
  rw [run_fresh (by cases opened <;> rfl) (isSpacer_of_mem_indent n) hs hn, hr]
  cases opened <;> simp [State.past, closing, inLine, layout]

/-- What cannot belong to an open replica ends it. -/
theorem run_inReplica (hn : atNewline (c :: cs) = false)
    (he : Lookbehind.endsReplica {} (c :: cs) = true) :
    run (inReplica n {}) (c :: cs) = .mark .replicaEnd :: run (inLine n) (c :: cs) := by
  have hscan : (inReplica n {}).scan c cs = (inLine n).read [.mark .replicaEnd] (c :: cs) :=
    (if_pos he).trans rfl
  rw [run_scan rfl hn, hscan]
  rfl

/-! ## The ends of replicas -/

variable {pieces : List Piece}

/-- A place that begins a row: neither space nor a comment, and not in any replica. -/
structure BeginsRow (c : Char) (cs : List Char) : Prop where
  not_spacer : isSpacer c = false
  not_newline : atNewline (c :: cs) = false
  not_comment : c ≠ '#'
  ends_replica : Lookbehind.endsReplica {} (c :: cs) = true

/-- The start of a line that begins a row. -/
theorem settle_line {opened : Bool} (h : BeginsRow c cs)
    (hh : (Piece.settle (run (inLine n) (c :: cs))).head? ≠ some (.mark .replicaEnd)) :
    Piece.settle (run (lineState opened level) (indent n ++ c :: cs)) =
      closing opened (layout level n :: Piece.settle (run (inLine n) (c :: cs))) := by
  by_cases hl : n = level
  · subst hl
    have hlayout : layout n n = .gap (indent n) := by simp [layout, Piece.gap]
    rw [run_same_level h.not_spacer h.not_newline, settle_cons, hlayout]
    cases opened with
    | false => exact pushSettled_eq hh
    | true =>
      -- the replica ends behind the indentation, and its end moves back over it
      rw [if_pos rfl, run_inReplica h.not_newline h.ends_replica, settle_cons, pushSettled_eq hh]
      exact pushSettled_mark rfl
  · rw [run_other_level hl h.not_spacer h.not_newline h.not_comment]
    cases opened with
    | false => exact pushSettled_eq hh
    | true =>
      change Piece.settle (_ :: _ :: _) = _
      rw [settle_cons, settle_cons, pushSettled_eq hh, pushSettled_eq]
      · rfl
      · exact fun h => layout_ne_mark level n (Option.some.inj h)

/-! ## Replicas -/

variable {b : Lookbehind}

/-- One line of an open replica. -/
theorem run_speech (p : Phrase) :
    run (inReplica n b) (p.chars ++ '\n' :: rest) =
      speech p :: lineFeed :: run (lineState true n) rest := by
  obtain ⟨c, cs, hp, hc⟩ := p.exists_cons
  have hcalm := isCalm_of_isAlphanum hc
  have hread : readText (fun b cs => b.endsReplica cs || b.atComment cs) none b
      (p.chars ++ '\n' :: rest) = (p.chars, '\n' :: rest) := by
    refine readText_eq p.isCalm_of_mem fun b c cs hc => ?_
    rw [not_endsReplica hc, not_atComment hc]
    rfl
  have hblank : Text.allBlank p.chars = false := p.not_allBlank []
  have hscan : (inReplica n b).scan c (cs ++ '\n' :: rest) =
      (inReplica n b).read [speech p] ('\n' :: rest) := by
    have hcomment := @not_atComment c (cs ++ '\n' :: rest) b hcalm
    simp only [Lookbehind.atComment, Bool.or_eq_false_iff] at hcomment
    change (inReplica n b).replica (c :: (cs ++ '\n' :: rest)) = _
    unfold State.replica
    simp only [inReplica, not_endsReplica hcalm, hcomment, Bool.false_eq_true, if_false]
    rw [← List.cons_append, ← hp]
    simp [hread, hblank, speech]
  rw [hp, List.cons_append, run_scan rfl (not_atNewline hcalm), hscan, State.rest_read, run_newline]
  rfl

theorem run_speeches (p : Phrase) (ps : List Phrase) :
    run (inReplica n b) (unindented n (p.chars :: ps.map Phrase.chars) ++ rest) =
      speeches n p ps ++ lineFeed :: run (lineState true n) rest := by
  induction ps generalizing p b with
  | nil =>
    rw [unindented, List.append_assoc]
    exact run_speech p
  | cons q qs ih =>
    obtain ⟨c, cs, hq, hc⟩ := q.exists_cons
    have hnext : run (lineState true n)
        (indent n ++ (unindented n (q.chars :: qs.map Phrase.chars) ++ rest)) =
          .gap (indent n) :: (speeches n q qs ++ lineFeed :: run (lineState true n) rest) := by
      rw [← ih q, hq]
      exact run_same_level (not_isSpacer_of_isAlphanum hc)
        (not_atNewline (isCalm_of_isAlphanum hc))
    rw [unindented, List.append_assoc, List.cons_append, run_speech, List.map_cons, linesAt_cons,
      List.append_assoc, hnext]
    rfl

theorem run_replica (p : Phrase) (ps : List Phrase) :
    run (inLine n) ('"' :: ' ' :: (unindented n (p.chars :: ps.map Phrase.chars) ++ rest)) =
      (Leaf.replica p ps).pieces n ('\n' :: rest) ++ lineFeed :: run (lineState true n) rest := by
  rw [run_scan rfl rfl]
  change .token .replicaBegin ['"', ' '] :: run (inReplica n ⟨false, false⟩)
    (unindented n (p.chars :: ps.map Phrase.chars) ++ rest) = _
  rw [run_speeches]
  rfl

/-! ## All rows -/

/-- One row, read behind what indents it. -/
theorem run_row (row : Row) (rest : List Char) :
    ∃ c cs, unindented n row.lines ++ rest = c :: cs ∧ BeginsRow c cs ∧
      run (inLine n) (c :: cs) =
        row.pieces n ('\n' :: rest) ++ lineFeed :: run (lineState row.opens n) rest := by
  rcases row with (m | m) | name | (target | ⟨name, first, others⟩ | ⟨first, others⟩) | text
  · refine ⟨_, _, ?_, ⟨rfl, rfl, by decide, rfl⟩, run_line rfl (structural_tag m)⟩
    simp [unindented, Row.lines, Label.chars, linesAt]
  · refine ⟨_, _, ?_, ⟨rfl, rfl, by decide, rfl⟩, run_line rfl (structural_choiceTag m)⟩
    simp [unindented, Row.lines, Label.chars, linesAt]
  · refine ⟨_, _, ?_, ⟨rfl, rfl, by decide, rfl⟩, run_line rfl (structural_header name)⟩
    simp [unindented, Row.lines, linesAt]
  · refine ⟨_, _, ?_, ⟨rfl, rfl, by decide, rfl⟩, run_line rfl (structural_goto target)⟩
    simp [unindented, Row.lines, Leaf.lines, linesAt]
  · refine ⟨_, _, ?_, ⟨rfl, rfl, by decide, rfl⟩,
      run_line rfl (structural_call name first others)⟩
    simp [unindented, Row.lines, Leaf.lines, linesAt]
  · refine ⟨_, _, ?_, ⟨rfl, rfl, by decide, rfl⟩, run_replica first others⟩
    simp [unindented, Row.lines, Leaf.lines]
  · refine ⟨_, _, ?_, ⟨rfl, rfl, by decide, rfl⟩, run_line rfl (structural_choice text)⟩
    simp [unindented, Row.lines, linesAt]

/-- The pieces of rows behind a line at `level`, with the ends of replicas in their places. -/
def settledPieces : Nat → List (Nat × Row) → List Piece
  | level, [] => List.replicate level (.mark .dedent) ++ [.mark .eof]
  | level, (n, row) :: rows =>
    layout level n :: row.pieces n ('\n' :: written rows) ++
      closing row.opens (lineFeed :: settledPieces n rows)

theorem head?_settledPieces (level : Nat) (rows : List (Nat × Row)) :
    (settledPieces level rows).head? ≠ some (.mark .replicaEnd) := by
  cases rows with
  | nil => cases level <;> simp [settledPieces, List.replicate_succ, Piece.mark]
  | cons r rows => exact fun h => layout_ne_mark level r.1 (Option.some.inj h)

/-- The end of a replica stays behind its last speech. -/
theorem foldr_speeches (p : Phrase) (ps : List Phrase) :
    (speeches n p ps).foldr Piece.pushSettled (.mark .replicaEnd :: pieces) =
      speeches n p ps ++ .mark .replicaEnd :: pieces := by
  induction ps generalizing p with
  | nil => exact pushSettled_holds rfl
  | cons q qs ih =>
    have hq : (speeches n q qs ++ .mark .replicaEnd :: pieces).head? ≠ some (.mark .replicaEnd) := by
      cases qs <;> simp [speeches, speech, Piece.token, Piece.mark]
    have hbefore : Piece.mark .replicaEnd ∉ [speech p, lineFeed, .gap (indent n)] := by
      simp [speech, lineFeed, Piece.token, Piece.gap, Piece.mark]
    rw [speeches, List.foldr_cons, List.foldr_cons, List.foldr_cons, ih]
    exact foldr_pushSettled hbefore hq

theorem mark_not_mem_speeches (p : Phrase) (ps : List Phrase) :
    .mark .replicaEnd ∉ speeches n p ps := by
  induction ps generalizing p with
  | nil => simp [speeches, speech, Piece.token, Piece.mark]
  | cons q qs ih =>
    have hq := ih q
    simp only [Piece.mark] at hq
    simp [speeches, speech, lineFeed, Piece.token, Piece.mark, Piece.gap, hq]

theorem mark_not_mem_row (row : Row) : .mark .replicaEnd ∉ row.pieces n rest := by
  rcases row with (⟨name, - | w⟩ | ⟨name, - | w⟩) | name |
    (target | ⟨name, first, others⟩ | ⟨first, others⟩) | (- | p)
  case leaf.replica =>
    have hspeeches := @mark_not_mem_speeches n first others
    simpa [Row.pieces, Leaf.pieces, Piece.token, Piece.mark] using hspeeches
  all_goals
    simp [Row.pieces, Label.pieces, Mark.valuePieces, Leaf.pieces, Piece.token, Piece.mark,
      Piece.gap]

/-- The end of a replica behind a row moves back over the line end, and no further. -/
theorem foldr_row (row : Row) (h : pieces.head? ≠ some (.mark .replicaEnd)) :
    (row.pieces n rest ++ [lineFeed]).foldr Piece.pushSettled (closing row.opens pieces) =
      row.pieces n rest ++ closing row.opens (lineFeed :: pieces) := by
  by_cases ho : row.opens = true
  · -- only a replica is open behind its row
    obtain ⟨first, others, rfl⟩ : ∃ first others, row = .leaf (.replica first others) := by
      rcases row with l | name | (target | ⟨name, first, others⟩ | ⟨first, others⟩) | text
      case leaf.replica => exact ⟨first, others, rfl⟩
      all_goals cases ho
    change List.foldr _ (.mark .replicaEnd :: pieces)
      (_ :: (speeches n first others ++ [lineFeed])) = _
    rw [List.foldr_cons, List.foldr_append, List.foldr_cons, List.foldr_nil, pushSettled_mark rfl,
      foldr_speeches, pushSettled_eq]
    · rfl
    · cases others <;> simp [speeches, speech, Piece.token, Piece.mark]
  · have hmem : .mark .replicaEnd ∉ row.pieces n rest ++ [lineFeed] := by
      rw [List.mem_append, List.mem_singleton, not_or]
      exact ⟨mark_not_mem_row row, by simp [lineFeed, Piece.token, Piece.mark]⟩
    rw [closing, if_neg ho, foldr_pushSettled hmem h, closing, if_neg ho]
    simp

theorem head?_row (row : Row) :
    (row.pieces n rest ++ pieces).head? ≠ some (.mark .replicaEnd) := by
  rcases row with (m | m) | name | (target | ⟨name, first, others⟩ | ⟨first, others⟩) | (- | p)
  all_goals simp [Row.pieces, Label.pieces, Leaf.pieces, Piece.token, Piece.mark]

theorem linesAt_row (row : Row) : linesAt n row.lines = indent n ++ unindented n row.lines := by
  rcases row with l | name | (target | ⟨name, first, others⟩ | ⟨first, others⟩) | text
  all_goals exact linesAt_cons ..

/-- What rows in writing are read into. -/
theorem settle_run_written (opened : Bool) (level : Nat) (rows : List (Nat × Row)) :
    Piece.settle (run (lineState opened level) (written rows)) =
      closing opened (settledPieces level rows) := by
  induction rows generalizing opened level with
  | nil =>
    have hfinish : run (lineState opened level) [] = closing opened (settledPieces level []) := by
      rw [run]
      cases opened <;> simp [State.finish, State.replicaEnd, lineState, closing, settledPieces]
    have hmarks : Piece.mark .replicaEnd ∉ settledPieces level [] := by
      simp [settledPieces, Piece.mark]
    have hsettle : Piece.settle (settledPieces level []) = settledPieces level [] := by
      have hnil : ([] : List Piece).head? ≠ some (.mark .replicaEnd) := by simp
      have h := foldr_pushSettled hmarks hnil
      rwa [List.append_nil] at h
    change Piece.settle (run (lineState opened level) []) = _
    rw [hfinish]
    cases opened with
    | false => exact hsettle
    | true =>
      change Piece.pushSettled _ (Piece.settle (settledPieces level [])) = _
      rw [hsettle]
      exact pushSettled_eq (head?_settledPieces level [])
  | cons r rows ih =>
    obtain ⟨n, row⟩ := r
    obtain ⟨c, cs, hcs, hbegins, hrun⟩ := @run_row n row (written rows)
    -- the row leaves a replica open or not, which decides how the rows behind it begin
    have hrow : Piece.settle (run (inLine n) (c :: cs)) =
        row.pieces n ('\n' :: written rows) ++
          closing row.opens (lineFeed :: settledPieces n rows) := by
      rw [hrun, List.append_cons, Piece.settle, List.foldr_append, ← Piece.settle, ih]
      exact foldr_row row (head?_settledPieces n rows)
    have hwritten : written ((n, row) :: rows) = indent n ++ c :: cs := by
      rw [← hcs, ← List.append_assoc, ← linesAt_row]
      rfl
    rw [hwritten, settle_line hbegins (by rw [hrow]; exact head?_row row), hrow]
    rfl

end StoryScript.Canonical

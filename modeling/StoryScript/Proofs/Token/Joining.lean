import StoryScript.Proofs.Canonical.Rows
import StoryScript.Proofs.Token.Replicas
import StoryScript.Proofs.Token.Shift
/-!
# Lines in front of a section

A header at the start of a line closes what is open there: a replica and all levels. The end of the
source closes the same, and so whole lines in front of a header have the tokens they have alone, but
for the end, and what begins with the header has the tokens it has alone, moved behind these lines
(`tokenize_join`).
-/

namespace StoryScript

open Token (Kind)

/-! ## What is closed in front of a header -/

namespace Lexer

/-- Outside of replicas, nothing that is read begins with the end of one. -/
theorem head?_settle_run {s : State} (hs : s.mode ≠ .replica) (cs : List Char) :
    (Piece.settle (run s cs)).head? ≠ some (.mark .replicaEnd) := by
  obtain ⟨front, tail, hsettle, hfront, htail⟩ := settle_run s cs
  rcases hfront with rfl | ⟨-, hr⟩
  · rwa [hsettle]
  · exact absurd hr hs

/-- Behind pieces that end no replica a run outside of replicas is settled by itself. -/
theorem settle_append_run {pieces : List Piece} (hm : .mark .replicaEnd ∉ pieces) {s : State}
    (hs : s.mode ≠ .replica) (cs : List Char) :
    Piece.settle (pieces ++ run s cs) = pieces ++ Piece.settle (run s cs) :=
  Piece.settle_append_left hm (head?_settle_run hs cs)

/-- Where a line begins outside of block comments and choice texts, a state is given by its level and
by whether a replica is open. -/
theorem State.Fresh.eq_lineState {s : State} (hf : s.Fresh) (hc : s.inComment = false)
    (hm : s.mode ≠ .choiceText) :
    s = Canonical.lineState (s.mode = .replica) s.level := by
  obtain ⟨mode, inComment, freshLine, level, behind⟩ := s
  obtain ⟨rfl, rfl⟩ := hf
  obtain rfl : inComment = false := hc
  cases mode with
  | structural | replica => rfl
  | choiceText => exact absurd rfl hm

/-- The text begins with the sign of a section, and nothing prolongs it. -/
def BeginsSection (cs : List Char) : Prop :=
  ∃ rest, cs = '=' :: '=' :: rest ∧ atSeparator rest = true

theorem BeginsSection.beginsRow {cs : List Char} (h : BeginsSection cs) :
    ∃ ds, cs = '=' :: ds ∧ Canonical.BeginsRow '=' ds := by
  obtain ⟨rest, rfl, hsep⟩ := h
  refine ⟨'=' :: rest, rfl, rfl, rfl, by decide, ?_⟩
  simp [Lookbehind.endsReplica, Lookbehind.atHeader, hsep]

/-- In front of a header everything is closed, and what follows is read from the ground. -/
theorem settle_run_header {s : State} (hf : s.Fresh) (hc : s.inComment = false)
    (hm : s.mode ≠ .choiceText) {cs : List Char} (h : BeginsSection cs) (pieces : List Piece) :
    Piece.settle (pieces ++ run s cs) =
      Piece.settle (pieces ++ s.replicaEnd) ++
        Canonical.layout s.level 0 :: Piece.settle (run (Canonical.inLine 0) cs) := by
  obtain ⟨ds, rfl, hrow⟩ := h.beginsRow
  have hhead := head?_settle_run (by decide : (Canonical.inLine 0).mode ≠ .replica) ('=' :: ds)
  have hlayout : ∀ qs : List Piece,
      (Canonical.layout s.level 0 :: qs).head? ≠ some (.mark .replicaEnd) :=
    fun qs he => Canonical.layout_ne_mark s.level 0 (Option.some.inj he)
  have hback : Piece.settle (Canonical.layout s.level 0 :: run (Canonical.inLine 0) ('=' :: ds)) =
      Canonical.layout s.level 0 :: Piece.settle (run (Canonical.inLine 0) ('=' :: ds)) :=
    Piece.pushSettled_eq hhead
  have hline : Piece.settle (run s ('=' :: ds)) = Piece.settle (s.replicaEnd ++
      Canonical.layout s.level 0 :: run (Canonical.inLine 0) ('=' :: ds)) := by
    have hrun : Piece.settle (run (Canonical.lineState (s.mode = .replica) s.level) ('=' :: ds)) =
        Canonical.closing (s.mode = .replica) (Canonical.layout s.level 0 ::
          Piece.settle (run (Canonical.inLine 0) ('=' :: ds))) := Canonical.settle_line hrow hhead
    rw [← hf.eq_lineState hc hm] at hrun
    rw [hrun, State.replicaEnd]
    by_cases hr : s.mode = .replica
    · rw [if_pos hr, List.singleton_append, Piece.settle_cons, hback,
        Piece.pushSettled_eq (hlayout _)]
      simp [Canonical.closing, hr]
    · rw [if_neg hr, List.nil_append, hback]
      simp [Canonical.closing, hr]
  calc Piece.settle (pieces ++ run s ('=' :: ds))
    _ = pieces.foldr Piece.pushSettled (Piece.settle (run s ('=' :: ds))) := List.foldr_append
    _ = Piece.settle (pieces ++ s.replicaEnd ++
          Canonical.layout s.level 0 :: run (Canonical.inLine 0) ('=' :: ds)) := by
        rw [hline, List.append_assoc]
        exact List.foldr_append.symm
    _ = _ := by rw [Piece.settle_split (by rw [hback]; exact hlayout _), hback]

end Lexer

/-! ## Tokens -/

theorem Piece.place_layout (p : Position) (level : Nat) (pieces : List Piece) :
    place p (Canonical.layout level 0 :: pieces) =
      List.replicate level ⟨.dedent, Span.point p⟩ ++ place p pieces := by
  rw [place, Canonical.layout, tokens, Nat.zero_sub, List.replicate_zero, List.nil_append,
    List.map_replicate]
  rfl

/-- The tokens of a source before everything that is open at its end is closed. -/
def openTokens (source : String) : List Token :=
  Piece.place Position.origin (Piece.settle ((Lexer.walk {} source.toList).1 ++
    (Lexer.walk {} source.toList).2.replicaEnd))

/-- The levels that are left at the end of a source. -/
def leftLevels (source : String) : List Token :=
  List.replicate (Lexer.walk {} source.toList).2.level
    ⟨.dedent, Span.point (Position.origin.advance source.toList)⟩

theorem texts_open (source : String) :
    Piece.texts (Piece.settle ((Lexer.walk {} source.toList).1 ++
      (Lexer.walk {} source.toList).2.replicaEnd)) = source.toList :=
  Lexer.texts_settle_walk {} _ (Lexer.State.texts_replicaEnd _)

theorem tokenize_eq_open (source : String) :
    tokenize source = openTokens source ++ leftLevels source ++
      [⟨.eof, Span.point (Position.origin.advance source.toList)⟩] := by
  have hfinish : Lexer.run {} source.toList = (Lexer.walk {} source.toList).1 ++
      (Lexer.walk {} source.toList).2.replicaEnd ++
        Lexer.closing (Lexer.walk {} source.toList).2.level := by
    rw [Lexer.run_eq_walk, Lexer.State.finish, Lexer.closing]
    simp only [List.append_assoc]
  rw [tokenize, hfinish, Piece.settle_append (Lexer.mark_not_mem_closing _), Piece.place_append,
    Piece.place_closing, texts_open, ← List.append_assoc]
  rfl

theorem tokenize_section {source : String} (h : Lexer.BeginsSection source.toList) :
    tokenize source = Piece.place Position.origin
      (Piece.settle (Lexer.run (Canonical.inLine 0) source.toList)) := by
  have hsettle := Lexer.settle_run_header (s := {}) ⟨rfl, rfl⟩ rfl (by decide) h []
  rw [List.nil_append] at hsettle
  rw [tokenize, hsettle]
  exact Piece.place_layout _ 0 _

theorem tokenize_before_section {before after : String} (hlines : WholeLines before.toList)
    (hcomment : (Lexer.walk {} before.toList).2.inComment = false)
    (hmode : (Lexer.walk {} before.toList).2.mode ≠ .choiceText)
    (hsection : Lexer.BeginsSection after.toList) :
    tokenize (before ++ after) = openTokens before ++ leftLevels before ++
      Piece.place (Position.origin.advance before.toList)
        (Piece.settle (Lexer.run (Canonical.inLine 0) after.toList)) := by
  have hfresh : (Lexer.walk {} before.toList).2.Fresh := Lexer.fresh_walk ⟨rfl, rfl⟩ hlines
  rw [tokenize_append hlines, Lexer.settle_run_header hfresh hcomment hmode hsection,
    Piece.place_append, Piece.place_layout, texts_open, ← List.append_assoc]
  rfl

/-- The tokens of whole lines in front of a section and of the section are those of both, one after
the other. The end that is between them goes, and the tokens of the section move behind the lines. -/
theorem tokenize_join (before after : String) (hlines : WholeLines before.toList)
    (hcomment : (Lexer.walk {} before.toList).2.inComment = false)
    (hmode : (Lexer.walk {} before.toList).2.mode ≠ .choiceText)
    (hsection : Lexer.BeginsSection after.toList) :
    ∃ ts e, tokenize before = ts ++ [e] ∧ e.kind = .eof ∧
      tokenize (before ++ after) = ts ++ (tokenize after).map
        (Token.shift before.utf8ByteSize (before.toList.count '\n')) := by
  have hsize : before.utf8ByteSize = String.utf8Len before.toList := by
    rw [← String.utf8ByteSize_ofList, String.ofList_toList]
  have hend := Position.advance_wholeLines hlines (rfl : Position.origin.column = 1)
  refine ⟨openTokens before ++ leftLevels before, _, tokenize_eq_open before, rfl, ?_⟩
  rw [tokenize_before_section hlines hcomment hmode hsection, tokenize_section hsection, hend,
    Piece.place_shift, hsize]

/-- An indented choice with an open replica before a section. -/
theorem tokenize_join_open_replica :
    WholeLines "+ A\n  \" b\n".toList ∧
      ∃ ts e, tokenize "+ A\n  \" b\n" = ts ++ [e] ∧ e.kind = .eof ∧
        tokenize ("+ A\n  \" b\n" ++ "== c\n") =
          ts ++ (tokenize "== c\n").map (Token.shift 10 2) := by
  have hstate : (Lexer.walk {} "+ A\n  \" b\n".toList).2.inComment = false ∧
      (Lexer.walk {} "+ A\n  \" b\n".toList).2.mode ≠ .choiceText := by
    decide +kernel
  exact ⟨by decide, tokenize_join _ _ (by decide) hstate.1 hstate.2 ⟨_, rfl, rfl⟩⟩

end StoryScript

import StoryScript.Proofs.Token.Coverage
import StoryScript.Proofs.Token.Lines
import StoryScript.Proofs.Token.Plain
/-!
# Levels of indentation

Indents and dedents keep count of the level of the lines. The count never falls below zero, and at
the end it is zero again. In front of what stands on a line whose indentation is measured it is the
level of that line, and no other line enters or leaves a level (`levels_tokenize`).
-/

namespace StoryScript

open Token (Kind)
open Lexer (Context State levelOf)

/-! ## Counting -/

namespace Token

/-- How many tokens enter a level. -/
def indents (ts : List Token) : Nat := ts.countP (·.kind = .indent)

/-- How many tokens leave a level. -/
def dedents (ts : List Token) : Nat := ts.countP (·.kind = .dedent)

/-- The level behind tokens that begin on a level, unless one of them leaves a level that was not
entered. -/
def climb : Nat → List Token → Option Nat
  | level, [] => some level
  | level, t :: ts =>
    match t.kind with
    | .indent => climb (level + 1) ts
    | .dedent => if level = 0 then none else climb (level - 1) ts
    | _ => climb level ts

theorem climb_cons_of_not_level {t : Token} (h : t.kind.isLevel = false) (n : Nat)
    (ts : List Token) : climb n (t :: ts) = climb n ts := by
  rw [climb]
  cases hk : t.kind <;> simp_all [Kind.isLevel]

theorem climb_append (n : Nat) (as bs : List Token) :
    climb n (as ++ bs) = (climb n as).bind (climb · bs) := by
  induction as generalizing n with
  | nil => rfl
  | cons t as ih =>
    rw [List.cons_append, climb, climb]
    split
    · exact ih (n + 1)
    · split
      · rfl
      · exact ih (n - 1)
    · exact ih n

/-- Tokens that neither enter nor leave a level. -/
theorem climb_of_not_levels {ts : List Token} (h : ∀ t ∈ ts, t.kind.isLevel = false) (n : Nat) :
    climb n ts = some n := by
  induction ts with
  | nil => rfl
  | cons t ts ih =>
    obtain ⟨ht, hts⟩ := List.forall_mem_cons.1 h
    rw [climb_cons_of_not_level ht, ih hts]

theorem climb_indents (n m : Nat) (span : Span) :
    climb n (List.replicate m ⟨.indent, span⟩) = some (n + m) := by
  induction m generalizing n with
  | zero => rfl
  | succ m ih =>
    have hnext : climb n (⟨.indent, span⟩ :: List.replicate m ⟨.indent, span⟩) =
        climb (n + 1) (List.replicate m ⟨.indent, span⟩) := rfl
    rw [List.replicate_succ, hnext, ih, Nat.add_right_comm, Nat.add_assoc]

theorem climb_dedents {n m : Nat} (h : m ≤ n) (span : Span) :
    climb n (List.replicate m ⟨.dedent, span⟩) = some (n - m) := by
  induction m generalizing n with
  | zero => rfl
  | succ m ih =>
    have hpos : n ≠ 0 := by omega
    have hle : m ≤ n - 1 := by omega
    rw [List.replicate_succ, climb]
    dsimp only
    rw [if_neg hpos, ih hle]
    congr 1
    omega

/-- What is counted on the way is how far it went up and down. -/
theorem count_of_climb {n m : Nat} {ts : List Token} (h : climb n ts = some m) :
    n + indents ts = m + dedents ts := by
  induction ts generalizing n with
  | nil =>
    obtain rfl := Option.some.inj h
    rfl
  | cons t ts ih =>
    rw [climb] at h
    rw [indents, dedents, List.countP_cons, List.countP_cons, ← indents, ← dedents]
    split at h
    · next hk =>
      have hcount := ih h
      simp only [hk, reduceCtorEq, decide_true, decide_false, if_true, Bool.false_eq_true, if_false]
      omega
    · next hk =>
      split at h
      · cases h
      · have hcount := ih h
        simp only [hk, reduceCtorEq, decide_true, decide_false, if_true, Bool.false_eq_true,
          if_false]
        omega
    · next hi hd =>
      have hcount := ih h
      rw [if_neg (by simpa using hi), if_neg (by simpa using hd)]
      omega

/-- What begins tokens that can be climbed does not leave more levels than it enters. -/
theorem dedents_le_indents {n : Nat} {ts front : List Token} (h : climb 0 ts = some n)
    (hf : front <+: ts) : dedents front ≤ indents front := by
  obtain ⟨back, rfl⟩ := hf
  rw [climb_append] at h
  obtain ⟨m, hm, -⟩ := Option.bind_eq_some_iff.1 h
  have hcount := count_of_climb hm
  omega

/-- Tokens without the marks that end replicas. -/
def withoutEnds (ts : List Token) : List Token := ts.filter (·.kind ≠ .replicaEnd)

theorem withoutEnds_append (as bs : List Token) :
    withoutEnds (as ++ bs) = withoutEnds as ++ withoutEnds bs := List.filter_append ..

theorem withoutEnds_cons {t : Token} (h : t.kind ≠ .replicaEnd) (ts : List Token) :
    withoutEnds (t :: ts) = t :: withoutEnds ts := List.filter_cons_of_pos (by simpa using h)

theorem climb_withoutEnds (n : Nat) (ts : List Token) : climb n (withoutEnds ts) = climb n ts := by
  induction ts generalizing n with
  | nil => rfl
  | cons t ts ih =>
    by_cases hk : t.kind = .replicaEnd
    · have hlevel : t.kind.isLevel = false := by rw [hk]; rfl
      rw [withoutEnds, List.filter_cons_of_neg (by simpa using hk), ← withoutEnds, ih,
        climb_cons_of_not_level hlevel]
    · rw [withoutEnds_cons hk, climb, climb]
      simp only [ih]

end Token

namespace Piece

open Token (climb withoutEnds withoutEnds_append climb_append climb_of_not_levels)

/-- The marks that are settled are the only tokens that move. -/
theorem withoutEnds_pushSettled (p : Position) (piece : Piece) (pieces : List Piece) :
    withoutEnds (place p (pushSettled piece pieces)) = withoutEnds (place p (piece :: pieces)) := by
  have hmark : ∀ q ps, withoutEnds (place q (mark .replicaEnd :: ps)) = withoutEnds (place q ps) :=
    fun q ps => rfl
  unfold pushSettled
  split
  · next rest =>
    split
    · rfl
    · change withoutEnds (place p (mark .replicaEnd :: piece :: rest)) =
        withoutEnds (place p (piece :: mark .replicaEnd :: rest))
      rw [hmark, place, place, withoutEnds_append, withoutEnds_append, hmark]
  · rfl

theorem withoutEnds_settle (p : Position) (pieces : List Piece) :
    withoutEnds (place p (settle pieces)) = withoutEnds (place p pieces) := by
  induction pieces generalizing p with
  | nil => rfl
  | cons piece pieces ih =>
    rw [settle_cons, withoutEnds_pushSettled, place, place, withoutEnds_append, withoutEnds_append,
      ih]

theorem not_level_of_free {pieces : List Piece} (h : ∀ piece ∈ pieces, piece.Free Kind.isLevel)
    (p : Position) : ∀ t ∈ place p pieces, t.kind.isLevel = false := by
  intro t ht
  obtain ⟨piece, hpiece, q, hq⟩ := exists_of_mem_place ht
  exact (h piece hpiece).of_mem_tokens (fun _ => rfl) (fun _ => rfl) hq

theorem climb_of_free {pieces : List Piece} (h : ∀ piece ∈ pieces, piece.Free Kind.isLevel)
    (p : Position) (n : Nat) : climb n (place p pieces) = some n :=
  climb_of_not_levels (not_level_of_free h p) n

/-- The levels of a line lead from one level to the other. -/
theorem climb_levels (p : Position) (spacers : List Char) (n m : Nat) :
    climb n (place p [covered spacers
      (List.replicate (m - n) .indent ++ List.replicate (n - m) .dedent)]) = some m := by
  have htokens : place p [covered spacers
      (List.replicate (m - n) .indent ++ List.replicate (n - m) .dedent)] =
      List.replicate (m - n) ⟨.indent, Span.ofText p spacers⟩ ++
        List.replicate (n - m) ⟨.dedent, Span.ofText p spacers⟩ := by
    simp [place, tokens]
  have hle : n - m ≤ n + (m - n) := by omega
  rw [htokens, climb_append, Token.climb_indents, Option.bind_some, Token.climb_dedents hle]
  congr 1
  omega

end Piece

namespace Lexer.Context

open Token (climb climb_append)

variable {f g : Context}

theorem Reads.climb {unit : List Piece} (h : f.Reads unit g) (p : Position) :
    climb f.level (Piece.place p unit) = some g.level := by
  cases h with
  | levels => exact Piece.climb_levels p _ _ _
  | tag hk | tagValue hk =>
    refine Piece.climb_of_free ?_ p _
    rcases hk with rfl | rfl <;> simp [Kind.isLevel]
  | _ =>
    refine Piece.climb_of_free ?_ p _
    simp [Kind.isLevel]

/-- The tokens of what is read lead from the level before to the level behind. -/
theorem ReadsAll.climb {pieces : List Piece} (h : f.ReadsAll pieces g) (p : Position) :
    climb f.level (Piece.place p pieces) = some g.level := by
  induction h generalizing p with
  | nil f => rfl
  | cons hu _ ih => rw [Piece.place_append, climb_append, hu.climb, Option.bind_some, ih]

end Lexer.Context

/-! ## Inside a line -/

namespace Lexer

/-- The step neither enters nor leaves a level, and the indentation of the line is as measured as
before. -/
structure Step.Stays (r : Step) (s : State) : Prop where
  free : ∀ piece ∈ r.pieces, piece.Free Kind.isLevel
  freshLine : r.state.freshLine = s.freshLine

namespace State

variable (s : State)

theorem stays_ite {s : State} {p : Prop} [Decidable p] {a b : Step} (ha : a.Stays s)
    (hb : b.Stays s) : (if p then a else b).Stays s := by
  split
  · exact ha
  · exact hb

theorem stays_read {pieces : List Piece} (h : ∀ piece ∈ pieces, piece.Free Kind.isLevel)
    (rest : List Char) : (s.read pieces rest).Stays s := ⟨h, rfl⟩

/-- One token that is no level. -/
theorem stays_token {kind : Kind} (hk : kind.isLevel = false) (text rest : List Char) :
    (s.read [.token kind text] rest).Stays s :=
  stays_read s (by simpa using hk) rest

theorem stays_plain {r : Step} {s' : State} (h : r.Plain s') (hf : s'.freshLine = s.freshLine) :
    r.Stays s := by
  refine ⟨h.free fun k hk => ?_, ?_⟩
  · cases k <;> first | rfl | cases hk
  · rw [h.state]
    exact hf

theorem stays_openBound {before : List Piece} (h : ∀ piece ∈ before, piece.Free Kind.isLevel)
    (cs : List Char) : (s.openBound before cs).Stays s :=
  ⟨List.forall_mem_append.2 ⟨h, by simp [Kind.isLevel]⟩, rfl⟩

theorem stays_choice (cs : List Char) : (s.choice cs).Stays s := by
  unfold choice
  dsimp only
  split
  · exact s.stays_openBound (by simp [Kind.isLevel]) _
  · refine s.stays_read ?_ _
    split <;> simp [Kind.isLevel]

theorem stays_openReplica (cs : List Char) : (s.openReplica cs).Stays s :=
  ⟨by simp [openReplica, Kind.isLevel], rfl⟩

theorem stays_structural (c : Char) (cs : List Char) : (s.structural c cs).Stays s := by
  have hplain : ∀ {r : Step}, r.Plain s → r.Stays s := fun h => s.stays_plain h rfl
  apply structural_cases (motive := fun _ r => r.Stays s)
  case space => exact fun _ => s.stays_read (by simp) _
  case openComment => exact fun _ => s.stays_plain (s.plain_openComment _) rfl
  case lineComment => exact hplain (s.plain_lineComment _)
  case call => exact fun ds => hplain (s.plain_call _)
  case choiceTag => exact fun ds => hplain (s.plain_tag (fun _ => rfl) _)
  case tag => exact fun ds => hplain (s.plain_tag (fun _ => rfl) _)
  case header => exact fun ds => hplain (s.plain_header _)
  case goto => exact fun d ds _ => hplain (s.plain_goto _)
  case choice => exact fun ds => s.stays_choice _
  case replica => exact fun ds => s.stays_openReplica _
  case bound => exact fun ds => s.stays_openBound (List.forall_mem_nil _) _
  case stray => exact hplain (s.plain_stray c cs)

theorem stays_replica (cs : List Char) : (s.replica cs).Stays s := by
  unfold replica
  apply stays_ite
  · refine ⟨?_, s.freshLine_leaveReplica⟩
    exact s.free_replicaEnd rfl
  apply stays_ite (s.stays_plain (s.plain_openComment _) rfl)
  apply stays_ite (s.stays_plain (s.plain_lineComment _) rfl)
  refine s.stays_read (List.forall_mem_singleton.2 ?_) _
  split <;> simp [Kind.isLevel]

theorem stays_choiceText (cs : List Char) : (s.choiceText cs).Stays s := by
  unfold choiceText
  apply stays_ite
  · exact ⟨by simp [Kind.isLevel], rfl⟩
  apply stays_ite (s.stays_plain (s.plain_openComment _) rfl)
  apply stays_ite (s.stays_plain (s.plain_lineComment _) rfl)
  exact s.stays_token rfl _ _

theorem stays_scan (c : Char) (cs : List Char) : (s.scan c cs).Stays s := by
  unfold scan
  obtain ⟨inComment, hplain⟩ := s.plain_commentLine (c :: cs)
  apply stays_ite (s.stays_plain hplain rfl)
  split
  · exact s.stays_structural c cs
  · exact s.stays_replica (c :: cs)
  · exact s.stays_choiceText (c :: cs)

end State

/-! ## Lines -/

/-- Whether the line that the text begins with gets a level: outside of block comments and choice
texts, where more than spaces and tabs stands on it, and not only a comment. -/
def State.MeasuresLine (s : State) (cs : List Char) : Prop :=
  s.inComment = false ∧ s.mode ≠ .choiceText ∧ atLineEnd (cs.dropWhile isSpacer) = false ∧
    (cs.dropWhile isSpacer).head? ≠ some '#'

namespace State

variable {s : State} {c : Char} {cs : List Char}

/-- Behind spaces and tabs a comment sign is none only if a backslash stands right before it. -/
theorem atLineComment_spacers {b : Lookbehind} (hb : b.escaped = false) {spacers rest : List Char}
    (hs : ∀ c ∈ spacers, isSpacer c) :
    (b.past spacers).atLineComment rest = decide (rest.head? = some '#') := by
  have hescaped : (b.past spacers).escaped = false := by
    rcases spacers.eq_nil_or_concat with rfl | ⟨front, c, rfl⟩
    · exact hb
    · rw [List.concat_eq_append, Lookbehind.past_append]
      have hc := hs c (by simp)
      refine beq_eq_false_iff_ne.2 ?_
      rintro rfl
      cases hc
  cases rest with
  | nil => rfl
  | cons d ds =>
    by_cases hd : d = '#'
    · subst hd
      simp [Lookbehind.atLineComment, hescaped]
    · have hnone : (b.past spacers).atLineComment (d :: ds) = false := by
        unfold Lookbehind.atLineComment
        split
        · next h => exact absurd (List.cons.inj h).1 hd
        · rfl
      simp [hnone, hd]

/-- A step in a line whose indentation is not to be measured, or was measured before. -/
theorem quiet_step (hn : atNewline (c :: cs) = false)
    (h : s.freshLine = true → s.behind.escaped = false ∧ ¬s.MeasuresLine (c :: cs)) :
    (∀ piece ∈ (s.step c cs).pieces, piece.Free Kind.isLevel) ∧
      (s.step c cs).state.freshLine = false := by
  have hspace : ∀ text : List Char, ∀ piece ∈ [Piece.gap text], piece.Free Kind.isLevel := by
    simp
  unfold step
  rw [if_neg (by simp [hn])]
  dsimp only
  split
  · next hm =>
    simp only [measures, Bool.and_eq_true, Bool.not_eq_true', bne_iff_ne] at hm
    obtain ⟨⟨hfresh, hcomment⟩, hmode⟩ := hm
    obtain ⟨hescaped, hline⟩ := h hfresh
    split
    · exact ⟨hspace _, rfl⟩
    · next d ds hd =>
      split
      · exact ⟨hspace _, rfl⟩
      · next hnd =>
        -- there is more to the line, so it is a comment
        have hsign : (d :: ds).head? = some '#' := by
          by_contra hne
          refine hline ⟨hcomment, hmode, ?_, ?_⟩
          · rw [hd]
            simpa [atLineEnd] using hnd
          · rwa [hd]
        have hquiet : State.indentation { s with freshLine := false }
            ((c :: cs).takeWhile isSpacer) (d :: ds) =
              ([.gap ((c :: cs).takeWhile isSpacer)], { s with freshLine := false }) := by
          rw [indentation, atLineComment_spacers hescaped (isSpacer_of_mem_takeWhile _), hsign]
          rfl
        rw [hquiet]
        have hscan := stays_scan (past { s with freshLine := false }
          [.gap ((c :: cs).takeWhile isSpacer)]) d ds
        exact ⟨List.forall_mem_append.2 ⟨hspace _, hscan.free⟩, hscan.freshLine⟩
  · have hscan := stays_scan { s with freshLine := false } c cs
    exact ⟨hscan.free, hscan.freshLine⟩

/-- A step at a line end reads the line end and nothing else. -/
theorem step_newline (hn : atNewline (c :: cs) = true) :
    ∃ text, (s.step c cs).pieces = [.token .newline text] ∧ EndsLine text := by
  rw [step, if_pos hn]
  rcases newline_of_atNewline hn with ⟨ds, hds⟩ | ⟨ds, hds⟩
  · rw [hds]
    exact ⟨['\n'], rfl, rfl⟩
  · rw [hds]
    exact ⟨['\r', '\n'], rfl, rfl⟩

/-- Up to the end of a line whose indentation is not to be measured any more, no level is entered or
left. -/
theorem exists_line_walk
    (h : s.freshLine = true → s.behind.escaped = false ∧ ¬s.MeasuresLine cs) :
    ∃ line later, (walk s cs).1 = line ++ later ∧ (∀ piece ∈ line, piece.Free Kind.isLevel) ∧
      (later = [] ∨ EndsLine (Piece.texts line)) := by
  fun_induction walk s cs with
  | case1 s => exact ⟨[], [], rfl, List.forall_mem_nil _, .inl rfl⟩
  | case2 s c cs later ih =>
    by_cases hn : atNewline (c :: cs) = true
    · obtain ⟨text, hpieces, hends⟩ := step_newline hn
      refine ⟨(s.step c cs).pieces, later.1, rfl, ?_, .inr ?_⟩
      · rw [hpieces]
        simp [Kind.isLevel]
      · simpa [hpieces] using hends
    · obtain ⟨hfree, hfresh⟩ := quiet_step (by simpa using hn) h
      obtain ⟨line, rest, hwalk, hline, hend⟩ := ih (fun hf => by rw [hfresh] at hf; cases hf)
      refine ⟨(s.step c cs).pieces ++ line, rest, ?_, List.forall_mem_append.2 ⟨hfree, hline⟩, ?_⟩
      · rw [List.append_assoc, ← hwalk]
      · refine hend.imp_right fun hends => ?_
        rw [Piece.texts_append]
        exact hends.append_left _

/-- The indentation of a measured line leads to the level of the line. -/
theorem climb_indentation (hc : s.inComment = false) (hm : s.mode ≠ .choiceText)
    {spacers rest : List Char} (hs : ∀ c ∈ spacers, isSpacer c)
    (hr : (s.behind.past spacers).atLineComment rest = false) (p : Position) :
    Token.climb s.level (Piece.place p (s.indentation spacers rest).1) = some (levelOf spacers) := by
  have hreads := (readsAll_indentation hm hc hs rest).climb p
  have hlevel : (s.indentation spacers rest).2.level = levelOf spacers := by
    rw [indentation]
    dsimp only
    split
    · next h =>
      rw [hr, Bool.false_or, beq_iff_eq] at h
      exact h.symm
    · rfl
  exact hreads.trans (congrArg some hlevel)

/-- It is levels and the end of a replica, and nothing else. -/
theorem level_of_mem_indentation {spacers rest : List Char} {p : Position} {t : Token}
    (h : t ∈ Piece.place p (s.indentation spacers rest).1) :
    t.kind.isLevel ∨ t.kind = .replicaEnd := by
  obtain ⟨piece, hpiece, q, ht⟩ := Piece.exists_of_mem_place h
  rw [indentation] at hpiece
  dsimp only at hpiece
  split at hpiece
  · obtain rfl := List.mem_singleton.1 hpiece
    cases ht
  · rcases List.mem_append.1 hpiece with hend | hlevels
    · rw [replicaEnd] at hend
      split at hend
      · obtain rfl := List.mem_singleton.1 hend
        obtain rfl := List.mem_singleton.1 ht
        exact .inr rfl
      · cases hend
    · obtain rfl := List.mem_singleton.1 hlevels
      obtain ⟨k, hk, rfl⟩ := List.mem_map.1 ht
      rcases List.mem_append.1 hk with hk | hk
      all_goals exact .inl (by rw [List.eq_of_mem_replicate hk]; rfl)

/-- The first step in a line whose indentation is measured goes on behind the indentation. -/
theorem MeasuresLine.exists_step (h : s.MeasuresLine cs) (hf : s.freshLine = true) :
    ∃ c cs' d ds, cs = c :: cs' ∧ cs.dropWhile isSpacer = d :: ds ∧
      let i := State.indentation { s with freshLine := false } (cs.takeWhile isSpacer) (d :: ds)
      s.step c cs' =
        { (i.2.past i.1).scan d ds with pieces := i.1 ++ ((i.2.past i.1).scan d ds).pieces } := by
  obtain ⟨hcomment, hmode, hmore, -⟩ := h
  obtain ⟨d, ds, hd⟩ : ∃ d ds, cs.dropWhile isSpacer = d :: ds := by
    refine List.exists_cons_of_ne_nil ?_
    intro hnil
    rw [hnil] at hmore
    cases hmore
  obtain ⟨c, cs, rfl⟩ : ∃ c cs', cs = c :: cs' := by
    refine List.exists_cons_of_ne_nil ?_
    rintro rfl
    cases hd
  refine ⟨c, cs, d, ds, rfl, hd, ?_⟩
  have hmeasures : s.measures = true := by simp [measures, hf, hcomment, hmode]
  rw [hd] at hmore
  have hnd : ¬atNewline (d :: ds) = true := by simpa [atLineEnd] using hmore
  have hn : ¬atNewline (c :: cs) = true := by
    intro hn
    have hc : isSpacer c = false := by
      rcases newline_of_atNewline hn with ⟨es, he⟩ | ⟨es, he⟩
      all_goals rw [(List.cons.inj he).1]; rfl
    rw [List.dropWhile_cons_of_neg (by simp [hc])] at hd
    exact hnd (hd ▸ hn)
  rw [step, if_neg hn]
  dsimp only
  rw [if_pos hmeasures, hd]
  dsimp only
  rw [if_neg hnd]

/-- A line whose indentation is measured comes to its level first. Then no level is entered or left
up to its end. -/
theorem exists_measured_walk (hf : s.freshLine = true) (hb : s.behind.escaped = false)
    (h : s.MeasuresLine cs) :
    ∃ front line later, (walk s cs).1 = front ++ (line ++ later) ∧ InLine (Piece.texts front) ∧
      (∀ p, ∀ t ∈ Piece.place p front, t.kind.isLevel ∨ t.kind = .replicaEnd) ∧
      (∀ p, Token.climb s.level (Piece.place p front) = some (levelOf (cs.takeWhile isSpacer))) ∧
      (∀ piece ∈ line, piece.Free Kind.isLevel) ∧ (later = [] ∨ EndsLine (Piece.texts line)) := by
  have hspacers := isSpacer_of_mem_takeWhile cs
  obtain ⟨hcomment, hmode, hmore, hsign⟩ := h
  obtain ⟨c, cs', d, ds, hcs, hd, hstep⟩ :=
    MeasuresLine.exists_step ⟨hcomment, hmode, hmore, hsign⟩ hf
  have hline := splits_indentation { s with freshLine := false } hspacers (d :: ds)
  have hfresh := freshLine_indentation { s with freshLine := false }
    (cs.takeWhile isSpacer) (d :: ds)
  have hremark : (s.behind.past (cs.takeWhile isSpacer)).atLineComment (d :: ds) = false := by
    rw [atLineComment_spacers hb hspacers, ← hd]
    simpa using hsign
  have hclimb := climb_indentation (s := { s with freshLine := false }) hcomment hmode hspacers
    hremark
  have hlevels := fun p t => @level_of_mem_indentation { s with freshLine := false }
    (cs.takeWhile isSpacer) (d :: ds) p t
  dsimp only at hstep
  generalize State.indentation { s with freshLine := false } (cs.takeWhile isSpacer) (d :: ds) = i
    at hstep hline hfresh hclimb hlevels
  have hscan := stays_scan (i.2.past i.1) d ds
  have hquiet : ((i.2.past i.1).scan d ds).state.freshLine = false := hscan.freshLine.trans hfresh
  obtain ⟨line, later, hwalk, hfree, hend⟩ := @exists_line_walk
    ((i.2.past i.1).scan d ds).state ((i.2.past i.1).scan d ds).rest
    (fun hf => by rw [hquiet] at hf; cases hf)
  refine ⟨i.1, ((i.2.past i.1).scan d ds).pieces ++ line, later, ?_, ?_, hlevels, hclimb, ?_, ?_⟩
  · rw [hcs, walk, hstep, hwalk, List.append_assoc, List.append_assoc]
  · rw [hline.1]
    exact inLine_of_spacers hspacers
  · exact List.forall_mem_append.2 ⟨hscan.free, hfree⟩
  · refine hend.imp_right fun hends => ?_
    rw [Piece.texts_append]
    exact hends.append_left _

end State

theorem faithful_walk (s : State) (cs : List Char) : ∀ piece ∈ (walk s cs).1, piece.Faithful := by
  intro piece hpiece
  apply faithful_run s cs
  rw [run_eq_walk]
  exact List.mem_append_left _ hpiece

/-- What is read of whole lines starts before the line behind them. -/
theorem line_lt_of_mem_walk {s : State} {cs : List Char} (h : WholeLines cs) {p : Position}
    {t : Token} (ht : t ∈ Piece.place p (walk s cs).1) :
    t.span.start.line < (p.advance cs).line := by
  rcases h with rfl | h
  · rw [walk] at ht
    cases ht
  · obtain ⟨pieces, ending, hwalk⟩ := exists_lineEnd_walk s h
    have hf := faithful_walk s cs
    have htexts := texts_walk s cs
    rw [hwalk] at ht hf htexts
    rw [Piece.texts_append, Piece.texts_cons, Piece.texts_nil, List.append_nil] at htexts
    rw [← htexts, Position.advance_append]
    have hending : Token.Lies (p.advance (Piece.texts pieces)) ending
        ⟨.newline, Span.ofText (p.advance (Piece.texts pieces)) ending⟩ :=
      ⟨[], ending, [], by simp, rfl, hf (.token .newline ending) (by simp) .newline (by simp)⟩
    have hlt := hending.start_lt_stop rfl
    rw [Piece.place_append] at ht
    rcases List.mem_append.1 ht with ht | ht
    · -- everything else has ended where the line end begins
      have hlies := Piece.lies_of_mem_place (fun q hq => hf q (List.mem_append_left _ hq)) ht
      exact Nat.lt_of_le_of_lt (Nat.le_trans hlies.start_line_le_stop hlies.stop_le_line) hlt
    · obtain rfl := List.mem_singleton.1 ht
      exact hlt

end Lexer

/-! ## The whole source -/

/-- What is read behind a line starts behind it. -/
theorem Piece.line_lt_of_mem_later {line later : List Piece} (hf : ∀ piece ∈ later, piece.Faithful)
    (h : later = [] ∨ EndsLine (texts line)) {p : Position} {t : Token}
    (ht : t ∈ place (p.advance (texts line)) later) : p.line < t.span.start.line := by
  rcases h with rfl | hends
  · cases ht
  · exact Nat.lt_of_lt_of_le (p.line_lt_advance hends.mem) (lies_of_mem_place hf ht).line_le_start

namespace Token

theorem mem_withoutEnds {t : Token} {ts : List Token} :
    t ∈ withoutEnds ts ↔ t ∈ ts ∧ t.kind ≠ .replicaEnd := by
  simp [withoutEnds]

/-- Up to the marks that end replicas, the tokens of a source are those of the lines before a place
and those of the lines from there on. -/
theorem exists_body_tokenize (source : String) :
    ∃ body n, tokenize source = body ++
        (List.replicate n ⟨.dedent, .point (Position.origin.advance source.toList)⟩ ++
          [⟨.eof, .point (Position.origin.advance source.toList)⟩]) ∧
      climb 0 body = some n ∧
      ∀ before after, source.toList = before ++ after → WholeLines before →
        withoutEnds body =
          withoutEnds (Piece.place Position.origin (Lexer.walk {} before).1) ++
            withoutEnds (Piece.place (Position.origin.advance before)
              (Lexer.walk (Lexer.walk {} before).2 after).1) := by
  obtain ⟨pieces, s, hwalk⟩ : ∃ pieces s, Lexer.walk {} source.toList = (pieces, s) := ⟨_, _, rfl⟩
  have hrun : Lexer.run {} source.toList = pieces ++ s.replicaEnd ++ Lexer.closing s.level := by
    rw [Lexer.run_eq_walk, hwalk, State.finish, Lexer.closing]
    simp
  have htexts : Piece.texts (Piece.settle (pieces ++ s.replicaEnd)) = source.toList := by
    have h := Lexer.texts_settle_walk {} source.toList (Lexer.State.texts_replicaEnd s)
    rwa [hwalk] at h
  have hends : withoutEnds (Piece.place Position.origin (Piece.settle (pieces ++ s.replicaEnd))) =
      withoutEnds (Piece.place Position.origin pieces) := by
    rw [Piece.withoutEnds_settle, Piece.place_append, withoutEnds_append]
    unfold State.replicaEnd
    split
    all_goals exact List.append_nil _
  refine ⟨Piece.place Position.origin (Piece.settle (pieces ++ s.replicaEnd)), s.level, ?_, ?_, ?_⟩
  · rw [tokenize, hrun, Piece.settle_append (Lexer.mark_not_mem_closing _), Piece.place_append,
      htexts, Piece.place_closing]
  · have hclimb := (Lexer.readsAll_walk {} source.toList).climb Position.origin
    rw [hwalk] at hclimb
    rw [← climb_withoutEnds, hends, climb_withoutEnds]
    exact hclimb
  · intro before after hsource hlines
    have happend := (Lexer.walk_append {} hlines after).1
    rw [← hsource, hwalk] at happend
    rw [hends, ← Piece.place_map_alone, happend, Piece.place_map_alone, Piece.place_append,
      withoutEnds_append, Lexer.texts_walk]

/-- The tokens of a source come back to the level they begin on. -/
theorem climb_tokenize (source : String) : climb 0 (tokenize source) = some 0 := by
  obtain ⟨body, n, htokens, hclimb, -⟩ := exists_body_tokenize source
  rw [htokens, climb_append, hclimb, Option.bind_some, climb_append, climb_dedents (Nat.le_refl n),
    Nat.sub_self]
  rfl

/-- Where a token stands in a list, if it is not in the first part. -/
theorem split_of_not_mem {as bs front back : List Token} {t : Token}
    (h : as ++ bs = front ++ t :: back) (ht : t ∉ as) :
    ∃ more, front = as ++ more ∧ bs = more ++ t :: back := by
  rcases split_append h with ⟨more, rfl⟩ | h
  · exact absurd (by simp) ht
  · exact h

section
variable {s : State} {after : List Char} {p : Position} {earlier closing front back : List Token}
  {t : Token} (hs : s.Fresh) (hearlier : ∀ u ∈ earlier, u.span.start.line < p.line)
  (hline : t.span.start.line = p.line)
include hs hearlier hline

/-- In front of what stands on a measured line, the count is the level of the line. -/
theorem climb_of_measured (hm : s.MeasuresLine after) (hlevel : climb 0 earlier = some s.level)
    (hclosing : ∀ u ∈ closing, u.kind.isLevel ∨ u.kind = .eof)
    (h : earlier ++ (withoutEnds (Piece.place p (Lexer.walk s after).1) ++ closing) =
      front ++ t :: back)
    (ht : ¬t.kind.isLevel) (heof : t.kind ≠ .eof) :
    climb 0 front = some (levelOf (after.takeWhile isSpacer)) := by
  have hescaped : s.behind.escaped = false := by rw [hs.behind]
  obtain ⟨first, line, later, hwalk, hfirst, hlevels, hclimb, hfree, hend⟩ :=
    Lexer.State.exists_measured_walk hs.freshLine hescaped hm
  have hf := Lexer.faithful_walk s after
  rw [hwalk] at h hf
  rw [Piece.place_append, Piece.place_append, withoutEnds_append, withoutEnds_append,
    List.append_assoc, List.append_assoc] at h
  -- it stands neither before the line nor in its indentation
  obtain ⟨more, rfl, hmore⟩ := split_of_not_mem h fun hmem => by
    have hlt := hearlier t hmem
    omega
  obtain ⟨between, rfl, hbetween⟩ := split_of_not_mem hmore fun hmem => by
    obtain ⟨hmem, hne⟩ := mem_withoutEnds.1 hmem
    rcases hlevels p t hmem with hl | he
    · exact ht hl
    · exact hne he
  have hindented : climb 0 (earlier ++ withoutEnds (Piece.place p first)) =
      some (levelOf (after.takeWhile isSpacer)) := by
    rw [climb_append, hlevel, Option.bind_some, climb_withoutEnds, hclimb]
  rw [← List.append_assoc, climb_append, hindented, Option.bind_some]
  apply climb_of_not_levels
  -- nor behind the line, so what is between is of the line
  rcases split_append hbetween with ⟨rest, hsplit⟩ | ⟨more, -, hlater⟩
  · intro u hu
    have hmem : u ∈ withoutEnds (Piece.place (p.advance (Piece.texts first)) line) := by
      rw [hsplit]
      exact List.mem_append_left _ hu
    exact Piece.not_level_of_free hfree _ u (mem_withoutEnds.1 hmem).1
  · have hmem : t ∈ withoutEnds (Piece.place ((p.advance (Piece.texts first)).advance
        (Piece.texts line)) later) ++ closing := by
      rw [hlater]
      simp
    rcases List.mem_append.1 hmem with hmem | hmem
    · have hlt := Piece.line_lt_of_mem_later
        (fun q hq => hf q (List.mem_append_right _ (List.mem_append_right _ hq))) hend
        (mem_withoutEnds.1 hmem).1
      rw [Position.line_advance hfirst] at hlt
      omega
    · rcases hclosing t hmem with hl | he
      · exact absurd hl ht
      · exact absurd he heof

/-- A line that is not measured enters and leaves no level. -/
theorem not_level_of_not_measured (hm : ¬s.MeasuresLine after)
    (h : t ∈ earlier ++ withoutEnds (Piece.place p (Lexer.walk s after).1)) :
    t.kind.isLevel = false := by
  have hescaped : s.behind.escaped = false := by rw [hs.behind]
  obtain ⟨line, later, hwalk, hfree, hend⟩ :=
    Lexer.State.exists_line_walk fun _ => ⟨hescaped, hm⟩
  have hf := Lexer.faithful_walk s after
  rw [hwalk] at h hf
  rw [Piece.place_append, withoutEnds_append] at h
  rcases List.mem_append.1 h with h | h
  · have hlt := hearlier t h
    omega
  rcases List.mem_append.1 h with h | h
  · exact Piece.not_level_of_free hfree p t (mem_withoutEnds.1 h).1
  · have hlater := Piece.line_lt_of_mem_later (fun q hq => hf q (List.mem_append_right _ hq)) hend
      (mem_withoutEnds.1 h).1
    omega

end

end Token

/-- Indents and dedents keep count of the level of the lines. The count is never below zero and comes
back to zero. For a line that begins in the state `s`: if its indentation is measured, the count
before its first token is the level of its spaces and tabs, and if not, no level begins or ends on
it. -/
theorem levels_tokenize (source : String) :
    (∀ front, front <+: tokenize source → Token.dedents front ≤ Token.indents front) ∧
      Token.indents (tokenize source) = Token.dedents (tokenize source) ∧
      ∃ body n, tokenize source = body ++
          (List.replicate n ⟨.dedent, .point (Position.origin.advance source.toList)⟩ ++
            [⟨.eof, .point (Position.origin.advance source.toList)⟩]) ∧
        ∀ before after, source.toList = before ++ after → WholeLines before →
          let s := (Lexer.walk {} before).2
          let line := (Position.origin.advance before).line
          let spacers := after.takeWhile isSpacer
          (s.MeasuresLine after → ∀ front t back, tokenize source = front ++ t :: back →
            t.span.start.line = line → t.kind ∉ [.indent, .dedent, .replicaEnd, .eof] →
            Token.indents front =
              Token.dedents front + (spacers.count ' ' + 2 * spacers.count '\t') / 2) ∧
          (¬s.MeasuresLine after → ∀ t ∈ body, t.span.start.line = line →
            t.kind ≠ .indent ∧ t.kind ≠ .dedent) := by
  have hall := Token.climb_tokenize source
  obtain ⟨body, n, htokens, -, hlines⟩ := Token.exists_body_tokenize source
  refine ⟨fun front hfront => Token.dedents_le_indents hall hfront, ?_, body, n, htokens, ?_⟩
  · have hcount := Token.count_of_climb hall
    omega
  · intro before after hsource hwhole s line spacers
    have hfresh : s.Fresh := Lexer.fresh_walk ⟨rfl, rfl⟩ hwhole
    have hbefore : ∀ u ∈ Token.withoutEnds (Piece.place Position.origin (Lexer.walk {} before).1),
        u.span.start.line < line := fun u hu =>
      Lexer.line_lt_of_mem_walk hwhole (Token.mem_withoutEnds.1 hu).1
    have hsplit := hlines before after hsource hwhole
    refine ⟨?_, ?_⟩
    · intro hm front t back hfront hline hkind
      simp only [List.mem_cons, List.not_mem_nil, or_false, not_or] at hkind
      obtain ⟨hindent, hdedent, hend, heof⟩ := hkind
      have hlevel := (Lexer.readsAll_walk {} before).climb Position.origin
      rw [← Token.climb_withoutEnds] at hlevel
      have htoken : Token.withoutEnds (tokenize source) =
          Token.withoutEnds front ++ t :: Token.withoutEnds back := by
        rw [hfront, Token.withoutEnds_append, Token.withoutEnds_cons hend]
      rw [htokens, Token.withoutEnds_append, hsplit, List.append_assoc] at htoken
      have hmeasured := Token.climb_of_measured hfresh hbefore hline hm hlevel ?_ htoken ?_ heof
      · rw [Token.climb_withoutEnds] at hmeasured
        have hcount := Token.count_of_climb hmeasured
        rw [Nat.zero_add] at hcount
        rw [hcount, Nat.add_comm]
        rfl
      · intro u hu
        have hclosing := (Token.mem_withoutEnds.1 hu).1
        rcases List.mem_append.1 hclosing with hu | hu
        · exact .inl (by rw [List.eq_of_mem_replicate hu]; rfl)
        · exact .inr (by rw [List.mem_singleton.1 hu])
      · intro hl
        cases hk : t.kind <;> simp_all [Kind.isLevel]
    · intro hm t ht hline
      by_cases hend : t.kind = .replicaEnd
      · simp [hend]
      · have hmem := Token.mem_withoutEnds.2 ⟨ht, hend⟩
        rw [hsplit] at hmem
        have hlevel := Token.not_level_of_not_measured hfresh hbefore hline hm hmem
        refine ⟨?_, ?_⟩
        all_goals
          intro hk
          rw [hk] at hlevel
          cases hlevel

/-- A space and a tab are three columns, which is one level. -/
theorem levels_tokenize_odd_columns :
    let tokens := tokenize "\" a\n \t@b\n"
    (tokens.drop 5).head?.map (·.kind) = some (.tag "b") ∧
      Token.indents (tokens.take 5) = Token.dedents (tokens.take 5) + 1 := by
  obtain ⟨-, -, body, n, -, hlines⟩ := levels_tokenize "\" a\n \t@b\n"
  have hstate : (Lexer.walk {} "\" a\n".toList).2.MeasuresLine " \t@b\n".toList :=
    ⟨by decide +kernel, by decide +kernel, by decide +kernel, by decide +kernel⟩
  have hline := (hlines "\" a\n".toList " \t@b\n".toList rfl (by decide +kernel)).1 hstate
  have htag : tokenize "\" a\n \t@b\n" = (tokenize "\" a\n \t@b\n").take 5 ++
      ⟨.tag "b", ⟨⟨6, 2, 3⟩, ⟨8, 2, 5⟩⟩⟩ :: (tokenize "\" a\n \t@b\n").drop 6 := by
    decide +kernel
  exact ⟨by decide +kernel, hline _ _ _ htag rfl (by decide)⟩

end StoryScript

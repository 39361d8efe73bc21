import StoryScript.Proofs.Token.Grammar
import StoryScript.Proofs.Token.Plain
/-!
# Where texts have gaps

Between the bounds of a choice text every character belongs to a token, so these tokens stand side by
side. Two speeches of a replica never do: something that is not said stands between them. Both come
from what a single step can read of a text (`Step.Texts`), and hold of the tokens of every source
(`laid_tokenize`).
-/

namespace StoryScript

open Token (Kind)

/-- The kinds that carry the text of replicas and choices. -/
def Token.Kind.isSaid : Kind → Bool
  | .speech _ | .choiceText _ => true
  | _ => false

/-- The kinds that are speech or the visible bounds of choice texts. -/
def Token.Kind.isTextual : Kind → Bool
  | .speech _ | .choiceBound false => true
  | _ => false

namespace Piece

/-- A piece of an open choice text: one token with a text. -/
def InText (piece : Piece) : Prop :=
  ∃ k text, piece = token k text ∧ k.isInChoiceText ∧ text ≠ []

/-- What can stand right behind a speech: the end of the replica, or trivia with a text. -/
def Parts (piece : Piece) : Prop :=
  piece = mark .replicaEnd ∨ ∃ k text, piece = token k text ∧ k.isTrivia ∧ text ≠ []

theorem InText.free {piece : Piece} (h : piece.InText) : piece.Free Kind.isTextual := by
  obtain ⟨k, text, rfl, hk, -⟩ := h
  rw [free_token]
  cases k <;> first | rfl | cases hk

/-- Trivia with a text can stand in a choice text and behind a speech. -/
theorem inText_trivia {k : Kind} {text : List Char} (hk : k.isTrivia) (ht : text ≠ []) :
    (token k text).InText :=
  ⟨k, text, rfl, by (cases k <;> first | rfl | cases hk), ht⟩

end Piece

/-! ## Where a text stops -/

/-- A reader stops at the end of the text or where it is told to. -/
theorem stopped_readUntil (stop : Lookbehind → List Char → Bool) (b : Lookbehind)
    (cs : List Char) :
    (readUntil stop b cs).2 = [] ∨ stop (b.past (readUntil stop b cs).1) (readUntil stop b cs).2 := by
  induction cs generalizing b with
  | nil => exact .inl rfl
  | cons c cs ih =>
    rw [readUntil]
    split
    · next h => exact .inr h
    · exact ih (b.next c)

theorem stopped_readText (stop : Lookbehind → List Char → Bool) (nesting : Option CallNesting)
    (b : Lookbehind) (cs : List Char) :
    atLineEnd (readText stop nesting b cs).2 ∨
      stop (b.past (readText stop nesting b cs).1) (readText stop nesting b cs).2 := by
  induction cs generalizing nesting b with
  | nil => cases nesting <;> exact .inl rfl
  | cons c cs ih =>
    cases nesting with
    | some n =>
      rw [readText]
      split
      · next hl => exact .inl hl
      · exact ih _ _
    | none =>
      rw [readText]
      split
      · next hl => exact .inl hl
      · split
        · exact ih _ _
        · split
          · next hs => exact .inr hs
          · exact ih _ _

theorem ne_nil_of_length_lt {as bs cs : List Char} (h : as ++ bs = cs)
    (hlt : bs.length < cs.length) : as ≠ [] := by
  rintro rfl
  rw [← h] at hlt
  exact absurd hlt (Nat.lt_irrefl _)

namespace Lexer

/-! ## Steps -/

/-- A place right behind a speech, where no other one can begin. -/
structure State.BehindSpeech (s : State) (rest : List Char) : Prop where
  mode : s.mode = .replica
  inComment : s.inComment = false
  freshLine : s.freshLine = false
  stop : atLineEnd rest ∨ s.behind.endsReplica rest ∨ s.behind.atComment rest

/-- What a step can read of a text. -/
inductive Step.Texts (s : State) (r : Step) : Prop where
  /-- Nothing of it, or what an open choice text goes on with. -/
  | plain (hf : ∀ piece ∈ r.pieces, piece.Free Kind.isTextual)
      (hi : s.mode = .choiceText → ∀ piece ∈ r.pieces, piece.InText)
      (hm : r.state.mode = .choiceText ↔ s.mode = .choiceText)
  | opens {before : List Piece} {text : List Char}
      (hp : r.pieces = before ++ [.token (.choiceBound false) text])
      (hf : ∀ piece ∈ before, piece.Free Kind.isTextual) (hs : s.mode ≠ .choiceText)
      (hm : r.state.mode = .choiceText)
  | closes {text : List Char} (hp : r.pieces = [.token (.choiceBound false) text])
      (hs : s.mode = .choiceText) (hm : r.state.mode ≠ .choiceText)
  | speaks {before : List Piece} {said : String} {text : List Char}
      (hp : r.pieces = before ++ [.token (.speech said) text]) (ht : text ≠ [])
      (hf : ∀ piece ∈ before, piece.Free Kind.isTextual) (hs : s.mode ≠ .choiceText)
      (hr : r.state.BehindSpeech r.rest)

/-- Of the state before a step, only the mode counts. -/
theorem Step.Texts.of_mode_eq {s s' : State} {r : Step} (h : r.Texts s') (hm : s.mode = s'.mode) :
    r.Texts s := by
  cases h with
  | plain hf hi hr => exact .plain hf (hm ▸ hi) (hm ▸ hr)
  | opens hp hf hs hr => exact .opens hp hf (hm ▸ hs) hr
  | closes hp hs hr => exact .closes hp (hm ▸ hs) hr
  | speaks hp ht hf hs hr => exact .speaks hp ht hf (hm ▸ hs) hr

/-- The indentation in front of what a step reads is nothing of a text. -/
theorem Step.Texts.indented {s s' : State} {r : Step} {pieces : List Piece} (h : r.Texts s')
    (hs : s.mode ≠ .choiceText) (hs' : s'.mode ≠ .choiceText)
    (hf : ∀ piece ∈ pieces, piece.Free Kind.isTextual) :
    Step.Texts s { r with pieces := pieces ++ r.pieces } := by
  cases h with
  | plain hr hi hm =>
    refine .plain (List.forall_mem_append.2 ⟨hf, hr⟩) (fun h => absurd h hs) ?_
    exact ⟨fun h => absurd (hm.1 h) hs', fun h => absurd h hs⟩
  | @opens before text hp hb _ hm =>
    have hall : pieces ++ r.pieces = pieces ++ before ++ [.token (.choiceBound false) text] := by
      rw [hp, List.append_assoc]
    exact .opens hall (List.forall_mem_append.2 ⟨hf, hb⟩) hs hm
  | closes hp h _ => exact absurd h hs'
  | @speaks before said text hp ht hb _ hr =>
    have hall : pieces ++ r.pieces = pieces ++ before ++ [.token (.speech said) text] := by
      rw [hp, List.append_assoc]
    exact .speaks hall ht (List.forall_mem_append.2 ⟨hf, hb⟩) hs hr

namespace State

section
variable {s : State} {pieces : List Piece} {rest : List Char}

/-- A step outside of choice texts that reads nothing of a text. -/
theorem texts_of_free (hs : s.mode ≠ .choiceText)
    (hf : ∀ piece ∈ pieces, piece.Free Kind.isTextual) : (s.read pieces rest).Texts s :=
  .plain hf (fun h => absurd h hs) .rfl

/-- A step in any mode that reads what could stand in a choice text. -/
theorem texts_of_inText (hi : ∀ piece ∈ pieces, piece.InText) : (s.read pieces rest).Texts s :=
  .plain (fun piece hp => (hi piece hp).free) (fun _ => hi) .rfl

end

theorem texts_ite {s : State} {p : Prop} [Decidable p] {a b : Step} (ha : p → a.Texts s)
    (hb : ¬ p → b.Texts s) : (if p then a else b).Texts s := by
  split
  · next h => exact ha h
  · next h => exact hb h

theorem texts_openComment (s : State) {b : Lookbehind} {cs : List Char}
    (h : b.atCommentOpen cs = true) : (s.openComment cs).Texts s := by
  obtain ⟨ds, rfl⟩ := Lookbehind.cons_of_atCommentOpen h
  have hi : ∀ piece ∈ [Piece.token .commentOpen ['/', '*']], piece.InText := by
    simpa using Piece.inText_trivia rfl (List.cons_ne_nil _ _)
  exact .plain (fun piece hp => (hi piece hp).free) (fun _ => hi) .rfl

theorem texts_lineComment (s : State) {c : Char} {cs : List Char}
    (hl : atLineEnd (c :: cs) = false) : (s.lineComment (c :: cs)).Texts s := by
  refine texts_of_inText (List.forall_mem_singleton.2 (Piece.inText_trivia rfl ?_))
  exact ne_nil_of_length_lt (readUntil_append ..) (length_readUntil_lt hl)

theorem texts_commentLine (s : State) (cs : List Char) : (s.commentLine cs).Texts s := by
  unfold commentLine
  generalize readUntil (fun b cs => atLineEnd cs || b.atCommentClose cs) s.behind cs = r
  have htext : ∀ piece ∈ if r.1.isEmpty then [] else
      [Piece.token (.commentText (String.ofList r.1)) r.1], piece.InText := by
    split
    · exact nofun
    · next hne =>
      exact List.forall_mem_singleton.2 (Piece.inText_trivia rfl (by simpa using hne))
  dsimp only
  split
  · next hclose =>
    obtain ⟨ds, hds⟩ := Lookbehind.cons_of_atCommentClose hclose
    have hi := List.forall_mem_append.2 ⟨htext, List.forall_mem_singleton.2
      (Piece.inText_trivia (k := .commentClose) rfl (List.cons_ne_nil '*' ['/']))⟩
    rw [hds]
    exact .plain (fun piece hp => (hi piece hp).free) (fun _ => hi) .rfl
  · exact texts_of_inText htext

theorem texts_newline (s : State) {cs : List Char} (h : atNewline cs = true) :
    (s.newline cs).Texts s := by
  have hi : ∀ text : List Char, text ≠ [] → ∀ piece ∈ [Piece.token .newline text], piece.InText :=
    fun text ht => List.forall_mem_singleton.2 (Piece.inText_trivia rfl ht)
  rcases newline_of_atNewline h with ⟨ds, rfl⟩ | ⟨ds, rfl⟩
  · have hone := hi ['\n'] (List.cons_ne_nil _ _)
    exact .plain (fun piece hp => (hone piece hp).free) (fun _ => hone) .rfl
  · have hone := hi ['\r', '\n'] (List.cons_ne_nil _ _)
    exact .plain (fun piece hp => (hone piece hp).free) (fun _ => hone) .rfl

section
variable {s : State} (hs : s.mode = .structural)
include hs

theorem structural_ne_choiceText : s.mode ≠ .choiceText := by
  rw [hs]
  exact nofun

theorem texts_plain {r : Step} (h : r.Plain s) : r.Texts s := by
  have hne := structural_ne_choiceText hs
  refine .plain (h.free fun k hk => ?_) (fun h => absurd h hne) ?_
  · cases k <;> first | rfl | cases hk
  · rw [h.state]
    exact .rfl

theorem texts_openBound {before : List Piece}
    (hf : ∀ piece ∈ before, piece.Free Kind.isTextual) (cs : List Char) :
    (s.openBound before cs).Texts s :=
  .opens rfl hf (structural_ne_choiceText hs) rfl

theorem texts_choice (cs : List Char) : (s.choice cs).Texts s := by
  unfold choice
  dsimp only
  split
  · exact texts_openBound hs (by simp [Kind.isTextual]) _
  · refine texts_of_free (structural_ne_choiceText hs) ?_
    split <;> simp [Kind.isTextual]

theorem texts_openReplica (cs : List Char) : (s.openReplica cs).Texts s :=
  .plain (List.forall_mem_singleton.2 (by simp [Kind.isTextual]))
    (fun h => absurd h (structural_ne_choiceText hs))
    ⟨nofun, fun h => absurd h (structural_ne_choiceText hs)⟩

theorem texts_structural {c : Char} {cs : List Char} (hl : atLineEnd (c :: cs) = false) :
    (s.structural c cs).Texts s := by
  have hplain : ∀ {r : Step}, r.Plain s → r.Texts s := texts_plain hs
  apply structural_cases (motive := fun _ r => r.Texts s)
  case space => exact fun _ => texts_of_free (structural_ne_choiceText hs) (by simp)
  case openComment => exact texts_openComment s
  case lineComment => exact texts_lineComment s hl
  case call => exact fun ds => hplain (s.plain_call _)
  case choiceTag => exact fun ds => hplain (s.plain_tag (fun _ => rfl) _)
  case tag => exact fun ds => hplain (s.plain_tag (fun _ => rfl) _)
  case header => exact fun ds => hplain (s.plain_header _)
  case goto => exact fun d ds _ => hplain (s.plain_goto _)
  case choice => exact fun ds => texts_choice hs _
  case replica => exact fun ds => texts_openReplica hs _
  case bound => exact fun ds => texts_openBound hs (List.forall_mem_nil _) _
  case stray => exact hplain (s.plain_stray c cs)

end

theorem texts_choiceText {s : State} (hs : s.mode = .choiceText) {c : Char} {cs : List Char}
    (hl : atLineEnd (c :: cs) = false) : (s.choiceText (c :: cs)).Texts s := by
  unfold choiceText
  refine texts_ite (fun _ => .closes rfl hs nofun) fun hb => ?_
  refine texts_ite (fun h => texts_openComment s h) fun ho => ?_
  refine texts_ite (fun _ => texts_lineComment s hl) fun hc => ?_
  refine texts_of_inText (List.forall_mem_singleton.2 ⟨_, _, rfl, rfl, ?_⟩)
  refine ne_nil_of_length_lt (readText_append ..) (length_readText_lt hl ?_)
  simp_all [Lookbehind.atComment]

theorem mode_leaveReplica (s : State) :
    s.leaveReplica.mode = .choiceText ↔ s.mode = .choiceText := by
  unfold leaveReplica
  split
  · next hm => simp [hm]
  · exact .rfl

theorem texts_replica {s : State} (hs : s.mode = .replica) (hc : s.inComment = false)
    (hf : s.freshLine = false) {c : Char} {cs : List Char} (hl : atLineEnd (c :: cs) = false) :
    (s.replica (c :: cs)).Texts s := by
  have hne : s.mode ≠ .choiceText := by
    rw [hs]
    exact nofun
  unfold replica
  refine texts_ite (fun _ => ?_) fun _ => ?_
  · exact .plain (s.free_replicaEnd rfl) (fun h => absurd h hne) s.mode_leaveReplica
  refine texts_ite (fun h => texts_openComment s h) fun _ => ?_
  refine texts_ite (fun _ => texts_lineComment s hl) fun _ => ?_
  have hstop := stopped_readText (fun b cs => b.endsReplica cs || b.atComment cs) none s.behind
    (c :: cs)
  generalize readText (fun b cs => b.endsReplica cs || b.atComment cs) none s.behind (c :: cs) = r
    at hstop ⊢
  dsimp only
  split
  · exact texts_of_free hne (by simp)
  · next hb =>
    have hsaid : r.1 ≠ [] := by
      rintro hnil
      exact hb (by rw [hnil]; rfl)
    refine .speaks rfl hsaid (List.forall_mem_nil _) hne
      ⟨hs, hc, hf, hstop.imp_right fun h => ?_⟩
    have hbehind : ∀ k, (s.read [.token k r.1] r.2).state.behind = s.behind.past r.1 := by
      simp [read, past]
    rw [hbehind]
    simpa using h

/-- In a line, a step reads of a text what its mode says. -/
theorem texts_scan {s : State} (hf : s.freshLine = false) {c : Char} {cs : List Char}
    (hl : atLineEnd (c :: cs) = false) : (s.scan c cs).Texts s := by
  unfold scan
  refine texts_ite (fun _ => texts_commentLine s _) fun hc => ?_
  split
  · next hm => exact texts_structural hm hl
  · next hm => exact texts_replica hm (by simpa using hc) hf hl
  · next hm => exact texts_choiceText hm hl

theorem mode_indentation_choiceText (s : State) (spacers rest : List Char) :
    (s.indentation spacers rest).2.mode = .choiceText ↔ s.mode = .choiceText := by
  unfold indentation
  dsimp only
  split
  · exact .rfl
  · exact s.mode_leaveReplica

/-- What a step can read of a text. -/
theorem texts_step (s : State) (c : Char) (cs : List Char) : (s.step c cs).Texts s := by
  unfold step
  refine texts_ite (fun h => texts_newline s h) fun hn => ?_
  have hl : atLineEnd (c :: cs) = false := by simpa [atLineEnd] using hn
  dsimp only
  split
  · next hmeasure =>
    simp only [measures, Bool.and_eq_true, bne_iff_ne] at hmeasure
    have hs : s.mode ≠ .choiceText := hmeasure.2
    have hspace : ∀ rest, ({ s with freshLine := false }.read
        [.gap ((c :: cs).takeWhile isSpacer)] rest).Texts s := fun rest =>
      .plain (by simp) (fun h => absurd h hs) .rfl
    split
    · exact hspace []
    · next d ds hd =>
      refine texts_ite (fun _ => hspace _) fun hdn => ?_
      have hfree := free_indentation (p := Kind.isTextual) { s with freshLine := false } rfl rfl rfl
        ((c :: cs).takeWhile isSpacer) (d :: ds)
      have hmode := mode_indentation_choiceText { s with freshLine := false }
        ((c :: cs).takeWhile isSpacer) (d :: ds)
      have hfresh := freshLine_indentation { s with freshLine := false }
        ((c :: cs).takeWhile isSpacer) (d :: ds)
      have hscan := texts_scan (s := ({ s with freshLine := false }.indentation
          ((c :: cs).takeWhile isSpacer) (d :: ds)).2.past ({ s with freshLine := false }.indentation
          ((c :: cs).takeWhile isSpacer) (d :: ds)).1) hfresh
        (by simpa [atLineEnd] using hdn : atLineEnd (d :: ds) = false)
      exact hscan.indented hs (fun h => hs (hmode.1 h)) hfree
  · exact (texts_scan (s := { s with freshLine := false }) rfl hl).of_mode_eq rfl

end State

end Lexer

/-! ## Runs -/

namespace Piece

/-- Pieces in which choice texts have no gaps and speeches stand apart. The ends of replicas, which
move, are passed over. The flag says that a choice text is open. -/
inductive Laid : Bool → List Piece → Prop where
  | nil : Laid false []
  | other {piece : Piece} {pieces : List Piece} (hp : piece.Free Kind.isTextual)
      (h : Laid false pieces) : Laid false (piece :: pieces)
  | speech {said : String} {text : List Char} {pieces : List Piece} (ht : text ≠ [])
      (hn : ∀ q ∈ pieces.head?, q.Parts) (h : Laid false pieces) :
    Laid false (token (.speech said) text :: pieces)
  | opens {text : List Char} {pieces : List Piece} (h : Laid true pieces) :
    Laid false (token (.choiceBound false) text :: pieces)
  | inside {piece : Piece} {pieces : List Piece} (hp : piece.InText) (h : Laid true pieces) :
    Laid true (piece :: pieces)
  | closes {text : List Char} {pieces : List Piece} (h : Laid false pieces) :
    Laid true (token (.choiceBound false) text :: pieces)
  | mark {opened : Bool} {pieces : List Piece} (h : Laid opened pieces) :
    Laid opened (.mark .replicaEnd :: pieces)
  | ending (n : Nat) : Laid true (Lexer.closing n)

namespace Laid

variable {opened : Bool} {piece : Piece} {pieces : List Piece}

theorem append_free {before : List Piece} (hf : ∀ piece ∈ before, piece.Free Kind.isTextual)
    (h : Laid false pieces) : Laid false (before ++ pieces) := by
  induction before with
  | nil => exact h
  | cons piece before ih =>
    exact .other (hf piece (by simp)) (ih fun q hq => hf q (by simp [hq]))

theorem append_inText {before : List Piece} (hi : ∀ piece ∈ before, piece.InText)
    (h : Laid true pieces) : Laid true (before ++ pieces) := by
  induction before with
  | nil => exact h
  | cons piece before ih =>
    exact .inside (hi piece (by simp)) (ih fun q hq => hi q (by simp [hq]))

/-- What a step reads of a text, in front of what is read next. -/
theorem of_texts {s : Lexer.State} {r : Lexer.Step} (hr : r.Texts s)
    (hn : r.state.BehindSpeech r.rest → ∀ q ∈ pieces.head?, q.Parts)
    (h : Laid (r.state.mode = .choiceText) pieces) :
    Laid (s.mode = .choiceText) (r.pieces ++ pieces) := by
  cases hr with
  | plain hf hi hm =>
    by_cases hs : s.mode = .choiceText
    · simp only [hs, hm.2 hs, decide_true] at h ⊢
      exact append_inText (hi hs) h
    · have hm : r.state.mode ≠ .choiceText := fun h => hs (hm.1 h)
      simp only [hs, hm, decide_false] at h ⊢
      exact append_free hf h
  | opens hp hf hs hm =>
    simp only [hs, hm, decide_true, decide_false] at h ⊢
    rw [hp, List.append_assoc]
    exact append_free hf (.opens h)
  | closes hp hs hm =>
    simp only [hs, hm, decide_true, decide_false] at h ⊢
    rw [hp]
    exact .closes h
  | speaks hp ht hf hs hr =>
    have hm : r.state.mode ≠ .choiceText := by
      rw [hr.mode]
      exact nofun
    simp only [hs, hm, decide_false] at h ⊢
    rw [hp, List.append_assoc]
    exact append_free hf (.speech ht (hn hr) h)

end Laid

end Piece

namespace Lexer

theorem parts_trivia {k : Kind} {text : List Char} (hk : k.isTrivia) (ht : text ≠ []) :
    (Piece.token k text).Parts := .inr ⟨k, text, rfl, hk, ht⟩

/-- Behind a speech comes a line end, a comment or the end of the replica. -/
theorem parts_step {s : State} {c : Char} {cs : List Char} (h : s.BehindSpeech (c :: cs)) :
    ∃ piece, (s.step c cs).pieces = [piece] ∧ piece.Parts := by
  obtain ⟨hm, hc, hf, hstop⟩ := h
  unfold State.step
  split
  · next hn =>
    rcases newline_of_atNewline hn with ⟨ds, hds⟩ | ⟨ds, hds⟩
    · exact ⟨.token .newline ['\n'], by rw [hds]; rfl, parts_trivia rfl (List.cons_ne_nil _ _)⟩
    · exact ⟨.token .newline ['\r', '\n'], by rw [hds]; rfl, parts_trivia rfl (List.cons_ne_nil _ _)⟩
  · next hn =>
    have hl : atLineEnd (c :: cs) = false := by simpa [atLineEnd] using hn
    simp only [State.measures, hf, Bool.false_and, Bool.false_eq_true, if_false, State.scan, hc, hm,
      State.replica]
    split
    · exact ⟨.mark .replicaEnd, rfl, .inl rfl⟩
    · next he =>
      split
      · next ho =>
        obtain ⟨ds, hds⟩ := Lookbehind.cons_of_atCommentOpen ho
        exact ⟨.token .commentOpen ['/', '*'], by rw [hds]; rfl,
          parts_trivia rfl (List.cons_ne_nil _ _)⟩
      · next ho =>
        have hcomment : s.behind.atLineComment (c :: cs) = true := by
          simpa [hl, he, ho, Lookbehind.atComment] using hstop
        rw [if_pos hcomment]
        refine ⟨_, rfl, parts_trivia rfl ?_⟩
        exact ne_nil_of_length_lt (readUntil_append ..) (length_readUntil_lt hl)

theorem parts_run {s : State} {cs : List Char} (h : s.BehindSpeech cs) :
    ∀ q ∈ (run s cs).head?, q.Parts := by
  cases cs with
  | nil => simp [run, State.finish, State.replicaEnd, h.mode, Piece.Parts]
  | cons c cs =>
    obtain ⟨piece, hpieces, hparts⟩ := parts_step h
    rw [run, hpieces]
    simpa using hparts

theorem laid_run (s : State) (cs : List Char) :
    Piece.Laid (s.mode = .choiceText) (run s cs) := by
  fun_induction run s cs with
  | case1 s =>
    have hfinish : s.finish = s.replicaEnd ++ closing s.level := List.append_assoc ..
    rw [hfinish]
    by_cases hs : s.mode = .choiceText
    · simpa [State.replicaEnd, hs] using Piece.Laid.ending s.level
    · simp only [hs, decide_false]
      refine .append_free (s.free_replicaEnd rfl) ?_
      simpa using Piece.Laid.append_free (free_closing rfl rfl s.level) .nil
  | case2 s c cs ih =>
    exact .of_texts (s.texts_step c cs) parts_run ih

end Lexer

/-! ## Ends of replicas that move -/

namespace Piece

theorem head?_settle {q : Piece} {pieces : List Piece} (h : q ∈ (settle pieces).head?) :
    q = .mark .replicaEnd ∨ q ∈ pieces.head? := by
  cases pieces with
  | nil => cases h
  | cons piece pieces =>
    rw [settle_cons] at h
    unfold pushSettled at h
    split at h
    · split at h
      · exact .inr h
      · exact .inl (Option.some.inj h).symm
    · exact .inr h

namespace Laid

variable {opened : Bool} {piece : Piece} {pieces : List Piece}

theorem of_mark (h : Laid opened (.mark .replicaEnd :: pieces)) : Laid opened pieces := by
  generalize he : Piece.mark .replicaEnd :: pieces = all at h
  cases h with
  | nil => cases he
  | other _ h | mark h =>
    obtain ⟨-, rfl⟩ := List.cons.inj he
    exact h
  | speech | opens | closes => simp [Piece.mark, token] at he
  | inside hp =>
    obtain ⟨rfl, -⟩ := List.cons.inj he
    obtain ⟨k, text, he, -, hne⟩ := hp
    exact absurd (covered.inj he).1.symm hne
  | ending n => exact absurd (he ▸ List.mem_cons_self) (Lexer.mark_not_mem_closing n)

/-- The end of a replica behind a piece that does not hold it can be left out. -/
theorem without_mark (hold : piece.holdsReplica = false)
    (h : Laid opened (piece :: .mark .replicaEnd :: pieces)) : Laid opened (piece :: pieces) := by
  generalize he : piece :: Piece.mark .replicaEnd :: pieces = all at h
  cases h with
  | nil => cases he
  | ending n => exact absurd (he ▸ by simp) (Lexer.mark_not_mem_closing n)
  | speech =>
    obtain ⟨rfl, -⟩ := List.cons.inj he
    cases hold
  | other hp h =>
    obtain ⟨rfl, rfl⟩ := List.cons.inj he
    exact .other hp h.of_mark
  | opens h =>
    obtain ⟨rfl, rfl⟩ := List.cons.inj he
    exact .opens h.of_mark
  | inside hp h =>
    obtain ⟨rfl, rfl⟩ := List.cons.inj he
    exact .inside hp h.of_mark
  | closes h =>
    obtain ⟨rfl, rfl⟩ := List.cons.inj he
    exact .closes h.of_mark
  | mark h =>
    obtain ⟨rfl, rfl⟩ := List.cons.inj he
    exact .mark h.of_mark

theorem push (h : Laid opened (piece :: pieces)) : Laid opened (pushSettled piece pieces) := by
  by_cases hm : pieces.head? = some (.mark .replicaEnd)
  · obtain ⟨rest, rfl⟩ := List.head?_eq_some_iff.1 hm
    by_cases hold : piece.holdsReplica
    · rwa [pushSettled_holds hold]
    · rw [Bool.not_eq_true] at hold
      rw [pushSettled_mark hold]
      exact .mark (h.without_mark hold)
  · rwa [pushSettled_eq hm]

theorem settle (h : Laid opened pieces) : Laid opened (settle pieces) := by
  induction h with
  | nil => exact .nil
  | other hp _ ih => exact push (.other hp ih)
  | speech ht hn _ ih =>
    refine push (.speech ht (fun q hq => ?_) ih)
    rcases head?_settle hq with rfl | hq
    · exact .inl rfl
    · exact hn q hq
  | opens _ ih => exact push (.opens ih)
  | inside hp _ ih => exact push (.inside hp ih)
  | closes _ ih => exact push (.closes ih)
  | mark _ ih => exact push (.mark ih)
  | ending n =>
    have hsettle := settle_append (Lexer.mark_not_mem_closing n) []
    rw [List.nil_append] at hsettle
    rw [hsettle]
    exact .ending n

end Laid

end Piece

/-! ## Tokens -/

/-- Tokens of an open choice text that stand side by side from a place on, each with a text. -/
def Tight : Position → List Token → Prop
  | _, [] => True
  | p, t :: ts => t.blockRun?.isSome →
    t.span.start = p ∧ t.span.start.offset < t.span.stop.offset ∧ Tight t.span.stop ts

/-- Tokens among which those of a choice text are tight and speeches stand apart. The flag says that
a choice text is open. -/
inductive Token.Laid : Bool → List Token → Prop where
  | nil (opened : Bool) : Laid opened []
  | other {t : Token} {ts : List Token} (ht : t.kind.isTextual = false) (h : Laid false ts) :
    Laid false (t :: ts)
  | speech {t : Token} {ts : List Token} {said : String} (ht : t.kind = .speech said)
      (hlt : t.span.start.offset < t.span.stop.offset)
      (hn : ∀ u ∈ ts.head?, u.speech? = none ∧
        (u.isTrivia → u.span.start.offset < u.span.stop.offset))
      (h : Laid false ts) : Laid false (t :: ts)
  | opens {t : Token} {ts : List Token} (ht : t.kind = .choiceBound false)
      (hs : Tight t.span.stop ts) (h : Laid true ts) : Laid false (t :: ts)
  | inside {t : Token} {ts : List Token} (ht : t.kind.isTextual = false) (hc : t.kind ≠ .choice)
      (h : Laid true ts) : Laid true (t :: ts)
  | closes {t : Token} {ts : List Token} (ht : t.kind = .choiceBound false) (h : Laid false ts) :
    Laid true (t :: ts)

namespace Token.Laid

variable {ts us : List Token}

theorem append_other (ht : ∀ t ∈ ts, t.kind.isTextual = false) (h : Laid false us) :
    Laid false (ts ++ us) := by
  induction ts with
  | nil => exact h
  | cons t ts ih => exact .other (ht t (by simp)) (ih fun u hu => ht u (by simp [hu]))

theorem of_closing {n : Nat} {p : Position} :
    Laid true (List.replicate n ⟨.dedent, Span.point p⟩ ++ [⟨.eof, Span.point p⟩]) := by
  induction n with
  | zero => exact .inside rfl nofun (.nil true)
  | succ n ih => exact .inside rfl nofun ih

end Token.Laid

theorem Position.offset_lt_advance (p : Position) {text : List Char} (h : text ≠ []) :
    p.offset < (p.advance text).offset := by
  obtain ⟨c, cs, rfl⟩ := List.exists_cons_of_ne_nil h
  have hc := c.utf8Size_pos
  rw [offset_advance, String.utf8Len_cons]
  omega

namespace Piece

theorem Parts.place {pieces : List Piece} (h : ∀ q ∈ pieces.head?, q.Parts) (p : Position) :
    ∀ u ∈ (place p pieces).head?, u.speech? = none ∧
      (u.isTrivia → u.span.start.offset < u.span.stop.offset) := by
  cases pieces with
  | nil => exact nofun
  | cons q pieces =>
    rcases h q rfl with rfl | ⟨k, text, rfl, hk, ht⟩
    · rintro u ⟨⟩
      exact ⟨rfl, nofun⟩
    · rintro u ⟨⟩
      refine ⟨?_, fun _ => p.offset_lt_advance ht⟩
      unfold Token.speech?
      cases k <;> first | rfl | cases hk

theorem Laid.place {opened : Bool} {pieces : List Piece} (h : Laid opened pieces) (p : Position) :
    Token.Laid opened (place p pieces) ∧ (opened → Tight p (place p pieces)) := by
  induction h generalizing p with
  | nil => exact ⟨.nil _, nofun⟩
  | other hp _ ih =>
    refine ⟨.append_other (fun t ht => ?_) (ih _).1, nofun⟩
    exact hp.of_mem_tokens (fun _ => rfl) (fun _ => rfl) ht
  | speech ht hn _ ih =>
    exact ⟨.speech rfl (p.offset_lt_advance ht) (Parts.place hn _) (ih _).1, nofun⟩
  | opens _ ih => exact ⟨.opens rfl ((ih _).2 rfl) (ih _).1, nofun⟩
  | inside hp _ ih =>
    obtain ⟨k, text, rfl, hk, ht⟩ := hp
    rw [place_token]
    refine ⟨.inside ?_ ?_ (ih _).1, fun _ _ => ⟨rfl, p.offset_lt_advance ht, (ih _).2 rfl⟩⟩
    · cases k <;> first | rfl | cases hk
    · rintro rfl
      cases hk
  | closes _ ih => exact ⟨.closes rfl (ih _).1, fun _ => nofun⟩
  | @mark opened pieces _ ih =>
    rw [place_mark]
    refine ⟨?_, fun _ => nofun⟩
    cases opened with
    | false => exact .other rfl (ih p).1
    | true => exact .inside rfl nofun (ih p).1
  | ending n =>
    rw [place_closing]
    refine ⟨.of_closing, fun _ => ?_⟩
    cases n with
    | zero => exact nofun
    | succ n => exact nofun

end Piece

/-- The tokens of every source are laid out like this. -/
theorem laid_tokenize (source : String) : Token.Laid false (tokenize source) :=
  ((Lexer.laid_run {} source.toList).settle.place Position.origin).1

namespace Token.Laid

variable {opened : Bool}

/-- The text between the bounds of a choice is tight. -/
theorem tight_of_choice {before after : List Token} {c b : Token}
    (h : Token.Laid opened (before ++ c :: b :: after)) (hc : c.kind = .choice)
    (hb : b.kind = .choiceBound false) : Tight b.span.stop after := by
  induction before generalizing opened with
  | nil =>
    cases h with
    | speech ht | opens ht | closes ht =>
      rw [hc] at ht
      cases ht
    | inside _ hne => exact absurd hc hne
    | other _ h =>
      cases h with
      | opens _ hs => exact hs
      | other ht | speech ht =>
        rw [hb] at ht
        cases ht
  | cons t before ih =>
    cases h with
    | other _ h | speech _ _ _ h | opens _ _ h | inside _ _ h | closes _ h => exact ih h

theorem speech?_of_not_textual {t : Token} (h : t.kind.isTextual = false) : t.speech? = none := by
  unfold Token.speech?
  cases hk : t.kind <;> first | rfl | simp [hk, Kind.isTextual] at h

theorem speech?_of_bound {t : Token} (h : t.kind = .choiceBound false) : t.speech? = none := by
  rw [Token.speech?, h]

/-- A speech has a text. -/
theorem speech_lt {ts : List Token} (h : Token.Laid opened ts) :
    ∀ t ∈ ts, t.speech?.isSome → t.span.start.offset < t.span.stop.offset := by
  have hsilent : ∀ {t : Token}, t.speech? = none → t.speech?.isSome →
      t.span.start.offset < t.span.stop.offset := by
    intro t ht hs
    rw [ht] at hs
    cases hs
  induction h with
  | nil => exact nofun
  | speech _ hlt _ _ ih => exact List.forall_mem_cons.2 ⟨fun _ => hlt, ih⟩
  | other ht _ ih | inside ht _ _ ih =>
    exact List.forall_mem_cons.2 ⟨hsilent (speech?_of_not_textual ht), ih⟩
  | opens ht _ _ ih | closes ht _ ih =>
    exact List.forall_mem_cons.2 ⟨hsilent (speech?_of_bound ht), ih⟩

/-- What stands right behind a speech is no speech, and if it is trivia it has a text. -/
def Parted (t u : Token) : Prop :=
  t.speech?.isSome → u.speech? = none ∧ (u.isTrivia → u.span.start.offset < u.span.stop.offset)

theorem parted {ts : List Token} (h : Token.Laid opened ts) : ts.IsChain Parted := by
  have hsilent : ∀ {t : Token} {ts : List Token}, t.speech? = none → ts.IsChain Parted →
      (t :: ts).IsChain Parted := by
    intro t ts ht h
    refine List.isChain_cons.2 ⟨fun u _ hs => ?_, h⟩
    rw [ht] at hs
    cases hs
  induction h with
  | nil => exact .nil
  | speech _ _ hn _ ih => exact List.isChain_cons.2 ⟨fun u hu _ => hn u hu, ih⟩
  | other ht _ ih | inside ht _ _ ih => exact hsilent (speech?_of_not_textual ht) ih
  | opens ht _ _ ih | closes ht _ ih => exact hsilent (speech?_of_bound ht) ih

end Token.Laid

end StoryScript

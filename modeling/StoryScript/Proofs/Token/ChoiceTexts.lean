import StoryScript.Proofs.Token.Copies
import StoryScript.Proofs.Token.Joining
import StoryScript.Proofs.Token.Levels
/-!
# What stands behind a choice

Behind the sign of a choice stands nothing of a text, the text on its line, or a visible bound and
all that comes before the next one (`Token.Chosen`). The text on a line is cut at the first place
where it can be over. Between bounds every character is kept, and only the ends of lines are written
anew, each as a line feed. This holds of every choice of a source (`chosen_of_mem_tokenize`).
-/

namespace StoryScript

open Token (Kind)

/-! ## Line ends as line feeds -/

/-- A text in which each carriage return and line feed that end a line are a line feed alone. -/
def lineFeeds : List Char → List Char
  | [] => []
  | '\r' :: '\n' :: cs => '\n' :: lineFeeds cs
  | c :: cs => c :: lineFeeds cs

theorem lineFeeds_cons {c : Char} {cs : List Char} (h : atNewline (c :: cs) = false) :
    lineFeeds (c :: cs) = c :: lineFeeds cs := by
  rw [lineFeeds]
  rintro cs rfl rfl
  cases h

theorem lineFeeds_newline (cs : List Char) : lineFeeds ('\n' :: cs) = '\n' :: lineFeeds cs := by
  rw [lineFeeds]
  rintro _ ⟨⟩

theorem lineFeeds_mark {mark : List Char} (h : '\r' ∉ mark ∧ '\n' ∉ mark) (cs : List Char) :
    lineFeeds (mark ++ cs) = mark ++ lineFeeds cs := by
  induction mark with
  | nil => rfl
  | cons c mark ih =>
    simp only [List.mem_cons, not_or] at h
    have hline : atNewline (c :: (mark ++ cs)) = false := by
      unfold atNewline
      split <;> simp_all
    rw [List.cons_append, lineFeeds_cons hline, ih ⟨h.1.2, h.2.2⟩, List.cons_append]

/-- A carriage return at the end of a text could be the first half of a line end. -/
theorem lineFeeds_append {as bs : List Char} (h : bs.head? ≠ some '\n') :
    lineFeeds (as ++ bs) = lineFeeds as ++ lineFeeds bs := by
  fun_induction lineFeeds as with
  | case1 => rfl
  | case2 cs ih => exact congrArg ('\n' :: ·) ih
  | case3 c cs hc ih =>
    rw [List.cons_append, lineFeeds, ih]
    · rfl
    · rintro ds rfl hds
      cases cs with
      | nil =>
        obtain rfl : bs = '\n' :: ds := hds
        exact h rfl
      | cons d cs => exact hc cs rfl (by rw [(List.cons.inj hds).1])

/-- What is read in a line holds no line end. -/
theorem lineFeeds_readUntil {stop : Lookbehind → List Char → Bool}
    (hs : ∀ b cs, atLineEnd cs = true → stop b cs = true) (b : Lookbehind) (cs : List Char) :
    (readUntil stop b cs).1 ++ lineFeeds (readUntil stop b cs).2 = lineFeeds cs := by
  induction cs generalizing b with
  | nil => rfl
  | cons c cs ih =>
    rw [readUntil]
    split
    · rfl
    · next h =>
      have hl : atNewline (c :: cs) = false := Bool.eq_false_iff.2 fun hn => h (hs b _ hn)
      rw [lineFeeds_cons hl, ← ih (b.next c)]
      rfl

theorem lineFeeds_readText (stop : Lookbehind → List Char → Bool) (nesting : Option CallNesting)
    (b : Lookbehind) (cs : List Char) :
    (readText stop nesting b cs).1 ++ lineFeeds (readText stop nesting b cs).2 = lineFeeds cs := by
  induction cs generalizing nesting b with
  | nil => cases nesting <;> rfl
  | cons c cs ih =>
    by_cases hl : atLineEnd (c :: cs) = true
    · cases nesting <;> simp [readText, hl]
    · have hcons : lineFeeds (c :: cs) = c :: lineFeeds cs :=
        lineFeeds_cons (Bool.eq_false_iff.2 hl)
      cases nesting with
      | some n =>
        rw [readText, if_neg hl, hcons, ← ih (n.next b.escaped c) (b.next c)]
        rfl
      | none =>
        rw [readText, if_neg hl]
        split
        · rw [hcons, ← ih (some {}) (b.next c)]
          rfl
        · split
          · rfl
          · rw [hcons, ← ih none (b.next c)]
            rfl

/-! ## Where the text on a line is over -/

/-- The text on the line of a choice can be over: its line ends, or a comment begins outside of
inline calls. -/
def EndsText (b : Lookbehind) (text rest : List Char) : Prop :=
  atLineEnd rest = true ∨ copying b none text rest = none ∧ (b.past text).atComment rest = true

/-- The text goes on up to the first place where it can be over. -/
structure UpToEnd (b : Lookbehind) (text rest : List Char) : Prop where
  ends : EndsText b text rest
  first : ∀ front back, text = front ++ back → back ≠ [] → ¬EndsText b front (back ++ rest)

theorem readText_eq_nil_iff (nesting : Option CallNesting) (b : Lookbehind) (cs : List Char) :
    (readText (fun b cs => b.atComment cs) nesting b cs).1 = [] ↔
      atLineEnd cs = true ∨ nesting = none ∧ b.atComment cs = true := by
  cases cs with
  | nil => cases nesting <;> simp [readText, atLineEnd]
  | cons c cs =>
    by_cases hl : atLineEnd (c :: cs) = true
    · cases nesting <;> simp [readText, hl]
    · cases nesting with
      | some n => simp [readText, hl]
      | none =>
        by_cases hcall : b.atInlineCall (c :: cs) = true
        · -- a call opens with a brace, and so no comment does
          obtain rfl : c = '{' := by
            rw [Lookbehind.atInlineCall, Bool.and_eq_true, List.isPrefixOf_iff_prefix] at hcall
            exact (List.cons_prefix_cons.1 hcall.2).1.symm
          simp [readText, hl, hcall, Lookbehind.atComment, Lookbehind.atCommentOpen,
            Lookbehind.atLineComment]
        · by_cases hs : b.atComment (c :: cs) = true <;> simp [readText, hl, hcall, hs]

theorem upToEnd_readText (b : Lookbehind) (cs : List Char) :
    UpToEnd b (readText (fun b cs => b.atComment cs) none b cs).1
      (readText (fun b cs => b.atComment cs) none b cs).2 := by
  have happend := readText_append (fun b cs => b.atComment cs) none b cs
  generalize hr : readText (fun b cs => b.atComment cs) none b cs = r at happend ⊢
  -- behind some of the text the reader still has the rest of it to read
  have hrest : ∀ front back, r.1 = front ++ back →
      (readText (fun b cs => b.atComment cs) (copying b none front (back ++ r.2)) (b.past front)
        (back ++ r.2)).1 = back := by
    intro front back heq
    have hcs : front ++ (back ++ r.2) = cs := by rw [← List.append_assoc, ← heq, happend]
    have hfront : front <+: (readText (fun b cs => b.atComment cs) none b
        (front ++ (back ++ r.2))).1 := by
      rw [hcs, hr, heq]
      exact List.prefix_append front back
    have hread := readText_append_left _ hfront
    rw [hcs, hr] at hread
    have hfirst := congrArg Prod.fst hread
    rw [heq] at hfirst
    exact (List.append_cancel_left hfirst).symm
  constructor
  · have hnil := hrest r.1 [] (List.append_nil _).symm
    rwa [readText_eq_nil_iff] at hnil
  · intro front back heq hne hends
    have hread := hrest front back heq
    rw [(readText_eq_nil_iff _ _ _).2 hends] at hread
    exact hne hread.symm

/-- A text on a line begins behind the sign of its choice. -/
theorem Lookbehind.next_plus (b : Lookbehind) : b.next '+' = ⟨false, false⟩ := by
  simp [next, isSpacer]

/-- The sign of a choice. -/
def Token.Kind.isChoice : Kind → Bool
  | .choice => true
  | _ => false

/-! ## Between bounds -/

/-- What a token of this kind gives to the text between bounds. -/
def Token.Kind.letters (k : Kind) : List Char := (k.value.getD "").toList

namespace Piece

/-- What the tokens of pieces give to the text between bounds. -/
def letters (pieces : List Piece) : List Char := (pieces.flatMap kinds).flatMap Kind.letters

theorem letters_append (as bs : List Piece) : letters (as ++ bs) = letters as ++ letters bs := by
  rw [letters, List.flatMap_append, List.flatMap_append, letters, letters]

theorem letters_token (k : Kind) (text : List Char) : letters [token k text] = k.letters := by
  simp [letters, token, kinds]

end Piece

namespace Lexer

open Piece (letters letters_append letters_token)

/-- The step keeps every character that it reads, with line feeds at the ends of lines. -/
def Step.Keeps (r : Step) (cs : List Char) : Prop :=
  letters r.pieces ++ lineFeeds r.rest = lineFeeds cs

namespace State

variable {s : State}

theorem keeps_token {k : Kind} {text : List Char} (s : State) (hk : k.letters = text)
    {rest cs : List Char} (h : text ++ lineFeeds rest = lineFeeds cs) :
    (s.read [.token k text] rest).Keeps cs := by
  rw [Step.Keeps, pieces_read, rest_read, letters_token, hk, h]

theorem keeps_openComment {b : Lookbehind} {cs : List Char} (h : b.atCommentOpen cs = true) :
    (s.openComment cs).Keeps cs := by
  obtain ⟨ds, rfl⟩ := Lookbehind.cons_of_atCommentOpen h
  exact keeps_token _ rfl (@lineFeeds_mark ['/', '*'] (by decide) ds).symm

theorem keeps_lineComment (cs : List Char) : (s.lineComment cs).Keeps cs :=
  keeps_token _ (by exact String.toList_ofList) (lineFeeds_readUntil (fun _ _ h => h) _ _)

theorem keeps_commentLine (cs : List Char) : (s.commentLine cs).Keeps cs := by
  unfold commentLine
  have hread := @lineFeeds_readUntil (fun b cs => atLineEnd cs || b.atCommentClose cs)
    (fun _ _ h => by rw [h, Bool.true_or]) s.behind cs
  generalize readUntil (fun b cs => atLineEnd cs || b.atCommentClose cs) s.behind cs = r at hread ⊢
  have htext : letters (if r.1.isEmpty then [] else
      [Piece.token (.commentText (String.ofList r.1)) r.1]) = r.1 := by
    split
    · next h => exact (List.isEmpty_iff.1 h).symm
    · rw [letters_token]
      exact String.toList_ofList
  dsimp only
  split
  · next hclose =>
    obtain ⟨ds, hds⟩ := Lookbehind.cons_of_atCommentClose hclose
    have hmark := @lineFeeds_mark ['*', '/'] (by decide) ds
    rw [hds] at hread
    rw [Step.Keeps, pieces_read, rest_read, letters_append, htext, letters_token, hds, ← hread,
      List.append_assoc]
    exact congrArg (r.1 ++ ·) hmark.symm
  · rw [Step.Keeps, pieces_read, rest_read, htext, hread]

theorem keeps_newline {cs : List Char} (h : atNewline cs = true) : (s.newline cs).Keeps cs := by
  rcases newline_of_atNewline h with ⟨ds, rfl⟩ | ⟨ds, rfl⟩
  · exact (lineFeeds_newline ds).symm
  · rfl

theorem keeps_choiceText (cs : List Char) : (s.choiceText cs).Keeps cs := by
  unfold choiceText
  split
  · next hb =>
    obtain ⟨ds, rfl⟩ := Lookbehind.append_of_atBound hb
    refine keeps_token _ rfl ?_
    rw [lineFeeds_mark (by decide +kernel), List.drop_left]
    rfl
  · split
    · next hc => exact keeps_openComment hc
    · split
      · exact keeps_lineComment cs
      · exact keeps_token _ (by exact String.toList_ofList) (lineFeeds_readText ..)

section
variable (hs : s.mode = .choiceText) (c : Char) (cs : List Char)
include hs

/-- In an open choice text no indentation is measured. -/
theorem step_choiceText : s.step c cs =
    if atNewline (c :: cs) then s.newline (c :: cs)
    else if s.inComment then { s with freshLine := false }.commentLine (c :: cs)
    else { s with freshLine := false }.choiceText (c :: cs) := by
  simp [step, measures, scan, hs]

/-- In an open choice text no step drops anything. -/
theorem keeps_step : (s.step c cs).Keeps (c :: cs) := by
  rw [step_choiceText hs]
  split
  · next hn => exact keeps_newline hn
  · split
    · exact keeps_commentLine _
    · exact keeps_choiceText _

theorem mode_step_ne_replica : (s.step c cs).state.mode ≠ .replica := by
  rw [step_choiceText hs]
  unfold newline commentLine choiceText openComment lineComment
  dsimp only
  repeat' split
  all_goals simp [hs]

end

end State

/-- What an open choice text goes on with: its pieces, and then the bound that closes it or the end
of the source. -/
theorem run_choiceText {s : State} (hs : s.mode = .choiceText) (cs : List Char) :
    ∃ inside after, cs = Piece.texts inside ++ after ∧ (∀ piece ∈ inside, piece.InText) ∧
      letters inside = lineFeeds (Piece.texts inside) ∧
      ((∃ s' rest, s'.mode ≠ .replica ∧ after = boundMark ++ rest ∧
          run s cs = inside ++ .token (.choiceBound false) boundMark :: run s' rest) ∨
        ∃ n, after = [] ∧ run s cs = inside ++ closing n) := by
  fun_induction run s cs with
  | case1 s =>
    refine ⟨[], [], rfl, List.forall_mem_nil _, rfl, .inr ⟨s.level, rfl, ?_⟩⟩
    rw [State.finish, State.replicaEnd, if_neg (by rw [hs]; decide)]
    rfl
  | case2 s c cs ih =>
    have hsplit := (s.splits_step c cs).texts_append
    cases s.texts_step c cs with
    | opens _ _ hne | speaks _ _ _ hne => exact absurd hs hne
    | closes hp _ hm =>
      have hmode := State.mode_step_ne_replica hs c cs
      have hlex := (s.splits_step c cs).faithful _ (by rw [hp]; exact List.mem_singleton_self _)
      obtain rfl : _ = boundMark := by simpa [Kind.Lexeme] using hlex
      rw [hp] at hsplit ⊢
      exact ⟨[], c :: cs, rfl, List.forall_mem_nil _, rfl,
        .inl ⟨_, _, hmode, by simpa using hsplit.symm, rfl⟩⟩
    | plain hf hi hm =>
      obtain ⟨inside, after, hrest, hinside, hletters, hend⟩ := ih (hm.2 hs)
      have hhead : after.head? ≠ some '\n' := by
        rcases hend with ⟨_, rest, -, rfl, -⟩ | ⟨_, rfl, -⟩
        · simp [boundMark]
        · simp
      have hkeeps : letters (s.step c cs).pieces ++ lineFeeds (s.step c cs).rest =
          lineFeeds (c :: cs) := State.keeps_step hs c cs
      rw [hrest] at hsplit hkeeps
      rw [← hsplit, ← List.append_assoc, lineFeeds_append hhead, lineFeeds_append hhead,
        ← List.append_assoc, List.append_cancel_right_eq] at hkeeps
      refine ⟨(s.step c cs).pieces ++ inside, after, ?_, ?_, ?_, ?_⟩
      · rw [← hsplit, Piece.texts_append, List.append_assoc]
      · exact List.forall_mem_append.2 ⟨hi hs, hinside⟩
      · rw [letters_append, hletters, hkeeps, Piece.texts_append]
      · rcases hend with ⟨s', rest, hs', rfl, hrun⟩ | ⟨n, rfl, hrun⟩
        · exact .inl ⟨s', rest, hs', rfl, by rw [hrun, List.append_assoc]⟩
        · exact .inr ⟨n, rfl, by rw [hrun, List.append_assoc]⟩

/-! ## Choices in a run -/

/-- Where statements are read: in a line, outside of comments and texts. -/
structure State.AtStatements (s : State) : Prop where
  mode : s.mode = .structural
  inComment : s.inComment = false
  freshLine : s.freshLine = false

/-- The step reads no choice, or it reads one, maybe behind the indentation of its line. -/
inductive Step.Chooses (r : Step) (cs : List Char) : Prop where
  | not (hf : ∀ piece ∈ r.pieces, piece.Free Kind.isChoice)
  | choice {before : List Piece} {s : State} {rest : List Char}
      (hf : ∀ piece ∈ before, piece.Free Kind.isChoice) (hs : s.AtStatements)
      (hcs : cs = Piece.texts before ++ '+' :: rest)
      (hr : r = ⟨before ++ (s.choice ('+' :: rest)).pieces, (s.choice ('+' :: rest)).state,
        (s.choice ('+' :: rest)).rest⟩)

namespace State

variable {s : State}

theorem chooses_ite {p : Prop} [Decidable p] {a b : Step} {cs : List Char}
    (ha : p → a.Chooses cs) (hb : ¬p → b.Chooses cs) : (if p then a else b).Chooses cs := by
  split
  · next h => exact ha h
  · next h => exact hb h

theorem chooses_plain {r : Step} {s' : State} {cs : List Char} (h : r.Plain s') : r.Chooses cs :=
  .not (h.free fun k hk => by cases k <;> first | rfl | cases hk)

theorem chooses_structural (hs : s.AtStatements) (c : Char) (cs : List Char) :
    (s.structural c cs).Chooses (c :: cs) := by
  apply structural_cases (motive := fun text r => r.Chooses text)
  case space => exact fun _ => .not (by simp)
  case openComment => exact fun _ => chooses_plain (s.plain_openComment _)
  case lineComment => exact chooses_plain (s.plain_lineComment _)
  case call => exact fun ds => chooses_plain (s.plain_call _)
  case choiceTag => exact fun ds => chooses_plain (s.plain_tag (fun _ => rfl) _)
  case tag => exact fun ds => chooses_plain (s.plain_tag (fun _ => rfl) _)
  case header => exact fun ds => chooses_plain (s.plain_header _)
  case goto => exact fun d ds _ => chooses_plain (s.plain_goto _)
  case choice => exact fun ds => .choice (List.forall_mem_nil _) hs rfl rfl
  case replica => exact fun ds => .not (by simp [openReplica, Kind.isChoice])
  case bound => exact fun ds => .not (by simp [openBound, Kind.isChoice])
  case stray => exact chooses_plain (s.plain_stray c cs)

theorem chooses_replica (cs ds : List Char) : (s.replica cs).Chooses ds := by
  unfold replica
  refine chooses_ite (fun _ => .not (s.free_replicaEnd rfl)) fun _ => ?_
  refine chooses_ite (fun _ => chooses_plain (s.plain_openComment _)) fun _ => ?_
  refine chooses_ite (fun _ => chooses_plain (s.plain_lineComment _)) fun _ => ?_
  refine .not (List.forall_mem_singleton.2 ?_)
  split <;> simp [Kind.isChoice]

theorem chooses_choiceText (cs ds : List Char) : (s.choiceText cs).Chooses ds := by
  unfold choiceText
  refine chooses_ite (fun _ => .not (by simp [Kind.isChoice])) fun _ => ?_
  refine chooses_ite (fun _ => chooses_plain (s.plain_openComment _)) fun _ => ?_
  refine chooses_ite (fun _ => chooses_plain (s.plain_lineComment _)) fun _ => ?_
  exact .not (by simp [Kind.isChoice])

theorem chooses_scan (hf : s.freshLine = false) (c : Char) (cs : List Char) :
    (s.scan c cs).Chooses (c :: cs) := by
  unfold scan
  refine chooses_ite (fun _ => ?_) fun hc => ?_
  · obtain ⟨_, hplain⟩ := s.plain_commentLine (c :: cs)
    exact chooses_plain hplain
  · split
    · next hm => exact chooses_structural ⟨hm, by simpa using hc, hf⟩ c cs
    · exact chooses_replica _ _
    · exact chooses_choiceText _ _

theorem chooses_step (s : State) (c : Char) (cs : List Char) : (s.step c cs).Chooses (c :: cs) := by
  unfold step
  refine chooses_ite (fun _ => chooses_plain (s.plain_newline _)) fun _ => ?_
  dsimp only
  split
  · have hsplit := List.takeWhile_append_dropWhile (p := isSpacer) (l := c :: cs)
    split
    · exact .not (by simp)
    · next d ds hd =>
      rw [hd] at hsplit
      refine chooses_ite (fun _ => .not (by simp)) fun _ => ?_
      have hfree := free_indentation (p := Kind.isChoice) { s with freshLine := false } rfl rfl rfl
        ((c :: cs).takeWhile isSpacer) (d :: ds)
      have hfresh := freshLine_indentation { s with freshLine := false }
        ((c :: cs).takeWhile isSpacer) (d :: ds)
      obtain ⟨htexts, -⟩ := splits_indentation { s with freshLine := false }
        (isSpacer_of_mem_takeWhile (c :: cs)) (d :: ds)
      generalize
        { s with freshLine := false }.indentation ((c :: cs).takeWhile isSpacer) (d :: ds) = i
        at hfree hfresh htexts ⊢
      have hscan := chooses_scan (s := i.2.past i.1) hfresh d ds
      cases hscan with
      | not hf => exact .not (List.forall_mem_append.2 ⟨hfree, hf⟩)
      | @choice before s' rest hf hs hcs hr =>
        have hline : c :: cs = Piece.texts (i.1 ++ before) ++ '+' :: rest := by
          rw [Piece.texts_append, htexts, List.append_assoc, ← hcs, hsplit]
        exact .choice (List.forall_mem_append.2 ⟨hfree, hf⟩) hs hline
          (by rw [hr, List.append_assoc])
  · exact chooses_scan rfl c cs

/-- A choice is its sign and what stands behind it. -/
theorem pieces_choice (s : State) (rest : List Char) :
    ∃ behind, (s.choice ('+' :: rest)).pieces = .token .choice ['+'] :: behind ∧
      ∀ piece ∈ behind, piece.Free Kind.isChoice := by
  unfold choice
  dsimp only [List.take, List.drop]
  split
  · exact ⟨_, rfl, by simp [Kind.isChoice]⟩
  · split
    · exact ⟨_, rfl, by simp⟩
    · exact ⟨_, rfl, by simp [Kind.isChoice]⟩

end State

open Piece (place) in
/-- Where the sign of a choice stands in a run, a step has read a choice. -/
theorem exists_choice {s : State} {cs : List Char} {p : Position} {t : Token}
    (ht : t ∈ place p (run s cs)) (hk : t.kind = .choice) :
    ∃ front, ∃ s' : State, ∃ rest, s'.AtStatements ∧ cs = Piece.texts front ++ '+' :: rest ∧
      t = ⟨.choice, Span.ofText (p.advance (Piece.texts front)) ['+']⟩ ∧
      run s cs = front ++ ((s'.choice ('+' :: rest)).pieces ++
        run (s'.choice ('+' :: rest)).state (s'.choice ('+' :: rest)).rest) := by
  have hfree : ∀ {pieces : List Piece} {q : Position},
      (∀ piece ∈ pieces, piece.Free Kind.isChoice) → t ∉ place q pieces := by
    intro pieces q hf hmem
    obtain ⟨piece, hpiece, r, hr⟩ := Piece.exists_of_mem_place hmem
    have hnot := (hf piece hpiece).of_mem_tokens (fun _ => rfl) (fun _ => rfl) hr
    rw [hk] at hnot
    cases hnot
  fun_induction run s cs generalizing p with
  | case1 s =>
    refine absurd ht (hfree ?_)
    rw [State.finish, List.append_assoc]
    refine List.forall_mem_append.2 ⟨s.free_replicaEnd rfl, ?_⟩
    simp [List.mem_append, Kind.isChoice, or_imp, forall_and]
  | case2 s c cs ih =>
    rw [Piece.place_append] at ht
    rcases List.mem_append.1 ht with ht | ht
    · cases s.chooses_step c cs with
      | not hf => exact absurd ht (hfree hf)
      | @choice before s' rest hf hs hcs hr =>
        rw [hr, Piece.place_append] at ht
        obtain ⟨behind, hpieces, hbehind⟩ := s'.pieces_choice rest
        refine ⟨before, s', rest, hs, hcs, ?_, by rw [hr, List.append_assoc]⟩
        rcases List.mem_append.1 ht with ht | ht
        · exact absurd ht (hfree hf)
        · rw [hpieces, Piece.place_token] at ht
          rcases List.mem_cons.1 ht with rfl | ht
          · rfl
          · exact absurd ht (hfree hbehind)
    · obtain ⟨front, s', rest, hs, hcs, heq, hrun⟩ := ih ht
      refine ⟨(s.step c cs).pieces ++ front, s', rest, hs, ?_, ?_, ?_⟩
      · rw [Piece.texts_append, List.append_assoc, ← hcs, (s.splits_step c cs).texts_append]
      · rw [heq, Piece.texts_append, Position.advance_append]
      · rw [hrun, List.append_assoc]

end Lexer

/-! ## Tokens behind a choice -/

/-- What stands behind a choice when its sign ends at `p` and `cs` follows: no text, the text on its
line, or a visible bound and all that comes before the next one. -/
inductive Token.Chosen (p : Position) (cs : List Char) : List Token → Prop where
  | none {ts : List Token} (h : ∀ t ∈ ts.head?, t.kind.isOfChoiceText = false) : Chosen p cs ts
  | line {raw after : List Char} {ts : List Token} (hcs : cs = raw ++ after)
      (hb : Text.allBlank raw = false) (hend : UpToEnd ⟨false, false⟩ raw after) :
    Chosen p cs
      (⟨.choiceBound true, Span.point p⟩ ::
        ⟨.choiceText (String.ofList (Text.trimEnd raw)), Span.ofText p (Text.trimEnd raw)⟩ :: ts)
  | block {spacers raw after : List Char} {opening : Token} {inside ts : List Token}
      (hcs : cs = spacers ++ (boundMark ++ (raw ++ after)))
      (ho : opening.kind = .choiceBound false)
      (hs : opening.span.stop = p.advance (spacers ++ boundMark))
      (hi : ∀ t ∈ inside, t.kind.isInChoiceText)
      (hraw : (inside.map Token.kind).flatMap Kind.letters = lineFeeds raw)
      (hend : (∃ closing rest, ts = closing :: rest ∧ closing.kind = .choiceBound false ∧
          closing.span.start = p.advance (spacers ++ (boundMark ++ raw))) ∨
        ∃ n, after = [] ∧ ts.map Token.kind = endingKinds n) :
    Chosen p cs (opening :: (inside ++ ts))

namespace Lexer

/-- What a choice reads: a visible bound behind space, a blank text, or the text on its line. -/
theorem choice_cases (s : State) (rest : List Char) :
    (∃ spacers more, rest = spacers ++ (boundMark ++ more) ∧ s.choice ('+' :: rest) =
      { s with mode := .choiceText }.read
        [.token .choice ['+'], .gap spacers, .token (.choiceBound false) boundMark] more) ∨
    ∃ raw after, rest = raw ++ after ∧ UpToEnd ⟨false, false⟩ raw after ∧
      (Text.allBlank raw = true ∧
          s.choice ('+' :: rest) = s.read [.token .choice ['+'], .gap raw] after ∨
        Text.allBlank raw = false ∧ s.choice ('+' :: rest) = s.read
          [.token .choice ['+'], .mark (.choiceBound true),
            .token (.choiceText (String.ofList (Text.trimEnd raw))) (Text.trimEnd raw),
            .mark (.choiceBound true), .gap (Text.trailing raw)] after) := by
  have hbehind : s.behind.past ['+'] = ⟨false, false⟩ := s.behind.next_plus
  unfold State.choice
  dsimp only [List.take, List.drop]
  split
  · next hb =>
    obtain ⟨more, hmore⟩ := List.isPrefixOf_iff_prefix.1 hb
    have hspace := List.takeWhile_append_dropWhile (p := isSpacer) (l := rest)
    rw [← hmore] at hspace ⊢
    exact .inl ⟨_, more, hspace.symm, rfl⟩
  · rw [hbehind]
    have happend := readText_append (fun b cs => b.atComment cs) none ⟨false, false⟩ rest
    have hend := upToEnd_readText ⟨false, false⟩ rest
    generalize readText (fun b cs => b.atComment cs) none ⟨false, false⟩ rest = r at happend hend ⊢
    refine .inr ⟨r.1, r.2, happend.symm, hend, ?_⟩
    split
    · next hblank => exact .inl ⟨hblank, rfl⟩
    · next hblank => exact .inr ⟨by simpa using hblank, rfl⟩

/-- Where a comment begins, the next step reads its sign and maybe more of it. -/
theorem structural_comment {s : State} {c : Char} {cs : List Char}
    (h : s.behind.atComment (c :: cs) = true) :
    ∃ k text, k.isOfChoiceText = false ∧ (s.structural c cs).pieces = [.token k text] ∧
      (s.structural c cs).state.mode = s.mode := by
  unfold State.structural
  by_cases ho : s.behind.atCommentOpen (c :: cs) = true
  · obtain ⟨ds, hds⟩ := Lookbehind.cons_of_atCommentOpen ho
    obtain ⟨rfl, rfl⟩ := List.cons.inj hds
    rw [if_neg (by decide), if_pos ho]
    exact ⟨.commentOpen, _, rfl, rfl, rfl⟩
  · have hl : s.behind.atLineComment (c :: cs) = true := by
      simpa [Lookbehind.atComment, ho] using h
    obtain ⟨ds, hds⟩ := Lookbehind.cons_of_atLineComment hl
    obtain ⟨rfl, rfl⟩ := List.cons.inj hds
    rw [if_neg (by decide), if_neg ho, if_pos hl]
    exact ⟨.comment _, _, rfl, rfl, rfl⟩

/-- Where the text on the line of a choice is over, no other text begins. -/
theorem head?_settle_ended {s : State} (hs : s.AtStatements) {cs : List Char}
    (h : atLineEnd cs = true ∨ s.behind.atComment cs = true) (p : Position) :
    ∀ t ∈ (Piece.place p (Piece.settle (run s cs))).head?, t.kind.isOfChoiceText = false := by
  have hfirst : ∀ {r : Step} {k : Kind} {text : List Char}, k.isOfChoiceText = false →
      r.pieces = [.token k text] → r.state.mode = s.mode →
      ∀ t ∈ (Piece.place p (Piece.settle (r.pieces ++ run r.state r.rest))).head?,
        t.kind.isOfChoiceText = false := by
    intro r k text hk hr hm t ht
    have hmode : r.state.mode ≠ .replica := by
      rw [hm, hs.mode]
      nofun
    rw [hr, List.singleton_append, Piece.settle_cons,
      Piece.pushSettled_eq (head?_settle_run hmode _), Piece.place_token] at ht
    obtain rfl := Option.some.inj ht
    exact hk
  cases cs with
  | nil =>
    have hrun : run s [] = closing s.level := by
      rw [run, State.finish, State.replicaEnd, if_neg (by rw [hs.mode]; nofun)]
      rfl
    rw [hrun, settle_closing, Piece.place_closing]
    intro t ht
    have hmem := List.mem_of_mem_head? ht
    simp only [List.mem_append, List.mem_replicate, List.mem_singleton] at hmem
    rcases hmem with ⟨-, rfl⟩ | rfl
    · rfl
    · rfl
  | cons c cs =>
    by_cases hn : atNewline (c :: cs) = true
    · have hstep : s.step c cs = s.newline (c :: cs) := if_pos hn
      rw [run, hstep]
      exact hfirst rfl rfl rfl
    · obtain ⟨k, text, hk, hpieces, hm⟩ :=
        structural_comment (h.resolve_left (by simpa [atLineEnd] using hn))
      have hscan : s.scan c cs = s.structural c cs := by
        simp [State.scan, hs.inComment, hs.mode]
      rw [Canonical.run_scan hs.freshLine (by simpa using hn), hscan]
      exact hfirst hk hpieces hm

end Lexer

open Piece (place) in
/-- A visible bound behind space, the pieces of an open choice text and what stands behind them. -/
theorem Token.chosen_block {p : Position} {spacers after : List Char} {inside pieces : List Piece}
    (hi : ∀ piece ∈ inside, piece.InText)
    (hletters : Piece.letters inside = lineFeeds (Piece.texts inside))
    (hend : (∃ rest, pieces = .token (.choiceBound false) boundMark :: rest) ∨
      ∃ n, after = [] ∧ pieces = Lexer.closing n) :
    Token.Chosen p (spacers ++ (boundMark ++ (Piece.texts inside ++ after)))
      (place p (.gap spacers :: .token (.choiceBound false) boundMark :: (inside ++ pieces))) := by
  have hkinds := Piece.kinds_place ((p.advance spacers).advance boundMark) inside
  have hplace :
      place p (.gap spacers :: .token (.choiceBound false) boundMark :: (inside ++ pieces)) =
      ⟨.choiceBound false, Span.ofText (p.advance spacers) boundMark⟩ ::
        (place ((p.advance spacers).advance boundMark) inside ++
          place (((p.advance spacers).advance boundMark).advance (Piece.texts inside)) pieces) := by
    rw [← Piece.place_append]
    rfl
  rw [hplace]
  refine .block rfl rfl (Position.advance_append p spacers boundMark).symm ?_ ?_ ?_
  · intro t ht
    obtain ⟨piece, hpiece, q, hq⟩ := Piece.exists_of_mem_place ht
    obtain ⟨k, text, rfl, hk, -⟩ := hi piece hpiece
    rw [List.mem_singleton.1 hq]
    exact hk
  · rw [hkinds]
    exact hletters
  · rcases hend with ⟨rest, rfl⟩ | ⟨n, rfl, rfl⟩
    · refine .inl ⟨_, _, rfl, rfl, ?_⟩
      rw [Position.advance_append, Position.advance_append]
      rfl
    · exact .inr ⟨n, rfl, by rw [Piece.kinds_place, kinds_closing]⟩

namespace Lexer

open Piece (place settle) in
/-- What a choice and the run behind it read: the sign, pieces that end no replica, and behind these
what is settled by itself. -/
theorem chosen_run {s : State} (hs : s.AtStatements) (rest : List Char) :
    ∃ pieces tail, (s.choice ('+' :: rest)).pieces ++
        run (s.choice ('+' :: rest)).state (s.choice ('+' :: rest)).rest =
          (.token .choice ['+'] :: pieces) ++ tail ∧
      .mark .replicaEnd ∉ pieces ∧ (settle tail).head? ≠ some (.mark .replicaEnd) ∧
      ∀ p, Token.Chosen p rest (place p (pieces ++ settle tail)) := by
  have hmode : ∀ pieces after, (s.read pieces after).state.mode ≠ .replica := by
    intro pieces after
    rw [State.mode_read, hs.mode]
    decide
  rcases choice_cases s rest with ⟨spacers, more, rfl, hchoice⟩ |
    ⟨raw, after, rfl, hend, ⟨hb, hchoice⟩ | ⟨hb, hchoice⟩⟩
  · rw [hchoice, State.pieces_read, State.rest_read]
    generalize hs' : ({ s with mode := .choiceText }.read _ more).state = s'
    have hopen : s'.mode = .choiceText := hs' ▸ rfl
    obtain ⟨inside, after, rfl, hi, hletters, hrun⟩ := run_choiceText hopen more
    have hmarks : .mark .replicaEnd ∉
        .gap spacers :: .token (.choiceBound false) boundMark :: inside := by
      have hinside : .mark .replicaEnd ∉ inside := by
        intro hmem
        obtain ⟨k, text, hmark, -, hne⟩ := hi _ hmem
        exact hne (Piece.covered.inj hmark).1.symm
      simpa [Piece.gap, Piece.mark, Piece.token] using hinside
    rcases hrun with ⟨s'', rest, hs'', rfl, hrun⟩ | ⟨n, rfl, hrun⟩
    · have hsettle : settle (.token (.choiceBound false) boundMark :: run s'' rest) =
          .token (.choiceBound false) boundMark :: settle (run s'' rest) :=
        Piece.pushSettled_eq (head?_settle_run hs'' rest)
      refine ⟨_, _, by rw [hrun]; rfl, hmarks, ?_, fun p => ?_⟩
      · rw [hsettle]
        simp [Piece.token, Piece.mark]
      · rw [hsettle]
        exact Token.chosen_block hi hletters (.inl ⟨_, rfl⟩)
    · refine ⟨_, _, by rw [hrun]; rfl, hmarks, ?_, fun p => ?_⟩
      · rw [settle_closing]
        exact fun h => mark_not_mem_closing n (List.mem_of_mem_head? h)
      · rw [settle_closing]
        exact Token.chosen_block hi hletters (.inr ⟨n, rfl, rfl⟩)
  · rw [hchoice]
    have hover : atLineEnd after = true ∨
        (s.read [.token .choice ['+'], .gap raw] after).state.behind.atComment after = true := by
      refine hend.ends.imp_right fun hlone => ?_
      have hcomment := hlone.2
      rw [← s.behind.next_plus] at hcomment
      simpa [State.read, State.past] using hcomment
    have hended := head?_settle_ended (s := (s.read [.token .choice ['+'], .gap raw] after).state)
      ⟨hs.mode, hs.inComment, hs.freshLine⟩ hover
    exact ⟨_, _, rfl, by simp [Piece.gap, Piece.mark], head?_settle_run (hmode _ _) _,
      fun p => .none (hended (p.advance raw))⟩
  · rw [hchoice]
    exact ⟨_, _, rfl, by simp [Piece.gap, Piece.mark, Piece.token], head?_settle_run (hmode _ _) _,
      fun p => .line rfl hb hend⟩

end Lexer

/-- Every choice of a source stands before its text, if it has one. -/
theorem chosen_of_mem_tokenize {source : String} {t : Token} (h : t ∈ tokenize source)
    (hk : t.kind = .choice) :
    ∃ front ts before rest, tokenize source = front ++ t :: ts ∧
      source.toList = before ++ '+' :: rest ∧
      t.span = Span.ofText (Position.origin.advance before) ['+'] ∧
      Token.Chosen t.span.stop rest ts := by
  have hmem : t ∈ Piece.place Position.origin (Lexer.run {} source.toList) := by
    have hends := Piece.withoutEnds_settle Position.origin (Lexer.run {} source.toList)
    have hsettled : t ∈ Token.withoutEnds (tokenize source) :=
      Token.mem_withoutEnds.2 ⟨h, by rw [hk]; nofun⟩
    exact (Token.mem_withoutEnds.1 (hends ▸ hsettled)).1
  obtain ⟨front, s, rest, hs, hsource, rfl, hrun⟩ := Lexer.exists_choice hmem hk
  obtain ⟨pieces, tail, hread, hmarks, htail, hchosen⟩ := Lexer.chosen_run hs rest
  refine ⟨Piece.place Position.origin (Piece.settle front), _, Piece.texts front, rest, ?_, hsource,
    rfl, hchosen _⟩
  rw [tokenize, hrun, hread, Piece.settle_middle (List.cons_ne_nil _ _) ?_ htail,
    Piece.place_append, Piece.texts_settle]
  · rfl
  · simpa [Piece.mark, Piece.token] using hmarks

end StoryScript

import StoryScript.Proofs.LineEnds.Reading
/-!
# The lexer and carriage returns at line ends

Every step of the lexer reads the same pieces whether or not a carriage return stands before each line
feed, up to the carriage returns in the pieces of line ends (`step_withReturns`), and so does a whole
run (`run_withReturns`). The ends of replicas are moved to the same places (`settle_withReturns`).
-/

namespace StoryScript

open Token (Kind)

/-! ## Pieces -/

namespace Piece

/-- The piece with returns at the line ends of its text. -/
def withReturns : Piece → Piece
  | covered text kinds => covered (StoryScript.withReturns text) kinds
  | arguments list => arguments list.withReturns

@[simp] theorem withReturns_gap (text : List Char) :
    (gap text).withReturns = gap (StoryScript.withReturns text) := rfl

@[simp] theorem withReturns_token (kind : Kind) (text : List Char) :
    (token kind text).withReturns = token kind (StoryScript.withReturns text) := rfl

@[simp] theorem withReturns_mark (kind : Kind) : (mark kind).withReturns = mark kind := rfl

@[simp] theorem withReturns_arguments (list : ArgumentList) :
    (arguments list).withReturns = arguments list.withReturns := rfl

theorem map_withReturns_trimmed (kind : String → Kind) {text : List Char} (h : InLine text) :
    (trimmed kind text).map withReturns = trimmed kind text := by
  have ht : InLine (Text.trailing (Text.trimStart text)) :=
    h.subset fun c hc => Text.trimStart_subset _ (Text.trailing_subset _ hc)
  simp [trimmed, withReturns_of_inLine ht, withReturns_of_inLine (h.subset (Text.leading_subset _)),
    withReturns_of_inLine (h.subset (Text.trim_subset _))]

theorem map_withReturns_trimmedEnd (kind : String → Kind) {text : List Char} (h : InLine text) :
    (trimmedEnd kind text).map withReturns = trimmedEnd kind text := by
  simp [trimmedEnd, withReturns_of_inLine (h.subset (Text.trimEnd_subset _)),
    withReturns_of_inLine (h.subset (Text.trailing_subset _))]

end Piece

@[simp] theorem Lookbehind.past_texts_withReturns (b : Lookbehind) (pieces : List Piece) :
    b.past (Piece.texts (pieces.map Piece.withReturns)) = b.past (Piece.texts pieces) := by
  induction pieces generalizing b with
  | nil => rfl
  | cons piece pieces ih =>
    rw [List.map_cons, Piece.texts_cons, Piece.texts_cons, past_append, past_append, ih]
    congr 1
    cases piece with
    | covered text kinds => exact past_withReturns b text
    | arguments list => rfl

/-! ## Readers, on both texts at once -/

section
variable (stop : Lookbehind → List Char → Bool) {cs : List Char}

theorem readUntil_both (hs : ∀ b cs, NoReturns cs → stop b (withReturns cs) = stop b cs)
    (hn : ∀ b cs, stop b ('\n' :: cs) = true) (b : Lookbehind) (h : NoReturns cs) :
    ∃ text rest, readUntil stop b cs = (text, rest) ∧
      readUntil stop b (withReturns cs) = (text, withReturns rest) ∧ InLine text ∧ NoReturns rest := by
  have happ := readUntil_append stop b cs
  refine ⟨_, _, rfl, readUntil_withReturns hs hn b h, inLine_readUntil stop hn b cs, ?_⟩
  intro hr
  exact h (happ ▸ List.mem_append_right _ hr)

theorem readText_both (hs : ∀ b cs, NoReturns cs → stop b (withReturns cs) = stop b cs)
    (b : Lookbehind) (h : NoReturns cs) :
    ∃ text rest, readText stop none b cs = (text, rest) ∧
      readText stop none b (withReturns cs) = (text, withReturns rest) ∧ InLine text :=
  ⟨_, _, rfl, readText_withReturns hs none b h, inLine_readText stop none b cs⟩

end

namespace Lexer

/-- The step with returns at the line ends of what it reads and leaves. -/
def Step.withReturns (r : Step) : Step :=
  ⟨r.pieces.map Piece.withReturns, r.state, StoryScript.withReturns r.rest⟩

namespace State

variable (s : State) {cs ds : List Char}

theorem read_withReturns (pieces : List Piece) (rest : List Char) :
    s.read (pieces.map Piece.withReturns) (withReturns rest) = (s.read pieces rest).withReturns := by
  simp [read, past, Step.withReturns]

/-- A step that reads pieces with no line end in them. -/
theorem read_inLine {pieces : List Piece} (h : pieces.map Piece.withReturns = pieces)
    (rest : List Char) : s.read pieces (withReturns rest) = (s.read pieces rest).withReturns := by
  rw [← read_withReturns, h]

/-! ## Comments -/

theorem openComment_withReturns {b : Lookbehind} (h : b.atCommentOpen cs = true) :
    s.openComment (withReturns cs) = (s.openComment cs).withReturns := by
  obtain ⟨ds, rfl⟩ := Lookbehind.cons_of_atCommentOpen h
  rfl

theorem lineComment_withReturns (h : NoReturns cs) :
    s.lineComment (withReturns cs) = (s.lineComment cs).withReturns := by
  obtain ⟨text, rest, hr, hr', hl, -⟩ := readUntil_both (fun _ cs => atLineEnd cs)
    (fun _ _ => atLineEnd_withReturns) (fun _ _ => rfl) s.behind h
  rw [lineComment, lineComment, hr, hr']
  exact read_inLine s (by simp [withReturns_of_inLine hl]) rest

theorem commentLine_withReturns (h : NoReturns cs) :
    s.commentLine (withReturns cs) = (s.commentLine cs).withReturns := by
  obtain ⟨text, rest, hr, hr', hl, hrest⟩ := readUntil_both
    (fun b cs => atLineEnd cs || b.atCommentClose cs)
    (fun _ _ h => by rw [atLineEnd_withReturns h, (alike_withReturns h).atCommentClose]) (fun _ _ => rfl) s.behind h
  rw [commentLine, commentLine, hr, hr']
  dsimp only
  rw [(alike_withReturns hrest).atCommentClose]
  have htext : (if text.isEmpty then [] else
      [Piece.token (.commentText (String.ofList text)) text]).map Piece.withReturns =
        if text.isEmpty then [] else [Piece.token (.commentText (String.ofList text)) text] := by
    split <;> simp [withReturns_of_inLine hl]
  split
  · next hclose =>
    obtain ⟨ds, rfl⟩ := Lookbehind.cons_of_atCommentClose hclose
    exact read_inLine _ (by rw [List.map_append, htext]; rfl) ds
  · exact read_inLine s htext rest

/-! ## Structure -/

theorem tag_withReturns (kind : String → Kind) (h : NoReturns ds) :
    s.tag kind ('@' :: withReturns ds) = (s.tag kind ('@' :: ds)).withReturns := by
  obtain ⟨name, rest, hr, hr', hl, hrest⟩ := readUntil_both (fun _ cs => endsName cs)
    (fun _ _ => endsName_withReturns) (fun _ _ => rfl) (s.behind.past ['@']) h
  obtain ⟨value, rest', hv, hv', hvl, -⟩ := readUntil_both
    (fun b cs => atLineEnd cs || b.startsToken cs)
    (fun _ _ h => by rw [atLineEnd_withReturns h, (alike_withReturns h).startsToken]) (fun _ _ => rfl)
    (s.behind.past (['@'] ++ name)) hrest
  unfold tag
  dsimp only [List.take, List.drop]
  rw [hr, hr']
  dsimp only
  rw [hv, hv']
  split
  · rfl
  · have hname : InLine ('@' :: name) := hl.cons (by decide)
    refine read_inLine s ?_ rest'
    rw [List.map_cons, Piece.withReturns_token, List.singleton_append, withReturns_of_inLine hname]
    split
    · simp [withReturns_of_inLine hvl]
    · rw [Piece.map_withReturns_trimmedEnd _ hvl]

theorem call_withReturns (h : NoReturns ds) :
    s.call (callMark ++ withReturns ds) = (s.call (callMark ++ ds)).withReturns := by
  obtain ⟨name, rest, hr, hr', hl, hrest⟩ := readUntil_both
    (fun b cs => endsName cs || b.atParenthesis cs)
    (fun _ _ h => by rw [endsName_withReturns h, (alike_withReturns h).atParenthesis]) (fun _ _ => rfl) (s.behind.past callMark) h
  have hcall : InLine (callMark ++ name) := InLine.append (by decide) hl
  unfold call
  simp only [List.take_left, List.drop_left]
  rw [hr, hr']
  dsimp only
  rw [(alike_withReturns hrest).atParenthesis]
  split
  · next hp =>
    obtain ⟨es, rfl⟩ := Lookbehind.cons_of_atParenthesis hp
    have hlist := readArguments_withReturns 1 false
      ((s.behind.past (callMark ++ name)).next '(') hrest.tail
    rw [withReturns_cons (by decide), List.drop_one, List.tail_cons, List.drop_one, List.tail_cons,
      hlist, ← read_withReturns]
    simp [withReturns_of_inLine hcall, ArgumentList.withReturns]
  · exact read_inLine s (by simp [withReturns_of_inLine hcall]) rest

theorem header_withReturns (h : NoReturns ds) :
    s.header ('=' :: '=' :: withReturns ds) = (s.header ('=' :: '=' :: ds)).withReturns := by
  have hsp := inLine_of_spacers (isSpacer_of_mem_takeWhile ds)
  have hdrop : NoReturns (ds.dropWhile isSpacer) := fun hr => h ((List.dropWhile_sublist _).subset hr)
  obtain ⟨name, rest, hr, hr', hl, -⟩ := readUntil_both
    (fun b cs => endsName cs || b.atComment cs)
    (fun _ _ h => by rw [endsName_withReturns h, (alike_withReturns h).atComment]) (fun _ _ => rfl)
    (s.behind.past (['=', '='] ++ ds.takeWhile isSpacer)) hdrop
  unfold header
  dsimp only [List.take, List.drop]
  rw [takeWhile_spacers_withReturns, dropWhile_spacers_withReturns, hr, hr']
  have hmark : withReturns ['=', '='] = ['=', '='] := rfl
  refine read_inLine s ?_ rest
  dsimp only
  split <;> simp [withReturns_of_inLine hsp, withReturns_of_inLine hl, hmark]

theorem goto_withReturns {c : Char} (hc : c = '-' ∨ c = '=') (h : NoReturns ds) :
    s.goto (c :: '>' :: withReturns ds) = (s.goto (c :: '>' :: ds)).withReturns := by
  have hsp := inLine_of_spacers (isSpacer_of_mem_takeWhile ds)
  have hdrop : NoReturns (ds.dropWhile isSpacer) := fun hr => h ((List.dropWhile_sublist _).subset hr)
  have harrow := inLine_arrow hc
  obtain ⟨target, rest, hr, hr', hl, -⟩ := readUntil_both
    (fun b cs => atLineEnd cs || b.atComment cs)
    (fun _ _ h => by rw [atLineEnd_withReturns h, (alike_withReturns h).atComment]) (fun _ _ => rfl)
    (s.behind.past ([c, '>'] ++ ds.takeWhile isSpacer)) hdrop
  unfold goto
  dsimp only [List.take, List.drop]
  rw [takeWhile_spacers_withReturns, dropWhile_spacers_withReturns, hr, hr']
  refine read_inLine s ?_ rest
  dsimp only
  rw [List.map_append]
  split
  · simp [withReturns_of_inLine hsp, withReturns_of_inLine hl, withReturns_of_inLine harrow]
  · simp [withReturns_of_inLine hsp, Piece.map_withReturns_trimmed _ hl,
      withReturns_of_inLine harrow]

theorem stray_withReturns {c : Char} (hc : c ≠ '\n') (h : NoReturns cs) :
    s.stray c (withReturns cs) = (s.stray c cs).withReturns := by
  obtain ⟨text, rest, hr, hr', hl, -⟩ := readUntil_both
    (fun b cs => atLineEnd cs || b.startsToken cs)
    (fun _ _ h => by rw [atLineEnd_withReturns h, (alike_withReturns h).startsToken]) (fun _ _ => rfl) (s.behind.next c) h
  rw [stray, stray, hr, hr']
  refine read_inLine s (Piece.map_withReturns_trimmed _ ?_) rest
  exact hl.cons hc

/-! ## Choices -/

theorem openBound_withReturns {before : List Piece} (hb : before.map Piece.withReturns = before)
    (ds : List Char) :
    s.openBound before (boundMark ++ withReturns ds) =
      (s.openBound before (boundMark ++ ds)).withReturns := by
  simp only [openBound, List.take_left, List.drop_left]
  refine read_inLine _ ?_ ds
  rw [List.map_append, hb]
  rfl

theorem choice_withReturns (h : NoReturns ds) :
    s.choice ('+' :: withReturns ds) = (s.choice ('+' :: ds)).withReturns := by
  have hsp := inLine_of_spacers (isSpacer_of_mem_takeWhile ds)
  have hdrop : NoReturns (ds.dropWhile isSpacer) := fun hr => h ((List.dropWhile_sublist _).subset hr)
  obtain ⟨text, rest, hr, hr', hl⟩ := readText_both (fun b cs => b.atComment cs)
    (fun b _ h => (alike_withReturns h).atComment b) (s.behind.past ['+']) h
  unfold choice
  dsimp only [List.take, List.drop]
  rw [takeWhile_spacers_withReturns, dropWhile_spacers_withReturns, hr, hr',
    keepsMarks_withReturns.isPrefixOf boundMark (by decide) ⟨hdrop, rfl⟩]
  split
  · next hp =>
    obtain ⟨es, hes⟩ := List.isPrefixOf_iff_prefix.1 hp
    rw [← hes, withReturns_append, withReturns_of_inLine (by decide)]
    exact openBound_withReturns s (by simp [withReturns_of_inLine hsp]; rfl) es
  · refine read_inLine s ?_ rest
    dsimp only
    rw [List.map_cons]
    split
    · simp [withReturns_of_inLine hl]
      rfl
    · simp [withReturns_of_inLine (hl.subset (Text.trimEnd_subset _)),
        withReturns_of_inLine (hl.subset (Text.trailing_subset _))]
      rfl

theorem choiceText_withReturns (h : NoReturns cs) :
    s.choiceText (withReturns cs) = (s.choiceText cs).withReturns := by
  obtain ⟨text, rest, hr, hr', hl⟩ := readText_both
    (fun b cs => b.atBound cs || b.atComment cs)
    (fun _ _ h => by rw [(alike_withReturns h).atBound, (alike_withReturns h).atComment]) s.behind h
  have ha := alike_withReturns h
  unfold choiceText
  rw [ha.atBound, ha.atCommentOpen, ha.atLineComment, hr, hr']
  split
  · next hb =>
    obtain ⟨ds, rfl⟩ := Lookbehind.append_of_atBound hb
    rfl
  · split
    · next ho => exact openComment_withReturns s ho
    · split
      · exact lineComment_withReturns s h
      · exact read_inLine s (by simp [withReturns_of_inLine hl]) rest

/-! ## Replicas -/

theorem openReplica_withReturns (ds : List Char) :
    s.openReplica ('"' :: ' ' :: withReturns ds) = (s.openReplica ('"' :: ' ' :: ds)).withReturns :=
  rfl

@[simp] theorem map_withReturns_replicaEnd : s.replicaEnd.map Piece.withReturns = s.replicaEnd := by
  unfold replicaEnd
  split <;> rfl

theorem replica_withReturns (h : NoReturns cs) :
    s.replica (withReturns cs) = (s.replica cs).withReturns := by
  obtain ⟨text, rest, hr, hr', hl⟩ := readText_both
    (fun b cs => b.endsReplica cs || b.atComment cs)
    (fun _ _ h => by rw [(alike_withReturns h).endsReplica, (alike_withReturns h).atComment])
    s.behind h
  have ha := alike_withReturns h
  unfold replica
  rw [ha.endsReplica, ha.atCommentOpen, ha.atLineComment, hr, hr']
  split
  · exact read_inLine _ (map_withReturns_replicaEnd s) cs
  · split
    · next ho => exact openComment_withReturns s ho
    · split
      · exact lineComment_withReturns s h
      · refine read_inLine s ?_ rest
        split <;> simp [withReturns_of_inLine hl]

/-! ## Steps -/

theorem withReturns_ite {p : Prop} [Decidable p] {a b a' b' : Step} (ha : p → a' = a.withReturns)
    (hb : b' = b.withReturns) : (if p then a' else b') = (if p then a else b).withReturns := by
  split
  · next h => exact ha h
  · exact hb

theorem structural_withReturns {c : Char} (hc : c ≠ '\n') (h : NoReturns (c :: cs)) :
    s.structural c (withReturns cs) = (s.structural c cs).withReturns := by
  have hcons : c :: withReturns cs = withReturns (c :: cs) := (withReturns_cons hc cs).symm
  apply structural_both (motive := fun _ r r' => r' = r.withReturns) keepsMarks_withReturns
    ⟨h, hcons⟩
  case space => exact fun _ => read_inLine s (by simp [withReturns_cons hc]) cs
  case openComment =>
    intro hm
    rw [hcons]
    exact openComment_withReturns s hm
  case lineComment =>
    rw [hcons]
    exact lineComment_withReturns s h
  case call =>
    rintro es - ⟨hes, rfl⟩
    exact call_withReturns s hes
  case choiceTag =>
    rintro es - ⟨hes, rfl⟩
    exact tag_withReturns s _ hes
  case tag =>
    rintro es - ⟨hes, rfl⟩
    exact tag_withReturns s _ hes
  case header =>
    rintro es - ⟨hes, rfl⟩
    exact header_withReturns s hes
  case goto =>
    rintro d es - hd ⟨hes, rfl⟩
    exact goto_withReturns s hd hes
  case choice =>
    rintro es - ⟨hes, rfl⟩
    exact choice_withReturns s hes
  case replica =>
    rintro es - ⟨-, rfl⟩
    exact openReplica_withReturns s es
  case bound =>
    rintro es - ⟨-, rfl⟩
    exact openBound_withReturns s rfl es
  case stray => exact stray_withReturns s hc h.tail

theorem scan_withReturns {c : Char} (hc : c ≠ '\n') (h : NoReturns (c :: cs)) :
    s.scan c (withReturns cs) = (s.scan c cs).withReturns := by
  have hcons : c :: withReturns cs = withReturns (c :: cs) := (withReturns_cons hc cs).symm
  unfold scan
  rw [hcons]
  split
  · exact commentLine_withReturns s h
  · split
    · exact structural_withReturns s hc h
    · exact replica_withReturns s h
    · exact choiceText_withReturns s h

theorem indentation_withReturns {spacers : List Char} (hs : InLine spacers) {rest : List Char}
    (h : NoReturns rest) :
    s.indentation spacers (withReturns rest) = s.indentation spacers rest ∧
      (s.indentation spacers rest).1.map Piece.withReturns = (s.indentation spacers rest).1 := by
  unfold indentation
  rw [(alike_withReturns h).atLineComment]
  refine ⟨rfl, ?_⟩
  dsimp only
  split
  · simp [withReturns_of_inLine hs]
  · rw [List.map_append, map_withReturns_replicaEnd, List.map_singleton, Piece.withReturns,
      withReturns_of_inLine hs]

/-- A step reads the same whether or not a carriage return stands before each line feed. -/
theorem step_withReturns {c : Char} (h : NoReturns (c :: cs)) :
    ∃ d ds, withReturns (c :: cs) = d :: ds ∧ s.step d ds = (s.step c cs).withReturns := by
  by_cases hc : c = '\n'
  · -- both ends of a line are read as one token
    subst hc
    exact ⟨'\r', '\n' :: withReturns cs, rfl, rfl⟩
  refine ⟨c, withReturns cs, withReturns_cons hc cs, ?_⟩
  have hcons : c :: withReturns cs = withReturns (c :: cs) := (withReturns_cons hc cs).symm
  have hsp := inLine_of_spacers (isSpacer_of_mem_takeWhile (c :: cs))
  have hdrop : NoReturns ((c :: cs).dropWhile isSpacer) :=
    fun hr => h ((List.dropWhile_sublist _).subset hr)
  unfold step
  rw [hcons, atNewline_withReturns h, takeWhile_spacers_withReturns, dropWhile_spacers_withReturns]
  refine withReturns_ite (fun hn => ?_) ?_
  · -- a line that ends here would begin with a line feed or a carriage return
    rcases newline_of_atNewline hn with ⟨ds, hds⟩ | ⟨ds, hds⟩
    · exact absurd (List.cons.inj hds).1 hc
    · exact absurd (List.mem_cons_self) ((List.cons.inj hds).1 ▸ h)
  refine withReturns_ite (fun _ => ?_) (scan_withReturns _ hc h)
  cases hd : (c :: cs).dropWhile isSpacer with
  | nil => exact read_inLine _ (by simp [withReturns_of_inLine hsp]) []
  | cons d ds =>
    rw [hd] at hdrop
    have hnew := atNewline_withReturns hdrop
    by_cases hdn : d = '\n'
    · subst hdn
      exact read_inLine _ (by simp [withReturns_of_inLine hsp]) ('\n' :: ds)
    · rw [withReturns_cons hdn] at hnew ⊢
      dsimp only
      rw [hnew]
      refine withReturns_ite (fun _ => ?_) ?_
      · rw [← withReturns_cons hdn]
        exact read_inLine _ (by simp [withReturns_of_inLine hsp]) (d :: ds)
      · obtain ⟨hind, hmap⟩ := indentation_withReturns { s with freshLine := false } hsp hdrop
        rw [withReturns_cons hdn] at hind
        rw [hind, scan_withReturns _ hdn hdrop]
        simp [Step.withReturns, hmap]

end State

/-! ## Runs -/

/-- The pieces of a text are the same whether or not a carriage return stands before each line feed,
up to these carriage returns. -/
theorem run_withReturns (s : State) {cs : List Char} (h : NoReturns cs) :
    run s (withReturns cs) = (run s cs).map Piece.withReturns := by
  fun_induction run s cs with
  | case1 s => simp [run, State.finish]
  | case2 s c cs ih =>
    obtain ⟨d, ds, hw, hstep⟩ := s.step_withReturns h
    have hrest : NoReturns (s.step c cs).rest := by
      intro hr
      exact h ((s.splits_step c cs).texts_append ▸ List.mem_append_right _ hr)
    rw [hw, run, hstep, List.map_append, ← ih hrest]
    rfl

end Lexer

/-! ## The ends of replicas -/

namespace Piece

@[simp] theorem holdsReplica_withReturns (piece : Piece) :
    piece.withReturns.holdsReplica = piece.holdsReplica := by
  cases piece with
  | covered text kinds =>
    unfold withReturns holdsReplica
    split <;> split <;> simp_all
  | arguments list => rfl

theorem withReturns_eq_replicaEnd {piece : Piece} :
    piece.withReturns = .mark .replicaEnd ↔ piece = .mark .replicaEnd := by
  cases piece with
  | covered text kinds => simp [withReturns, mark, withReturns_eq_nil]
  | arguments list => simp [withReturns, mark]

theorem settle_withReturns (pieces : List Piece) :
    settle (pieces.map withReturns) = (settle pieces).map withReturns :=
  settle_map holdsReplica_withReturns withReturns_eq_replicaEnd pieces

end Piece

end StoryScript

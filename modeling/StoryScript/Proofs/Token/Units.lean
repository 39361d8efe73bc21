import StoryScript.Proofs.Text.Margins
import StoryScript.Proofs.Token.Reading
/-!
# What can be read where

A step of the lexer reads units: a line end, a stretch of space, a header with its name, a call with
its arguments. Which units can come next depends on the mode, on whether a block comment is open and
on the level (`Context`). `Reads` lists the units with all that is known of their texts, and
`readsAll_step` says that every step reads units. What holds of the tokens of every source is proved
by cases over this list, without looking at the scanners again.
-/

namespace StoryScript

open Token (Kind)

/-- Text that ends no line. -/
def InLine (text : List Char) : Prop := '\n' ∉ text

instance (text : List Char) : Decidable (InLine text) := inferInstanceAs (Decidable (¬ _))

theorem InLine.subset {as bs : List Char} (h : InLine bs) (hs : as ⊆ bs) : InLine as :=
  fun hn => h (hs hn)

theorem InLine.cons {c : Char} {text : List Char} (hc : c ≠ '\n') (h : InLine text) :
    InLine (c :: text) := List.not_mem_cons_of_ne_of_not_mem hc.symm h

theorem InLine.append {as bs : List Char} (ha : InLine as) (hb : InLine bs) : InLine (as ++ bs) := by
  intro hn
  rcases List.mem_append.1 hn with hn | hn
  · exact ha hn
  · exact hb hn

theorem inLine_arrow {c : Char} (hc : c = '-' ∨ c = '=') : InLine [c, '>'] := by
  rcases hc with rfl | rfl <;> decide

/-! ## Readers stay in their line -/

theorem inLine_readUntil (stop : Lookbehind → List Char → Bool)
    (h : ∀ b cs, stop b ('\n' :: cs) = true) (b : Lookbehind) (cs : List Char) :
    InLine (readUntil stop b cs).1 := by
  induction cs generalizing b with
  | nil => exact List.not_mem_nil
  | cons c cs ih =>
    rw [readUntil]
    split
    · exact List.not_mem_nil
    · next hs =>
      have hc : c ≠ '\n' := fun hc => hs (hc ▸ h b cs)
      exact (ih _).cons hc

theorem ne_newline_of_not_atLineEnd {c : Char} {cs : List Char} (h : ¬ atLineEnd (c :: cs) = true) :
    c ≠ '\n' :=
  fun hc => h (hc ▸ rfl)

theorem inLine_readText (stop : Lookbehind → List Char → Bool) (nesting : Option CallNesting)
    (b : Lookbehind) (cs : List Char) : InLine (readText stop nesting b cs).1 := by
  induction cs generalizing nesting b with
  | nil => cases nesting <;> exact List.not_mem_nil
  | cons c cs ih =>
    have hcons : ∀ n b', ¬ atLineEnd (c :: cs) = true → InLine (c :: (readText stop n b' cs).1) :=
      fun n b' hl => (ih n b').cons (ne_newline_of_not_atLineEnd hl)
    cases nesting with
    | some n =>
      rw [readText]
      split
      · exact List.not_mem_nil
      · next hl => exact hcons _ _ hl
    | none =>
      rw [readText]
      split
      · exact List.not_mem_nil
      · next hl =>
        split
        · exact hcons _ _ hl
        · split
          · exact List.not_mem_nil
          · exact hcons _ _ hl

theorem inLine_readArguments (depth : Nat) (quoted : Bool) (b : Lookbehind) (cs : List Char) :
    InLine (readArguments depth quoted b cs).text := by
  induction cs generalizing depth quoted b with
  | nil => exact List.not_mem_nil
  | cons c cs ih =>
    rw [readArguments]
    split
    · exact List.not_mem_nil
    · next hl =>
      have hpush : ∀ d q, InLine ((readArguments d q (b.next c) cs).push c).text :=
        fun d q => (ih d q _).cons (ne_newline_of_not_atLineEnd hl)
      have hcut : InLine (readArguments depth quoted (b.next c) cs).cut.text :=
        (ih depth quoted _).cons (by decide)
      repeat' split
      all_goals first
        | exact hpush _ _
        | exact hcut
        | exact (by decide : '\n' ∉ [')'])

/-! ## Spaces and tabs -/

theorem isBlank_of_isSpacer {c : Char} (h : isSpacer c) : Text.isBlank c := by
  simp only [isSpacer, Bool.or_eq_true, beq_iff_eq] at h
  rcases h with rfl | rfl <;> decide

theorem allBlank_of_spacers {text : List Char} (h : ∀ c ∈ text, isSpacer c) : Text.allBlank text :=
  List.all_eq_true.2 fun c hc => isBlank_of_isSpacer (h c hc)

theorem inLine_of_spacers {text : List Char} (h : ∀ c ∈ text, isSpacer c) : InLine text :=
  fun hn => absurd (h _ hn) (by decide)

theorem isSpacer_of_mem_takeWhile (cs : List Char) : ∀ c ∈ cs.takeWhile isSpacer, isSpacer c :=
  List.all_eq_true.1 List.all_takeWhile

namespace Lexer

/-! ## Units -/

/-- What of a state decides which units can come next. -/
structure Context where
  mode : Mode
  inComment : Bool
  level : Nat
deriving DecidableEq, Repr

/-- The context at a place. -/
def State.context (s : State) : Context := ⟨s.mode, s.inComment, s.level⟩

namespace Context

/-- Where statements, tags and headers can begin. -/
def ground (level : Nat) : Context := ⟨.structural, false, level⟩

/-- The units that can be read in a context, and the context behind them. -/
inductive Reads : Context → List Piece → Context → Prop where
  | newline {f : Context} {text : List Char} (h : text = ['\n'] ∨ text = ['\r', '\n']) :
    Reads f [.token .newline text] f
  /-- Space, whether it was skipped or cut off from a text. -/
  | space {f : Context} {text : List Char} (hb : Text.allBlank text) (hl : InLine text) :
    Reads f [.gap text] f
  | comment {m : Mode} {n : Nat} {text : List Char} (hl : InLine text) :
    Reads ⟨m, false, n⟩ [.token (.comment (String.ofList text)) text] ⟨m, false, n⟩
  | commentOpen {m : Mode} {n : Nat} :
    Reads ⟨m, false, n⟩ [.token .commentOpen ['/', '*']] ⟨m, true, n⟩
  | commentText {m : Mode} {n : Nat} {text : List Char} (hl : InLine text) :
    Reads ⟨m, true, n⟩ [.token (.commentText (String.ofList text)) text] ⟨m, true, n⟩
  | commentClose {m : Mode} {n : Nat} :
    Reads ⟨m, true, n⟩ [.token .commentClose ['*', '/']] ⟨m, false, n⟩
  /-- A change of level. -/
  | levels {n : Nat} {spacers : List Char} (hs : ∀ c ∈ spacers, isSpacer c)
      (hn : levelOf spacers ≠ n) :
    Reads (ground n)
      [.covered spacers (List.replicate (levelOf spacers - n) .indent ++
        List.replicate (n - levelOf spacers) .dedent)]
      (ground (levelOf spacers))
  | stray {n : Nat} {text : List Char} (hl : InLine text) :
    Reads (ground n) [.token (.error (String.ofList text)) text] (ground n)
  | tag {n : Nat} {kind : String → Kind} {name : List Char} (hk : kind = .tag ∨ kind = .choiceTag)
      (hl : InLine name) :
    Reads (ground n) [.token (kind (String.ofList name)) ('@' :: name)] (ground n)
  | tagValue {n : Nat} {kind : String → Kind} {name value : List Char}
      (hk : kind = .tag ∨ kind = .choiceTag) (hl : InLine name) (hv : InLine value) :
    Reads (ground n)
      [.token (kind (String.ofList name)) ('@' :: name),
        .token (.tagValue (String.ofList value)) value]
      (ground n)
  | call {n : Nat} {name : List Char} (hl : InLine name) :
    Reads (ground n) [.token (.call (String.ofList name)) (callMark ++ name)] (ground n)
  | callList {n : Nat} {name : List Char} {list : ArgumentList} (hl : InLine name)
      (ha : InLine list.text) :
    Reads (ground n)
      [.token (.call (String.ofList name)) (callMark ++ name), .arguments list] (ground n)
  | header {n : Nat} : Reads (ground n) [.token .header ['=', '=']] (ground n)
  | namedHeader {n : Nat} {spacers name : List Char} (hs : ∀ c ∈ spacers, isSpacer c)
      (hl : InLine name) :
    Reads (ground n)
      [.token .header ['=', '='], .gap spacers, .token (.identifier (String.ofList name)) name]
      (ground n)
  | goto {n : Nat} {c : Char} (hc : c = '-' ∨ c = '=') :
    Reads (ground n) [.token (.goto (String.ofList [c, '>'])) [c, '>']] (ground n)
  | gotoTarget {n : Nat} {c : Char} {spacers margin name : List Char} (hc : c = '-' ∨ c = '=')
      (hs : ∀ c ∈ spacers, isSpacer c) (hm : Text.allBlank margin) (hml : InLine margin)
      (hb : Text.allBlank name = false) (hl : InLine name) :
    Reads (ground n)
      [.token (.goto (String.ofList [c, '>'])) [c, '>'], .gap spacers, .gap margin,
        .token (.identifier (String.ofList name)) name]
      (ground n)
  | choice {n : Nat} : Reads (ground n) [.token .choice ['+']] (ground n)
  | choiceLine {n : Nat} {text : List Char} (hl : InLine text) :
    Reads (ground n)
      [.token .choice ['+'], .mark (.choiceBound true),
        .token (.choiceText (String.ofList text)) text, .mark (.choiceBound true)]
      (ground n)
  | openBound {n : Nat} :
    Reads (ground n) [.token (.choiceBound false) boundMark] ⟨.choiceText, false, n⟩
  | choiceText {n : Nat} {text : List Char} (hl : InLine text) :
    Reads ⟨.choiceText, false, n⟩ [.token (.choiceText (String.ofList text)) text]
      ⟨.choiceText, false, n⟩
  | closeBound {n : Nat} :
    Reads ⟨.choiceText, false, n⟩ [.token (.choiceBound false) boundMark] (ground n)
  | openReplica {n : Nat} :
    Reads (ground n) [.token .replicaBegin ['"', ' ']] ⟨.replica, false, n⟩
  | speech {n : Nat} {text : List Char} (hb : Text.allBlank text = false) (hl : InLine text) :
    Reads ⟨.replica, false, n⟩ [.token (.speech (String.ofList text)) text] ⟨.replica, false, n⟩
  /-- The end of a replica, which the end of the source can bring while a comment is open. -/
  | replicaEnd {inComment : Bool} {n : Nat} :
    Reads ⟨.replica, inComment, n⟩ [.mark .replicaEnd] ⟨.structural, inComment, n⟩

/-- Units one after the other. -/
inductive ReadsAll : Context → List Piece → Context → Prop where
  | nil (f : Context) : ReadsAll f [] f
  | cons {f g h : Context} {unit pieces : List Piece} (hu : Reads f unit g)
      (hp : ReadsAll g pieces h) : ReadsAll f (unit ++ pieces) h

theorem Reads.all {f g : Context} {unit : List Piece} (h : Reads f unit g) : ReadsAll f unit g := by
  simpa using ReadsAll.cons h (.nil g)

theorem ReadsAll.append {f g h : Context} {as bs : List Piece} (ha : ReadsAll f as g)
    (hb : ReadsAll g bs h) : ReadsAll f (as ++ bs) h := by
  induction ha with
  | nil => exact hb
  | cons hu _ ih =>
    rw [List.append_assoc]
    exact .cons hu (ih hb)

end Context

open Context

/-- The step reads units. -/
def Step.ReadsFrom (r : Step) (s : State) : Prop := ReadsAll s.context r.pieces r.state.context

namespace State

@[simp] theorem context_read (s : State) (pieces : List Piece) (rest : List Char) :
    (s.read pieces rest).state.context = s.context := rfl

@[simp] theorem pieces_read (s : State) (pieces : List Piece) (rest : List Char) :
    (s.read pieces rest).pieces = pieces := rfl

theorem readsAll_space (f : Context) {text : List Char} (hb : Text.allBlank text)
    (hl : InLine text) : ReadsAll f [.gap text] f := (Reads.space hb hl).all

/-! ## Comments -/

section
variable {s : State} (hc : s.inComment = false)
include hc

theorem context_of_not_inComment : s.context = ⟨s.mode, false, s.level⟩ := by
  rw [context, hc]

theorem readsFrom_openComment {b : Lookbehind} {cs : List Char} (h : b.atCommentOpen cs = true) :
    (s.openComment cs).ReadsFrom s := by
  obtain ⟨ds, rfl⟩ := Lookbehind.cons_of_atCommentOpen h
  rw [Step.ReadsFrom, context_of_not_inComment hc]
  exact Reads.commentOpen.all

theorem readsFrom_lineComment (cs : List Char) : (s.lineComment cs).ReadsFrom s := by
  have hl := inLine_readUntil (fun _ cs => atLineEnd cs) (fun _ _ => rfl) s.behind cs
  rw [Step.ReadsFrom, lineComment, context_read, context_of_not_inComment hc]
  exact (Reads.comment hl).all

end

theorem readsFrom_commentLine {s : State} (hc : s.inComment = true) (cs : List Char) :
    (s.commentLine cs).ReadsFrom s := by
  have hs : s.context = ⟨s.mode, true, s.level⟩ := by rw [context, hc]
  have hl := inLine_readUntil (fun b cs => atLineEnd cs || b.atCommentClose cs)
    (fun _ _ => rfl) s.behind cs
  unfold commentLine
  generalize readUntil (fun b cs => atLineEnd cs || b.atCommentClose cs) s.behind cs = r at hl ⊢
  have htext : ReadsAll s.context (if r.1.isEmpty then [] else
      [Piece.token (.commentText (String.ofList r.1)) r.1]) s.context := by
    split
    · exact .nil _
    · rw [hs]
      exact (Reads.commentText hl).all
  dsimp only
  split
  · next hclose =>
    obtain ⟨ds, hds⟩ := Lookbehind.cons_of_atCommentClose hclose
    rw [Step.ReadsFrom, hds]
    refine htext.append ?_
    rw [hs]
    exact Reads.commentClose.all
  · exact htext

/-! ## Structure -/

section
variable {s : State} (hs : s.context = ground s.level)
include hs

theorem readsFrom_tag {kind : String → Kind} (hk : kind = .tag ∨ kind = .choiceTag)
    (ds : List Char) : (s.tag kind ('@' :: ds)).ReadsFrom s := by
  have hname := inLine_readUntil (fun _ cs => endsName cs) (fun _ _ => rfl)
    (s.behind.past ['@']) ds
  unfold tag
  simp only [List.take_succ_cons, List.take_zero, List.drop_succ_cons, List.drop_zero]
  generalize readUntil (fun _ cs => endsName cs) (s.behind.past ['@']) ds = name at hname ⊢
  split
  · rw [Step.ReadsFrom, context_read, hs]
    exact (Reads.stray (by decide : InLine ['@'])).all
  · have hvalue := inLine_readUntil (fun b cs => atLineEnd cs || b.startsToken cs)
      (fun _ _ => rfl) (s.behind.past (['@'] ++ name.1)) name.2
    generalize readUntil (fun b cs => atLineEnd cs || b.startsToken cs)
      (s.behind.past (['@'] ++ name.1)) name.2 = value at hvalue ⊢
    rw [Step.ReadsFrom, context_read, hs]
    dsimp only [pieces_read]
    split
    · next hb => exact .cons (.tag hk hname) (readsAll_space _ hb hvalue)
    · refine .cons (.tagValue hk hname (hvalue.subset (Text.trimEnd_subset _))) ?_
      exact readsAll_space _ (Text.allBlank_trailing _) (hvalue.subset (Text.trailing_subset _))

theorem readsFrom_call (ds : List Char) : (s.call (callMark ++ ds)).ReadsFrom s := by
  have hname := inLine_readUntil (fun b cs => endsName cs || b.atParenthesis cs)
    (fun _ _ => rfl) (s.behind.past callMark) ds
  unfold call
  rw [List.take_left, List.drop_left]
  dsimp only
  split
  · rw [Step.ReadsFrom, context_read, hs]
    exact (Reads.callList hname (inLine_readArguments _ _ _ _)).all
  · rw [Step.ReadsFrom, context_read, hs]
    exact (Reads.call hname).all

theorem readsFrom_header (ds : List Char) : (s.header ('=' :: '=' :: ds)).ReadsFrom s := by
  have hsp := isSpacer_of_mem_takeWhile ds
  have hname := inLine_readUntil (fun b cs => endsName cs || b.atComment cs)
    (fun _ _ => rfl) (s.behind.past (['=', '='] ++ ds.takeWhile isSpacer)) (ds.dropWhile isSpacer)
  unfold header
  dsimp only [List.take, List.drop]
  generalize readUntil (fun b cs => endsName cs || b.atComment cs)
    (s.behind.past (['=', '='] ++ ds.takeWhile isSpacer)) (ds.dropWhile isSpacer) = name at hname ⊢
  rw [Step.ReadsFrom, context_read, hs]
  dsimp only [pieces_read]
  split
  · rw [List.append_nil]
    exact .cons .header (readsAll_space _ (allBlank_of_spacers hsp) (inLine_of_spacers hsp))
  · exact (Reads.namedHeader hsp hname).all

theorem readsFrom_goto {c : Char} (hc : c = '-' ∨ c = '=') (ds : List Char) :
    (s.goto (c :: '>' :: ds)).ReadsFrom s := by
  have hsp := isSpacer_of_mem_takeWhile ds
  have htarget := inLine_readUntil (fun b cs => atLineEnd cs || b.atComment cs)
    (fun _ _ => rfl) (s.behind.past ([c, '>'] ++ ds.takeWhile isSpacer)) (ds.dropWhile isSpacer)
  unfold goto
  dsimp only [List.take, List.drop]
  generalize readUntil (fun b cs => atLineEnd cs || b.atComment cs)
    (s.behind.past ([c, '>'] ++ ds.takeWhile isSpacer)) (ds.dropWhile isSpacer) = target at htarget ⊢
  rw [Step.ReadsFrom, context_read, hs]
  dsimp only [pieces_read]
  split
  · next hb =>
    have hspace := Reads.space (f := ground s.level) (allBlank_of_spacers hsp) (inLine_of_spacers hsp)
    exact (Reads.goto hc).all.append (hspace.all.append (readsAll_space _ hb htarget))
  · next hb =>
    have hunit := Reads.gotoTarget (n := s.level) hc hsp (Text.allBlank_leading target.1)
      (htarget.subset (Text.leading_subset _)) (Text.not_allBlank_trim (by simpa using hb))
      (htarget.subset (Text.trim_subset _))
    have hline : InLine (Text.trailing (Text.trimStart target.1)) :=
      htarget.subset (List.Subset.trans (Text.trailing_subset _) (Text.trimStart_subset _))
    exact hunit.all.append (readsAll_space _ (Text.allBlank_trailing _) hline)

theorem readsFrom_stray {c : Char} (hc : c ≠ '\n') (cs : List Char) :
    (s.stray c cs).ReadsFrom s := by
  have hread := inLine_readUntil (fun b cs => atLineEnd cs || b.startsToken cs)
    (fun _ _ => rfl) (s.behind.next c) cs
  rw [Step.ReadsFrom, stray, context_read, hs]
  have hline : InLine (c :: (readUntil (fun b cs => atLineEnd cs || b.startsToken cs)
      (s.behind.next c) cs).1) := hread.cons hc
  refine .cons (.space (Text.allBlank_leading _) (hline.subset (Text.leading_subset _))) ?_
  refine .cons (.stray (hline.subset (Text.trim_subset _))) ?_
  refine readsAll_space _ (Text.allBlank_trailing _) (hline.subset ?_)
  exact List.Subset.trans (Text.trailing_subset _) (Text.trimStart_subset _)

/-! ## Choices -/

theorem readsFrom_openBound {before : List Piece}
    (hb : ReadsAll (ground s.level) before (ground s.level)) (ds : List Char) :
    (s.openBound before (boundMark ++ ds)).ReadsFrom s := by
  have hc : s.inComment = false := congrArg Context.inComment hs
  have hg : State.context { s with mode := .choiceText } = ⟨.choiceText, false, s.level⟩ := by
    rw [context, hc]
  rw [Step.ReadsFrom, openBound, context_read, List.take_left, hs, hg]
  exact hb.append Reads.openBound.all

theorem readsFrom_choice (ds : List Char) : (s.choice ('+' :: ds)).ReadsFrom s := by
  have hsp := isSpacer_of_mem_takeWhile ds
  unfold choice
  dsimp only [List.take, List.drop]
  split
  · next hb =>
    obtain ⟨es, hes⟩ := List.isPrefixOf_iff_prefix.1 hb
    rw [← hes]
    refine readsFrom_openBound hs (.cons .choice (readsAll_space _ ?_ ?_)) es
    · exact allBlank_of_spacers hsp
    · exact inLine_of_spacers hsp
  · have hline := inLine_readText (fun b cs => b.atComment cs) none (s.behind.past ['+']) ds
    generalize readText (fun b cs => b.atComment cs) none (s.behind.past ['+']) ds = text at hline ⊢
    rw [Step.ReadsFrom, context_read, hs]
    dsimp only [pieces_read]
    split
    · next hb => exact .cons .choice (readsAll_space _ hb hline)
    · refine .cons (.choiceLine (hline.subset (Text.trimEnd_subset _))) ?_
      exact readsAll_space _ (Text.allBlank_trailing _) (hline.subset (Text.trailing_subset _))

theorem readsFrom_openReplica (ds : List Char) :
    (s.openReplica ('"' :: ' ' :: ds)).ReadsFrom s := by
  have hc : s.inComment = false := congrArg Context.inComment hs
  have hg : State.context { s with mode := .replica } = ⟨.replica, false, s.level⟩ := by
    rw [context, hc]
  rw [Step.ReadsFrom, openReplica, context_read, hs, hg]
  exact Reads.openReplica.all

end

theorem readsFrom_choiceText {s : State} (hs : s.context = ⟨.choiceText, false, s.level⟩)
    (cs : List Char) : (s.choiceText cs).ReadsFrom s := by
  have hc : s.inComment = false := congrArg Context.inComment hs
  unfold choiceText
  split
  · next hb =>
    obtain ⟨ds, rfl⟩ := Lookbehind.append_of_atBound hb
    have hg : State.context { s with mode := .structural } = ground s.level := by
      rw [context, hc]
      rfl
    rw [Step.ReadsFrom, context_read, List.take_left, hs, hg]
    exact Reads.closeBound.all
  · split
    · next ho => exact readsFrom_openComment hc ho
    · split
      · exact readsFrom_lineComment hc cs
      · rw [Step.ReadsFrom, context_read, hs]
        exact (Reads.choiceText (inLine_readText _ _ _ _)).all

/-! ## Replicas -/

/-- The end of the open replica, if there is one, leads out of it. -/
theorem readsAll_replicaEnd (s : State) :
    ReadsAll s.context s.replicaEnd s.leaveReplica.context := by
  unfold replicaEnd leaveReplica
  split
  · next hm =>
    have hs : s.context = ⟨.replica, s.inComment, s.level⟩ := by rw [context, hm]
    rw [hs]
    exact Reads.replicaEnd.all
  · exact .nil _

theorem readsFrom_replica {s : State} (hs : s.context = ⟨.replica, false, s.level⟩)
    (cs : List Char) : (s.replica cs).ReadsFrom s := by
  have hc : s.inComment = false := congrArg Context.inComment hs
  unfold replica
  split
  · exact readsAll_replicaEnd s
  · split
    · next ho => exact readsFrom_openComment hc ho
    · split
      · exact readsFrom_lineComment hc cs
      · have hline := inLine_readText (fun b cs => b.endsReplica cs || b.atComment cs) none s.behind cs
        rw [Step.ReadsFrom, context_read, hs]
        dsimp only [pieces_read]
        split
        · next hb => exact readsAll_space _ hb hline
        · next hb => exact (Reads.speech (by simpa using hb) hline).all

/-! ## Steps -/

theorem readsFrom_structural {s : State} (hs : s.context = ground s.level) {c : Char}
    {cs : List Char} (hl : atNewline (c :: cs) = false) : (s.structural c cs).ReadsFrom s := by
  have hc : s.inComment = false := congrArg Context.inComment hs
  have hnl : c ≠ '\n' := by
    rintro rfl
    cases hl
  apply structural_cases (motive := fun _ r => r.ReadsFrom s)
  case space =>
    intro h
    rw [Step.ReadsFrom, context_read]
    refine readsAll_space _ ?_ (by simpa [InLine] using hnl.symm)
    rcases h with h | rfl
    · simpa [Text.allBlank] using isBlank_of_isSpacer h
    · rfl
  case openComment => exact readsFrom_openComment hc
  case lineComment => exact readsFrom_lineComment hc _
  case call => exact readsFrom_call hs
  case choiceTag => exact readsFrom_tag hs (.inr rfl)
  case tag => exact readsFrom_tag hs (.inl rfl)
  case header => exact readsFrom_header hs
  case goto => exact fun d ds hd => readsFrom_goto hs hd ds
  case choice => exact readsFrom_choice hs
  case replica => exact readsFrom_openReplica hs
  case bound => exact readsFrom_openBound hs (.nil _)
  case stray => exact readsFrom_stray hs hnl cs

theorem readsFrom_scan (s : State) {c : Char} {cs : List Char} (hl : atNewline (c :: cs) = false) :
    (s.scan c cs).ReadsFrom s := by
  unfold scan
  split
  · next hc => exact readsFrom_commentLine hc (c :: cs)
  · next hc =>
    have hs : s.context = ⟨s.mode, false, s.level⟩ := context_of_not_inComment (by simpa using hc)
    split
    · next hm => exact readsFrom_structural (by rw [hs, hm]; rfl) hl
    · next hm => exact readsFrom_replica (by rw [hs, hm]) (c :: cs)
    · next hm => exact readsFrom_choiceText (by rw [hs, hm]) (c :: cs)

theorem readsFrom_newline (s : State) {cs : List Char} (h : atNewline cs = true) :
    (s.newline cs).ReadsFrom s := by
  rcases newline_of_atNewline h with ⟨ds, rfl⟩ | ⟨ds, rfl⟩
  · exact (Reads.newline (.inl rfl)).all
  · exact (Reads.newline (.inr rfl)).all

/-- The indentation of a line is space, or the end of a replica and a change of level. -/
theorem readsAll_indentation {s : State} (hm : s.mode ≠ .choiceText) (hc : s.inComment = false)
    {spacers : List Char} (hsp : ∀ c ∈ spacers, isSpacer c) (rest : List Char) :
    ReadsAll s.context (s.indentation spacers rest).1 (s.indentation spacers rest).2.context := by
  unfold indentation
  dsimp only
  split
  · exact readsAll_space _ (allBlank_of_spacers hsp) (inLine_of_spacers hsp)
  · next hl =>
    have hlevel : levelOf spacers ≠ s.level := by
      intro h
      simp [h] at hl
    -- levels are changed from the ground only, and a replica that was open ends first
    have hleave : s.leaveReplica.context = ground s.level := by
      unfold leaveReplica
      split
      · rw [context, hc]
        rfl
      · next hr =>
        have : s.mode = .structural := by
          cases h : s.mode
          · rfl
          · exact absurd h hr
          · exact absurd h hm
        rw [context, this, hc]
        rfl
    have hend := readsAll_replicaEnd s
    have hafter : State.context { s.leaveReplica with level := levelOf spacers } =
        ground (levelOf spacers) := by
      rw [context, ground]
      rw [context, ground, Context.mk.injEq] at hleave
      rw [hleave.1, hleave.2.1]
    rw [hleave] at hend
    rw [hafter]
    exact hend.append (Reads.levels hsp hlevel).all

theorem readsFrom_step (s : State) (c : Char) (cs : List Char) : (s.step c cs).ReadsFrom s := by
  unfold step
  split
  · next h => exact readsFrom_newline s h
  · next hn =>
    dsimp only
    split
    · next hmeasure =>
      have hsp := isSpacer_of_mem_takeWhile (c :: cs)
      have hspace := readsAll_space s.context (allBlank_of_spacers hsp) (inLine_of_spacers hsp)
      -- a line with nothing behind its spacers has no level
      split
      · exact hspace
      · next d ds hd =>
        split
        · exact hspace
        · next hdn =>
          simp only [measures, Bool.and_eq_true, Bool.not_eq_true', bne_iff_ne] at hmeasure
          have hind := readsAll_indentation (s := { s with freshLine := false }) hmeasure.2
            hmeasure.1.2 hsp (d :: ds)
          have hscan := readsFrom_scan (({ s with freshLine := false }.indentation
            ((c :: cs).takeWhile isSpacer) (d :: ds)).2.past ({ s with freshLine := false }.indentation
            ((c :: cs).takeWhile isSpacer) (d :: ds)).1) (by simpa using hdn : atNewline (d :: ds) = false)
          exact hind.append hscan
    · exact readsFrom_scan { s with freshLine := false } (by simpa using hn)

end State

/-! ## Runs -/

/-- The marks that end every source: a dedent for each level that is still entered, and the end. -/
def closing (level : Nat) : List Piece := List.replicate level (.mark .dedent) ++ [.mark .eof]

/-- A run reads units up to the end of the source, where no replica is open any more. -/
theorem readsAll_run (s : State) (cs : List Char) :
    ∃ body f, run s cs = body ++ closing f.level ∧ ReadsAll s.context body f ∧
      f.mode ≠ .replica := by
  fun_induction run s cs with
  | case1 s =>
    refine ⟨s.replicaEnd, s.leaveReplica.context, ?_, s.readsAll_replicaEnd, ?_⟩
    · rw [State.finish, List.append_assoc]
      unfold State.leaveReplica
      split <;> rfl
    · unfold State.leaveReplica
      split
      · intro h
        cases h
      · next hm => exact hm
  | case2 s c cs ih =>
    obtain ⟨body, f, hrun, hbody, hf⟩ := ih
    refine ⟨(s.step c cs).pieces ++ body, f, ?_, ?_, hf⟩
    · rw [hrun, List.append_assoc]
    · exact (s.readsFrom_step c cs).append hbody

end Lexer

end StoryScript

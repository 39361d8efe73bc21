import StoryScript.Proofs.Bytewise.Cursor
import StoryScript.Proofs.Token.Lines
import StoryScript.Proofs.Token.Texts
/-!
# The scanners by bytes

Each scanner again, with a cursor that looks its text up and emits tokens on its way. At a place of
the source a scanner by bytes emits the pieces that the scanner by characters reads and leaves the
cursor behind them, so a step by bytes is a step (`Reached.step_eq`).
-/

namespace StoryScript.Bytewise

open Indexed (Guarded sliceText)
open Lexer (Mode State Step levelOf)
open Lexer.State (endsName)
open Token (Kind)

/-- Where spaces and tabs are over. -/
def pastSpacers (_ : Lookbehind) (cs : List Char) : Bool := !(cs.head?.map isSpacer).getD false

/-- Where a character stands that is skipped between statements. -/
def atSkipped (_ : Lookbehind) (cs : List Char) : Bool :=
  (cs.head?.map fun c => isSpacer c || c == '\r').getD false

/-! ## Scanners -/

section

variable (text : List Char)

@[inherit_doc State.openComment]
def openComment (l : Cursor) : Guarded Cursor := do
  let mark ← advanceBy text 2 l.position
  let opened := (l.moveTo mark.2).pushFrom l.position .commentOpen
  return { opened with inComment := true }

@[inherit_doc State.commentLine]
def commentLine (l : Cursor) : Guarded Cursor := do
  let inside ← readTo text (fun b cs => atLineEnd cs || b.atCommentClose cs) l.position
  let behind := l.moveTo inside.2
  let shown := if inside.1.isEmpty then behind else
    behind.pushFrom l.position (.commentText (String.ofList inside.1))
  if ← sees text Lookbehind.atCommentClose inside.2 then
    let mark ← advanceBy text 2 inside.2
    let closed := (shown.moveTo mark.2).pushFrom inside.2 .commentClose
    return { closed with inComment := false }
  else return shown

@[inherit_doc State.lineComment]
def lineComment (l : Cursor) : Guarded Cursor := do
  let comment ← readTo text (fun _ cs => atLineEnd cs) l.position
  return (l.moveTo comment.2).pushFrom l.position (.comment (String.ofList comment.1))

@[inherit_doc State.tag]
def tag (kind : String → Kind) (l : Cursor) : Guarded Cursor := do
  let sign ← advance text l.position
  let name ← readTo text (fun _ cs => endsName cs) sign.2
  let behind := l.moveTo name.2
  if name.1.isEmpty then return behind.pushFrom l.position (.error "@")
  else
    let named := behind.pushFrom l.position (kind (String.ofList name.1))
    let value ← readTo text (fun b cs => atLineEnd cs || b.startsToken cs) name.2
    let valued := named.moveTo value.2
    if Text.allBlank value.1 then return valued
    else
      let shown := Text.trimEnd value.1
      return valued.push ⟨.tagValue (String.ofList shown), .ofText name.2 shown⟩

@[inherit_doc State.call]
def call (l : Cursor) : Guarded Cursor := do
  let mark ← advanceBy text callMark.length l.position
  let name ← readTo text (fun b cs => endsName cs || b.atParenthesis cs) mark.2
  let named := (l.moveTo name.2).pushFrom l.position (.call (String.ofList name.1))
  if ← sees text Lookbehind.atParenthesis name.2 then arguments text named else return named

@[inherit_doc State.header]
def header (l : Cursor) : Guarded Cursor := do
  let mark ← advanceBy text 2 l.position
  let signed := (l.moveTo mark.2).pushFrom l.position .header
  let spacers ← readTo text pastSpacers mark.2
  let name ← readTo text (fun b cs => endsName cs || b.atComment cs) spacers.2
  let behind := signed.moveTo name.2
  if name.1.isEmpty then return behind
  else return behind.pushFrom spacers.2 (.identifier (String.ofList name.1))

/-- `-> target` or `=> target`. The arrow is cut out as two bytes. -/
def goto (l : Cursor) : Guarded Cursor := do
  let arrow ← sliceText text l.position.offset (l.position.offset + 2)
  let mark ← advanceBy text 2 l.position
  let signed := (l.moveTo mark.2).pushFrom l.position (.goto (String.ofList arrow))
  let spacers ← readTo text pastSpacers mark.2
  let target ← readTo text (fun b cs => atLineEnd cs || b.atComment cs) spacers.2
  let behind := signed.moveTo target.2
  if Text.allBlank target.1 then return behind
  else behind.pushTrimmed .identifier target.1 spacers.2

@[inherit_doc State.stray]
def stray (l : Cursor) : Guarded Cursor := do
  let first ← advance text l.position
  let more ← readTo text (fun b cs => atLineEnd cs || b.startsToken cs) first.2
  (l.moveTo more.2).pushTrimmed .error (first.1 :: more.1) l.position

@[inherit_doc State.openBound]
def openBound (l : Cursor) : Guarded Cursor := do
  let mark ← advanceBy text boundMark.length l.position
  let opened := (l.moveTo mark.2).pushFrom l.position (.choiceBound false)
  return { opened with mode := .choiceText }

@[inherit_doc State.choice]
def choice (l : Cursor) : Guarded Cursor := do
  let sign ← advance text l.position
  let signed := (l.moveTo sign.2).pushFrom l.position .choice
  let rest ← restAt text sign.2
  if boundMark.isPrefixOf (rest.dropWhile isSpacer) then
    let spacers ← readTo text pastSpacers sign.2
    openBound text (signed.moveTo spacers.2)
  else
    let said ← readText text (fun b cs => b.atComment cs) sign.2
    let behind := signed.moveTo said.2
    if Text.allBlank said.1 then return behind
    else
      let shown := Text.trimEnd said.1
      let stop := sign.2.advance shown
      return behind.append [⟨.choiceBound true, .point sign.2⟩,
        ⟨.choiceText (String.ofList shown), ⟨sign.2, stop⟩⟩, ⟨.choiceBound true, .point stop⟩]

@[inherit_doc State.choiceText]
def choiceText (l : Cursor) : Guarded Cursor := do
  if ← sees text Lookbehind.atBound l.position then
    let mark ← advanceBy text boundMark.length l.position
    let closed : Cursor := { l.moveTo mark.2 with mode := .structural }
    return closed.pushFrom l.position (.choiceBound false)
  else if ← sees text Lookbehind.atCommentOpen l.position then openComment text l
  else if ← sees text Lookbehind.atLineComment l.position then lineComment text l
  else
    let said ← readText text (fun b cs => b.atBound cs || b.atComment cs) l.position
    let behind := l.moveTo said.2
    if said.1.isEmpty then return behind
    else return behind.pushFrom l.position (.choiceText (String.ofList said.1))

@[inherit_doc State.openReplica]
def openReplica (l : Cursor) : Guarded Cursor := do
  let mark ← advanceBy text 2 l.position
  let opened := (l.moveTo mark.2).pushFrom l.position .replicaBegin
  return { opened with
    mode := .replica
    emission := { opened.emission with lastEnd := mark.2 } }

@[inherit_doc State.replica]
def replica (l : Cursor) : Guarded Cursor := do
  if ← sees text Lookbehind.endsReplica l.position then return l.closeReplica
  else if ← sees text Lookbehind.atCommentOpen l.position then openComment text l
  else if ← sees text Lookbehind.atLineComment l.position then lineComment text l
  else
    let said ← readText text (fun b cs => b.endsReplica cs || b.atComment cs) l.position
    let behind := l.moveTo said.2
    if Text.allBlank said.1 then return behind
    else return behind.pushFrom l.position (.speech (String.ofList said.1))

@[inherit_doc State.structural]
def structural (l : Cursor) : Guarded Cursor := do
  if ← sees text atSkipped l.position then
    let skipped ← advance text l.position
    return l.moveTo skipped.2
  else if ← sees text Lookbehind.atCommentOpen l.position then openComment text l
  else if ← sees text Lookbehind.atLineComment l.position then lineComment text l
  else if ← sees text Lookbehind.atCall l.position then call text l
  else if ← sees text Lookbehind.atChoiceTag l.position then tag text .choiceTag l
  else if ← sees text Lookbehind.atTag l.position then tag text .tag l
  else if ← sees text Lookbehind.atHeader l.position then header text l
  else if ← sees text Lookbehind.atGoto l.position then goto text l
  else if ← sees text Lookbehind.atChoice l.position then choice text l
  else if ← sees text Lookbehind.atReplica l.position then openReplica text l
  else if ← sees text Lookbehind.atBound l.position then openBound text l
  else stray text l

@[inherit_doc State.scan]
def scan (l : Cursor) : Guarded Cursor :=
  if l.inComment then commentLine text l
  else
    match l.mode with
    | .structural => structural text l
    | .replica => replica text l
    | .choiceText => choiceText text l

/-- The indentation of a line. A blank line and a line with only a comment keep the level. -/
def indentation (l : Cursor) : Guarded Cursor := do
  let spacers ← readTo text pastSpacers l.position
  let behind := l.moveTo spacers.2
  if ← sees text (fun b cs => atLineEnd cs || b.atLineComment cs) spacers.2 then return behind
  else
    let level := levelOf spacers.1
    if level = l.level then return behind
    else
      let kinds := List.replicate (level - l.level) Kind.indent ++
        List.replicate (l.level - level) .dedent
      let leveled := behind.closeReplica.append (kinds.map (⟨·, ⟨l.position, spacers.2⟩⟩))
      return { leveled with level := level }

/-- The indentation of a line, and what stands behind it unless the line is over. -/
def lineStart (l : Cursor) : Guarded Cursor := do
  let lead ← indentation text l
  if ← sees text (fun _ cs => atLineEnd cs) lead.position then return lead else scan text lead

@[inherit_doc State.newline]
def newline (l : Cursor) : Guarded Cursor := do
  let n := if (← peek text l.position) = some '\r' then 2 else 1
  let mark ← advanceBy text n l.position
  let ended := (l.moveTo mark.2).pushFrom l.position .newline
  return { ended with freshLine := true }

/-- Read what stands at a position before the end of the source. -/
def step (l : Cursor) : Guarded Cursor := do
  if ← sees text (fun _ cs => atNewline cs) l.position then newline text l
  else
    let l' := { l with freshLine := false }
    if l.freshLine && !l.inComment && l.mode != .choiceText then lineStart text l'
    else scan text l'

end

/-! ## Scanners by bytes and by characters -/

/-- The cursor for a state, behind what has been emitted. -/
abbrev cursor (s : State) (o : Output) : Cursor :=
  ⟨s.mode, s.inComment, s.freshLine, s.level, o.position, o.emission⟩

/-- The cursor behind a step. -/
def after (r : Step) (o : Output) : Cursor := cursor r.state (o.passAll r.pieces)

theorem after_read (s : State) (pieces : List Piece) (rest : List Char) (o : Output) :
    after (s.read pieces rest) o = cursor s (o.passAll pieces) := rfl

theorem passAll_trimmed {kind : String → Kind} (hk : kind = .identifier ∨ kind = .error)
    (o : Output) (raw : List Char) :
    o.passAll (Piece.trimmed kind raw) =
      ⟨o.inReplica, o.position.advance raw, o.emission.push o.inReplica
        ⟨kind (String.ofList (Text.trim raw)),
          .ofText (o.position.advance (Text.leading raw)) (Text.trim raw)⟩⟩ := by
  have hposition := o.position_passAll (Piece.trimmed kind raw)
  rw [Piece.texts_trimmed] at hposition
  rw [← hposition]
  rcases hk with rfl | rfl <;> rfl

theorem passAll_trimmedEnd (o : Output) (raw : List Char) :
    o.passAll (Piece.trimmedEnd .tagValue raw) =
      ⟨o.inReplica, o.position.advance raw, o.emission.push o.inReplica
        ⟨.tagValue (String.ofList (Text.trimEnd raw)),
          .ofText o.position (Text.trimEnd raw)⟩⟩ := by
  have hposition := o.position_passAll (Piece.trimmedEnd .tagValue raw)
  rw [Piece.texts_trimmedEnd] at hposition
  rw [← hposition]
  rfl

theorem readUntil_pastSpacers (b : Lookbehind) (cs : List Char) :
    readUntil pastSpacers b cs = (cs.takeWhile isSpacer, cs.dropWhile isSpacer) := by
  induction cs generalizing b with
  | nil => rfl
  | cons c cs ih =>
    rw [readUntil, List.takeWhile_cons, List.dropWhile_cons, ih]
    cases hc : isSpacer c <;> simp [pastSpacers, hc]

theorem Stands.spacers {text cs : List Char} {p : Position} {b : Lookbehind}
    (h : Stands text p b cs) :
    readTo text pastSpacers p =
      pure (cs.takeWhile isSpacer, p.advance (cs.takeWhile isSpacer)) ∧
    Stands text (p.advance (cs.takeWhile isSpacer)) (b.past (cs.takeWhile isSpacer))
      (cs.dropWhile isSpacer) := by
  have hread := h.readTo_eq pastSpacers
  have hbehind := h.behind pastSpacers
  rw [readUntil_pastSpacers] at hread hbehind
  exact ⟨hread, hbehind⟩

/-- A state is reached at a place of a text, with an output of its context. -/
structure Reached (text : List Char) (s : State) (o : Output) (cs : List Char) : Prop where
  stands : Stands text o.position s.behind cs
  output : o.In s.context

namespace Reached

variable {text cs : List Char} {o : Output} {s : State}

theorem inReplica (h : Reached text s o cs) : o.inReplica = decide (s.mode = .replica) :=
  h.output.inReplica

theorem output_eq (h : Reached text s o cs) :
    ∃ p e, o = ⟨decide (s.mode = .replica), p, e⟩ := by
  obtain ⟨inReplica, p, e⟩ := o
  obtain rfl : inReplica = decide (s.mode = .replica) := h.inReplica
  exact ⟨p, e, rfl⟩

theorem openComment_eq (h : Reached text s o cs) (hm : s.behind.atCommentOpen cs = true) :
    openComment text (cursor s o) = pure (after (s.openComment cs) o) := by
  obtain ⟨ds, rfl⟩ := Lookbehind.cons_of_atCommentOpen hm
  obtain ⟨p, e, rfl⟩ := h.output_eq
  rw [openComment, cursor, h.stands.advanceBy_take (n := 2) (by simp)]
  rfl

theorem commentLine_eq (h : Reached text s o cs) :
    commentLine text (cursor s o) = pure (after (s.commentLine cs) o) := by
  have hread := h.stands.readTo_eq fun b cs => atLineEnd cs || b.atCommentClose cs
  have hbehind := h.stands.behind fun b cs => atLineEnd cs || b.atCommentClose cs
  obtain ⟨p, e, rfl⟩ := h.output_eq
  rw [commentLine, State.commentLine]
  dsimp only [cursor] at *
  generalize readUntil _ s.behind cs = r at hread hbehind ⊢
  rw [hread, pure_bind, hbehind.sees_eq, pure_bind]
  split
  · next hm =>
    obtain ⟨ds, hds⟩ := Lookbehind.cons_of_atCommentClose hm
    rw [hbehind.advanceBy_take (n := 2) (by simp [hds]), pure_bind]
    split
    · next hempty =>
      rw [List.isEmpty_iff.1 hempty]
      rfl
    · rfl
  · split
    · next hempty =>
      rw [List.isEmpty_iff.1 hempty]
      rfl
    · rfl

theorem lineComment_eq (h : Reached text s o cs) :
    lineComment text (cursor s o) = pure (after (s.lineComment cs) o) := by
  have hread := h.stands.readTo_eq fun _ cs => atLineEnd cs
  obtain ⟨p, e, rfl⟩ := h.output_eq
  rw [lineComment, cursor, hread]
  rfl

theorem tag_eq {c : Char} (h : Reached text s o (c :: cs)) {kind : String → Kind}
    (hk : kind = .tag ∨ kind = .choiceTag) :
    tag text kind (cursor s o) = pure (after (s.tag kind (c :: cs)) o) := by
  have hname := h.stands.next.readTo_eq fun _ cs => endsName cs
  have hbehind := h.stands.next.behind fun _ cs => endsName cs
  obtain ⟨p, e, rfl⟩ := h.output_eq
  rw [tag, State.tag]
  dsimp only [cursor] at *
  rw [show (c :: cs).take 1 = [c] from rfl, show (c :: cs).drop 1 = cs from rfl,
    Lookbehind.past_cons, Lookbehind.past_nil]
  generalize readUntil _ (s.behind.next c) cs = name at hname hbehind ⊢
  rw [h.stands.advance_eq, pure_bind, hname, pure_bind]
  split
  · next hempty =>
    have hnone : name.1 = [] := List.isEmpty_iff.1 hempty
    rw [hnone]
    rfl
  · have hvalue := hbehind.readTo_eq fun b cs => atLineEnd cs || b.startsToken cs
    rw [List.singleton_append, Lookbehind.past_cons]
    generalize readUntil _ ((s.behind.next c).past name.1) name.2 = value at hvalue ⊢
    rw [hvalue, pure_bind, after_read, Output.passAll_cons]
    split
    · rcases hk with rfl | rfl <;> rfl
    · rw [passAll_trimmedEnd]
      rcases hk with rfl | rfl <;> rfl

theorem call_eq (h : Reached text s o cs) (hm : s.behind.atCall cs = true) :
    call text (cursor s o) = pure (after (s.call cs) o) := by
  obtain ⟨ds, rfl⟩ := Lookbehind.append_of_atCall hm
  have hname := h.stands.move.readTo_eq fun b cs => endsName cs || b.atParenthesis cs
  have hbehind := h.stands.move.behind fun b cs => endsName cs || b.atParenthesis cs
  obtain ⟨p, e, rfl⟩ := h.output_eq
  rw [call, State.call]
  dsimp only [cursor] at *
  rw [List.take_left, List.drop_left]
  generalize readUntil _ (s.behind.past callMark) ds = name at hname hbehind ⊢
  rw [h.stands.advanceBy_eq, pure_bind, hname, pure_bind, hbehind.sees_eq, pure_bind,
    Lookbehind.past_append]
  split
  · next hparenthesis =>
    obtain ⟨es, hes⟩ := Lookbehind.cons_of_atParenthesis hparenthesis
    rw [hes] at hbehind ⊢
    rw [hbehind.arguments_eq (by rfl), after_read, Output.passAll_cons, ← Position.advance_append]
    rfl
  · rw [after_read, ← Position.advance_append]
    rfl

theorem header_eq (h : Reached text s o cs) (hm : s.behind.atHeader cs = true) :
    header text (cursor s o) = pure (after (s.header cs) o) := by
  obtain ⟨ds, hds⟩ := Lookbehind.cons_of_atHeader hm
  have hmark := h.stands.advanceBy_take (n := 2) (by simp [hds])
  obtain ⟨hspacers, hbehind⟩ := (h.stands.drop 2).spacers
  have hname := hbehind.readTo_eq fun b cs => endsName cs || b.atComment cs
  obtain ⟨p, e, rfl⟩ := h.output_eq
  rw [header, State.header]
  dsimp only [cursor] at *
  rw [Lookbehind.past_append]
  generalize readUntil _ _ ((cs.drop 2).dropWhile isSpacer) = name at hname ⊢
  rw [hmark, pure_bind, hspacers, pure_bind, hname, pure_bind]
  split
  · next hempty =>
    rw [List.isEmpty_iff.1 hempty]
    rfl
  · rfl

theorem goto_eq (h : Reached text s o cs) (hm : s.behind.atGoto cs = true) :
    goto text (cursor s o) = pure (after (s.goto cs) o) := by
  obtain ⟨c, ds, hc, rfl⟩ := Lookbehind.cons_of_atGoto hm
  -- both characters of an arrow are one byte long
  have harrow : sliceText text o.position.offset (o.position.offset + 2) = pure [c, '>'] := by
    have hslice : sliceText text o.position.offset (o.position.advance [c, '>']).offset =
      pure [c, '>'] := h.stands.slice_eq
    rw [Position.offset_advance] at hslice
    rcases hc with rfl | rfl <;> exact hslice
  have hmark := h.stands.advanceBy_take (n := 2) (by simp)
  obtain ⟨hspacers, hbehind⟩ := (h.stands.drop 2).spacers
  have htarget := hbehind.readTo_eq fun b cs => atLineEnd cs || b.atComment cs
  obtain ⟨p, e, rfl⟩ := h.output_eq
  rw [goto, State.goto]
  dsimp only [cursor] at *
  rw [Lookbehind.past_append]
  generalize readUntil _ _ (((c :: '>' :: ds).drop 2).dropWhile isSpacer) = target at htarget ⊢
  rw [harrow, pure_bind, hmark, pure_bind, hspacers, pure_bind, htarget, pure_bind, after_read,
    Output.passAll_append]
  split
  · rfl
  · rw [pushTrimmed_eq, passAll_trimmed (.inl rfl)]
    rfl

theorem stray_eq {c : Char} (h : Reached text s o (c :: cs)) :
    stray text (cursor s o) = pure (after (s.stray c cs) o) := by
  have hmore := h.stands.next.readTo_eq fun b cs => atLineEnd cs || b.startsToken cs
  obtain ⟨p, e, rfl⟩ := h.output_eq
  rw [stray, State.stray]
  dsimp only [cursor] at *
  generalize readUntil _ (s.behind.next c) cs = more at hmore ⊢
  rw [h.stands.advance_eq, pure_bind, hmore, pure_bind, pushTrimmed_eq, after_read,
    passAll_trimmed (.inr rfl)]
  rfl

theorem openBound_eq {b : Lookbehind} {es : List Char}
    (h : Stands text o.position b (boundMark ++ es))
    (ho : o.inReplica = decide (s.mode = .replica)) :
    openBound text (cursor s o) = pure (cursor { s with mode := .choiceText }
      (o.pass (.token (.choiceBound false) boundMark))) := by
  obtain ⟨inReplica, p, e⟩ := o
  obtain rfl : inReplica = decide (s.mode = .replica) := ho
  rw [openBound]
  dsimp only [cursor]
  rw [h.advanceBy_eq]
  rfl

/-- The text of a choice is emitted between its bounds, and nothing of it waits. -/
theorem passAll_choice {p : Position} {e : Emission} (text : List Char) :
    (⟨false, p, e⟩ : Output).passAll
      [.token .choice ['+'], .mark (.choiceBound true),
        .token (.choiceText (String.ofList (Text.trimEnd text))) (Text.trimEnd text),
        .mark (.choiceBound true), .gap (Text.trailing text)] =
      ⟨false, (p.next '+').advance text, (e.push false ⟨.choice, .ofText p ['+']⟩).append
        [⟨.choiceBound true, .point (p.next '+')⟩,
          ⟨.choiceText (String.ofList (Text.trimEnd text)),
            .ofText (p.next '+') (Text.trimEnd text)⟩,
          ⟨.choiceBound true, .point ((p.next '+').advance (Text.trimEnd text))⟩]⟩ := by
  have htext := Text.trimEnd_append_trailing text
  have hgap (q : Position) : Piece.place q [.gap (Text.trailing text)] = [] := rfl
  rw [Output.passAll_free (by simp [Kind.isOfReplica])]
  simp [Emission.append, Emission.push, htext, hgap]

theorem choice_eq (h : Reached text s o cs) (hr : s.mode ≠ .replica)
    (hm : s.behind.atChoice cs = true) :
    choice text (cursor s o) = pure (after (s.choice cs) o) := by
  obtain ⟨ds, rfl⟩ := Lookbehind.cons_of_atChoice hm
  obtain ⟨p, e, rfl⟩ := h.output_eq
  rw [choice, State.choice]
  dsimp only [cursor]
  rw [show ('+' :: ds).take 1 = ['+'] from rfl, show ('+' :: ds).drop 1 = ds from rfl,
    h.stands.advance_eq, pure_bind, h.stands.next.restAt_eq, pure_bind]
  split
  · next hbound =>
    obtain ⟨es, hes⟩ := List.isPrefixOf_iff_prefix.1 hbound
    obtain ⟨hspacers, hbehind⟩ := h.stands.next.spacers
    rw [hspacers, pure_bind, ← hes]
    rw [← hes] at hbehind
    exact openBound_eq (s := s) (o := ((⟨decide (s.mode = .replica), p, e⟩ : Output).pass
      (.token .choice ['+'])).pass (.gap (ds.takeWhile isSpacer))) hbehind rfl
  · have hsaid := h.stands.next.readText_eq fun b cs => b.atComment cs
    rw [Lookbehind.past_cons, Lookbehind.past_nil]
    generalize StoryScript.readText _ none (s.behind.next '+') ds = said at hsaid ⊢
    rw [hsaid, pure_bind, after_read]
    split
    · rfl
    · rw [decide_eq_false hr, passAll_choice, ← decide_eq_false hr]
      rfl

/-- A place decides which of two scanners reads on, by bytes as by characters. -/
theorem sees_ite {test : Lookbehind → List Char → Bool} {x y : Guarded Cursor} {r t : Step}
    (h : Reached text s o cs) (hx : test s.behind cs = true → x = pure (after r o))
    (hy : test s.behind cs = false → y = pure (after t o)) :
    (do if ← sees text test o.position then x else y) =
      pure (after (if test s.behind cs then r else t) o) := by
  rw [h.stands.sees_eq, pure_bind]
  split
  · next hp => exact hx hp
  · next hp => exact hy (by simpa using hp)

theorem choiceText_eq {c : Char} (h : Reached text s o (c :: cs)) (hs : s.mode = .choiceText)
    (hl : atLineEnd (c :: cs) = false) :
    choiceText text (cursor s o) = pure (after (s.choiceText (c :: cs)) o) := by
  refine h.sees_ite (fun hm => ?_) fun hb => ?_
  · obtain ⟨ds, hds⟩ := Lookbehind.append_of_atBound hm
    have hstands := h.stands
    obtain ⟨inReplica, p, e⟩ := o
    obtain rfl : inReplica = false := h.inReplica.trans (by rw [hs]; rfl)
    rw [hds] at hstands ⊢
    dsimp only [cursor]
    rw [hstands.advanceBy_eq]
    rfl
  refine h.sees_ite h.openComment_eq fun ho => ?_
  refine h.sees_ite (fun _ => h.lineComment_eq) fun hc => ?_
  have hsaid := h.stands.readText_eq fun b cs => b.atBound cs || b.atComment cs
  have hne : (StoryScript.readText (fun b cs => b.atBound cs || b.atComment cs) none s.behind
      (c :: cs)).1 ≠ [] :=
    ne_nil_of_length_lt (readText_append _ none s.behind (c :: cs))
      (length_readText_lt hl (by simp_all [Lookbehind.atComment]))
  obtain ⟨p, e, rfl⟩ := h.output_eq
  dsimp only [cursor] at *
  generalize StoryScript.readText _ none s.behind (c :: cs) = said at hsaid hne ⊢
  rw [hsaid, pure_bind, if_neg (by simpa using hne)]
  rfl

theorem openReplica_eq (h : Reached text s o cs) (hm : s.behind.atReplica cs = true) :
    openReplica text (cursor s o) = pure (after (s.openReplica cs) o) := by
  obtain ⟨ds, rfl⟩ := Lookbehind.cons_of_atReplica hm
  obtain ⟨p, e, rfl⟩ := h.output_eq
  rw [openReplica, State.openReplica]
  dsimp only [cursor]
  rw [h.stands.advanceBy_take (n := 2) (by simp)]
  rfl

/-- Closing the open replica is emitting its end. -/
theorem closeReplica_cursor (s : State) (o : Output) :
    (cursor s o).closeReplica = cursor s.leaveReplica (o.passAll s.replicaEnd) := by
  unfold Cursor.closeReplica State.leaveReplica State.replicaEnd cursor
  dsimp only
  split <;> rfl

theorem closeReplica_moveTo (l : Cursor) (p : Position) :
    (l.moveTo p).closeReplica = l.closeReplica.moveTo p := by
  unfold Cursor.closeReplica Cursor.moveTo
  dsimp only
  split <;> rfl

theorem replica_eq (h : Reached text s o cs) :
    replica text (cursor s o) = pure (after (s.replica cs) o) := by
  refine h.sees_ite (fun _ => ?_) fun _ => ?_
  · rw [closeReplica_cursor]
    rfl
  refine h.sees_ite h.openComment_eq fun _ => ?_
  refine h.sees_ite (fun _ => h.lineComment_eq) fun _ => ?_
  have hsaid := h.stands.readText_eq fun b cs => b.endsReplica cs || b.atComment cs
  obtain ⟨p, e, rfl⟩ := h.output_eq
  dsimp only [cursor] at *
  generalize StoryScript.readText _ none s.behind cs = said at hsaid ⊢
  rw [hsaid, pure_bind]
  split <;> rfl

theorem structural_eq {c : Char} (h : Reached text s o (c :: cs)) (hs : s.mode = .structural) :
    structural text (cursor s o) = pure (after (s.structural c cs) o) := by
  have hr : s.mode ≠ .replica := by rw [hs]; nofun
  refine h.sees_ite (fun _ : atSkipped s.behind (c :: cs) = true => ?_) fun _ => ?_
  · dsimp only [cursor]
    rw [h.stands.advance_eq, pure_bind]
    rfl
  refine h.sees_ite h.openComment_eq fun _ => ?_
  refine h.sees_ite (fun _ => h.lineComment_eq) fun _ => ?_
  refine h.sees_ite h.call_eq fun _ => ?_
  refine h.sees_ite (fun _ => h.tag_eq (.inr rfl)) fun _ => ?_
  refine h.sees_ite (fun _ => h.tag_eq (.inl rfl)) fun _ => ?_
  refine h.sees_ite h.header_eq fun _ => ?_
  refine h.sees_ite h.goto_eq fun _ => ?_
  refine h.sees_ite (h.choice_eq hr) fun _ => ?_
  refine h.sees_ite h.openReplica_eq fun _ => ?_
  refine h.sees_ite (fun hm => ?_) fun _ => h.stray_eq
  obtain ⟨ds, hds⟩ := Lookbehind.append_of_atBound hm
  have hstands := h.stands
  rw [hds] at hstands ⊢
  exact openBound_eq hstands h.inReplica

theorem scan_eq {c : Char} (h : Reached text s o (c :: cs)) (hl : atLineEnd (c :: cs) = false) :
    scan text (cursor s o) = pure (after (s.scan c cs) o) := by
  rw [scan, State.scan, show (cursor s o).inComment = s.inComment from rfl,
    show (cursor s o).mode = s.mode from rfl]
  split
  · exact h.commentLine_eq
  · cases hm : s.mode with
    | structural => exact h.structural_eq hm
    | replica => exact h.replica_eq
    | choiceText => exact h.choiceText_eq hm hl

theorem newline_eq (h : Reached text s o cs) (hn : atNewline cs = true) :
    newline text (cursor s o) = pure (after (s.newline cs) o) := by
  have hlen : (if cs.head? = some '\r' then 2 else 1) ≤ cs.length := by
    rcases newline_of_atNewline hn with ⟨ds, rfl⟩ | ⟨ds, rfl⟩
    · simp
    · simp
  obtain ⟨p, e, rfl⟩ := h.output_eq
  rw [newline, State.newline]
  dsimp only [cursor]
  rw [h.stands.peek_eq, pure_bind, h.stands.advanceBy_take hlen]
  rfl

/-- A change of level is emitted when no replica is open any more. -/
theorem pass_levels {p : Position} {e : Emission} (spacers : List Char) (m n : Nat) :
    (⟨false, p, e⟩ : Output).pass
      (.covered spacers (List.replicate m .indent ++ List.replicate n .dedent)) =
      ⟨false, p.advance spacers,
        e.append ((List.replicate m Kind.indent ++ List.replicate n Kind.dedent).map
          (⟨·, .ofText p spacers⟩))⟩ := by
  rw [Output.pass_free (Piece.free_levels rfl rfl m n spacers), foldl_push_false]
  rfl

/-- Behind the end of the open replica no replica is open. -/
theorem passAll_replicaEnd (h : Reached text s o cs) :
    ∃ e, o.passAll s.replicaEnd = ⟨false, o.position, e⟩ := by
  obtain ⟨p, e, rfl⟩ := h.output_eq
  rw [State.replicaEnd]
  by_cases hr : s.mode = .replica
  · rw [if_pos hr]
    exact ⟨e.close, rfl⟩
  · rw [if_neg hr, decide_eq_false hr]
    exact ⟨e, rfl⟩

theorem indentation_eq (h : Reached text s o cs)
    (hl : atLineEnd (cs.dropWhile isSpacer) = false) :
    let lead := s.indentation (cs.takeWhile isSpacer) (cs.dropWhile isSpacer)
    indentation text (cursor s o) = pure (cursor lead.2 (o.passAll lead.1)) := by
  obtain ⟨hspacers, hbehind⟩ := h.stands.spacers
  obtain ⟨e, hclosed⟩ := h.passAll_replicaEnd
  rw [indentation, State.indentation, show (cursor s o).position = o.position from rfl,
    show (cursor s o).level = s.level from rfl, hspacers, pure_bind, hbehind.sees_eq, pure_bind, hl,
    Bool.false_or]
  by_cases hc : (s.behind.past (cs.takeWhile isSpacer)).atLineComment (cs.dropWhile isSpacer) = true
  · rw [if_pos hc, if_pos (by simp [hc])]
    rfl
  by_cases hlevel : levelOf (cs.takeWhile isSpacer) = s.level
  · rw [if_neg hc, if_pos hlevel, if_pos (by simp [hlevel])]
    rfl
  rw [if_neg hc, if_neg hlevel, if_neg (by simp [hc, hlevel]), closeReplica_moveTo,
    closeReplica_cursor]
  dsimp only
  rw [Output.passAll_append, Output.passAll_cons, hclosed, pass_levels]
  rfl

/-- Where the line is over behind its spaces and tabs, nothing else is read. -/
theorem lineStart_lineEnd (h : Reached text s o cs)
    (hl : atLineEnd (cs.dropWhile isSpacer) = true) :
    lineStart text (cursor s o) =
      pure (after (s.read [.gap (cs.takeWhile isSpacer)] (cs.dropWhile isSpacer)) o) := by
  obtain ⟨hspacers, hbehind⟩ := h.stands.spacers
  have hlead : indentation text (cursor s o) =
      pure (cursor s (o.pass (.gap (cs.takeWhile isSpacer)))) := by
    rw [indentation, hspacers, pure_bind, hbehind.sees_eq, pure_bind, hl, Bool.true_or, if_pos rfl]
    rfl
  have hsees : sees text (fun _ cs => atLineEnd cs)
      (cursor s (o.pass (.gap (cs.takeWhile isSpacer)))).position = pure true := by
    rw [← hl]
    exact hbehind.sees_eq fun _ cs => atLineEnd cs
  rw [lineStart, hlead, pure_bind, hsees, pure_bind, if_pos rfl]
  rfl

/-- Where the line is not over behind its spaces and tabs, what stands there is read as well. -/
theorem lineStart_scan (h : Reached text s o cs) (hm : s.mode ≠ .choiceText)
    (hc : s.inComment = false) {d : Char} {ds : List Char} (hd : cs.dropWhile isSpacer = d :: ds)
    (hl : atLineEnd (d :: ds) = false) :
    lineStart text (cursor s o) =
      pure (
        let lead := s.indentation (cs.takeWhile isSpacer) (d :: ds)
        let r := (lead.2.past lead.1).scan d ds
        after { r with pieces := lead.1 ++ r.pieces } o) := by
  obtain ⟨-, hbehind⟩ := h.stands.spacers
  have hlead := h.indentation_eq (by rwa [hd])
  have hspacers := s.splits_indentation (isSpacer_of_mem_takeWhile cs) (d :: ds)
  have hpast := s.behind_indentation (cs.takeWhile isSpacer) (d :: ds)
  have hreads := State.readsAll_indentation hm hc (isSpacer_of_mem_takeWhile cs) (d :: ds)
  rw [hd] at hbehind hlead
  generalize s.indentation (cs.takeWhile isSpacer) (d :: ds) = lead at hlead hspacers hpast hreads ⊢
  have hposition := o.position_passAll lead.1
  rw [hspacers.1] at hposition
  have hreached : Reached text (lead.2.past lead.1) (o.passAll lead.1) (d :: ds) := by
    refine ⟨?_, h.output.passAll hreads⟩
    rwa [hposition, State.past, hpast, hspacers.1]
  have hscan := hreached.scan_eq hl
  rw [lineStart, hlead, pure_bind]
  dsimp only
  rw [hreached.stands.sees_eq, pure_bind, if_neg (by simp [hl])]
  refine hscan.trans ?_
  rw [after, after, Output.passAll_append]

/-- A step by bytes is a step. -/
theorem step_eq {c : Char} (h : Reached text s o (c :: cs)) :
    step text (cursor s o) = pure (after (s.step c cs) o) := by
  refine h.sees_ite h.newline_eq fun hn => ?_
  -- from here on the line is not fresh any more
  have hclean : Reached text { s with freshLine := false } o (c :: cs) := ⟨h.stands, h.output⟩
  rw [show ((cursor s o).freshLine && !(cursor s o).inComment && (cursor s o).mode != .choiceText) =
    s.measures from rfl]
  split
  · next hmeasure =>
    simp only [State.measures, Bool.and_eq_true, Bool.not_eq_true', bne_iff_ne] at hmeasure
    have hover := hclean.lineStart_lineEnd
    cases hd : (c :: cs).dropWhile isSpacer with
    | nil =>
      rw [hd] at hover
      exact hover rfl
    | cons d ds =>
      dsimp only
      split
      · next hdn =>
        rw [hd] at hover
        exact hover hdn
      · next hdn =>
        exact hclean.lineStart_scan hmeasure.2 hmeasure.1.2 hd (by simpa [atLineEnd] using hdn)
  · exact hclean.scan_eq (by simpa [atLineEnd] using hn)

end Reached

end StoryScript.Bytewise

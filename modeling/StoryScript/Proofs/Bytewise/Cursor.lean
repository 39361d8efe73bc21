import StoryScript.Proofs.Bytewise.Emission
import StoryScript.Proofs.Bytewise.Readers
/-!
# The cursor of the lexer

The cursor has a place in the source and the tokens that were emitted on the way to it. Tokens run
from a place where the cursor has been up to the cursor, or over a text whose length is counted from
such a place. The arguments of a call are emitted one by one while their list is read.
-/

namespace StoryScript.Bytewise

open Indexed (Guarded sliceText)
open Lexer (Mode State Step)
open String (utf8Len utf8Len_append)
open Token (Kind)

/-- What the lexer knows at a position. What stands before the position it looks up. -/
structure Cursor where
  mode : Mode := .structural
  inComment : Bool := false
  freshLine : Bool := true
  level : Nat := 0
  position : Position := .origin
  emission : Emission := {}
deriving DecidableEq, Repr

namespace Cursor

/-- The cursor moved to a position. -/
def moveTo (l : Cursor) (p : Position) : Cursor := { l with position := p }

theorem position_moveTo (l : Cursor) (p : Position) : (l.moveTo p).position = p := rfl

/-- Emit tokens one after the other. -/
def pushAll (l : Cursor) (ts : List Token) : Cursor :=
  { l with emission := ts.foldl (.push (l.mode = .replica)) l.emission }

theorem pushAll_append (l : Cursor) (as bs : List Token) :
    l.pushAll (as ++ bs) = (l.pushAll as).pushAll bs :=
  congrArg (fun e => { l with emission := e }) List.foldl_append

/-- Emit a token. -/
def push (l : Cursor) (t : Token) : Cursor := l.pushAll [t]

/-- Emit a token that runs from a position up to the cursor. -/
def pushFrom (l : Cursor) (start : Position) (kind : Kind) : Cursor :=
  l.push ⟨kind, ⟨start, l.position⟩⟩

/-- Emit tokens that never wait. -/
def append (l : Cursor) (ts : List Token) : Cursor :=
  { l with emission := l.emission.append ts }

/-- Close the open replica, if there is one. -/
def closeReplica (l : Cursor) : Cursor :=
  if l.mode = .replica then { l with mode := .structural, emission := l.emission.close } else l

/-- Close what is still open at the end of the source. -/
def finish (l : Cursor) : Cursor :=
  let l := l.closeReplica
  let here := Span.point l.position
  { l.append (List.replicate l.level ⟨.dedent, here⟩ ++ [⟨.eof, here⟩]) with level := 0 }

end Cursor

/-! ## Texts without the blanks at their ends -/

/-- The blanks a text begins with. -/
def margin (raw : List Char) : Guarded (List Char) :=
  sliceText raw 0 (utf8Len raw - utf8Len (Text.trimStart raw))

/-- Emit a text that begins at a position, without the blanks at its ends. -/
def Cursor.pushTrimmed (l : Cursor) (kind : String → Kind) (raw : List Char) (start : Position) :
    Guarded Cursor := do
  let leading ← margin raw
  let shown := Text.trim raw
  return l.push ⟨kind (String.ofList shown), .ofText (start.advance leading) shown⟩

/-- Emit an argument that begins at a position, unless it is blank. -/
def Cursor.pushArgument (l : Cursor) (raw : List Char) (start : Position) : Guarded Cursor :=
  if Text.allBlank raw then return l else l.pushTrimmed .argument raw start

theorem margin_eq (raw : List Char) : margin raw = pure (Text.leading raw) := by
  have hslice := Indexed.sliceText_left (Text.leading raw) (Text.trimStart raw)
  have hlen := utf8Len_append (Text.leading raw) (Text.trimStart raw)
  rw [Text.leading_append_trimStart] at hslice hlen
  rw [margin, hlen, Nat.add_sub_cancel, hslice]

theorem pushTrimmed_eq (l : Cursor) (kind : String → Kind) (raw : List Char) (start : Position) :
    l.pushTrimmed kind raw start = pure (l.push ⟨kind (String.ofList (Text.trim raw)),
      .ofText (start.advance (Text.leading raw)) (Text.trim raw)⟩) := by
  rw [Cursor.pushTrimmed, margin_eq, pure_bind]

theorem pushArgument_eq (l : Cursor) (raw : List Char) (start : Position) :
    l.pushArgument raw start = pure (l.pushAll (Piece.fieldToken start raw)) := by
  rw [Cursor.pushArgument, pushTrimmed_eq, Piece.fieldToken]
  split <;> rfl

/-! ## Arguments -/

/-- One parenthesis less is open. -/
def lower : Nat → Guarded Nat
  | 0 => throw .level
  | depth + 1 => return depth

/-- Emit the arguments of a list behind its parenthesis, in a number of turns, and tell whether the
list closes. The argument at the cursor has begun at `start` with `current`. -/
def argumentsWithin (text : List Char) : (turns : Nat) → (depth : Nat) → (quoted : Bool) →
    (current : List Char) → (start : Position) → Cursor → Guarded (Cursor × Bool)
  | 0, _, _, _, _, _ => throw .turns
  | turns + 1, depth, quoted, current, start, l => do
    if ← sees text (fun _ cs => atLineEnd cs) l.position then
      return (← l.pushArgument current start, false)
    else
      let head ← advance text l.position
      let c := head.1
      let more (depth : Nat) (quoted : Bool) :=
        argumentsWithin text turns depth quoted (current ++ [c]) start (l.moveTo head.2)
      if (← lookbehindAt text l.position).escaped then more depth quoted
      else if c = '"' then more depth (!quoted)
      else if quoted then more depth quoted
      else if c = '(' then more (depth + 1) quoted
      else if c = ')' then
        let depth ← lower depth
        if depth = 0 then return ((← l.pushArgument current start).moveTo head.2, true)
        else more depth quoted
      else if c = ',' ∧ depth = 1 then
        let l ← l.pushArgument current start
        argumentsWithin text turns depth quoted [] head.2 (l.moveTo head.2)
      else more depth quoted

/-- Emit the arguments of the list at the cursor, and what there is of it if it does not close. -/
def arguments (text : List Char) (l : Cursor) : Guarded Cursor := do
  let sign ← advance text l.position
  let list ← argumentsWithin text (utf8Len text + 1) 1 false [] sign.2 (l.moveTo sign.2)
  if list.2 then return list.1
  else
    let shown := Text.trimEnd (← sliceText text l.position.offset list.1.position.offset)
    return list.1.push ⟨.error (String.ofList shown), .ofText l.position shown⟩

/-- The cursor behind a list whose arguments it emits, and whether the list closes. The first
argument has begun at `start` with `current`. -/
def Cursor.listed (l : Cursor) (start : Position) (current : List Char) (list : ArgumentList) :
    Cursor × Bool :=
  let ts := Piece.fieldToken start (current ++ list.first) ++
    Piece.fieldTokens (start.advance (current ++ list.first)) list.others
  ((l.pushAll ts).moveTo (l.position.advance list.text), list.closed)

section
variable {l : Cursor} {start : Position} {current : List Char}

theorem listed_nil (closed : Bool) (rest : List Char) :
    l.listed start current ⟨[], [], closed, rest⟩ =
      ((l.pushAll (Piece.fieldToken start current)).moveTo
        (l.position.advance (if closed then [')'] else [])), closed) := by
  simp [Cursor.listed, Piece.fieldTokens, ArgumentList.text]

theorem listed_push (c : Char) (list : ArgumentList) :
    l.listed start current (list.push c) =
      (l.moveTo (l.position.next c)).listed start (current ++ [c]) list := by
  rw [Cursor.listed, Cursor.listed, List.append_assoc]
  rfl

theorem listed_cut (hl : l.position = start.advance current) (list : ArgumentList) :
    l.listed start current list.cut =
      ((l.pushAll (Piece.fieldToken start current)).moveTo (l.position.next ',')).listed
        (l.position.next ',') [] list := by
  rw [Cursor.listed, Cursor.listed, ArgumentList.text_cut, Cursor.pushAll_append]
  simp [ArgumentList.cut, Piece.fieldTokens, Cursor.pushAll, Cursor.moveTo, hl]

end

namespace Stands

variable {text cs current : List Char} {turns depth : Nat} {start : Position} {b : Lookbehind}
  {l : Cursor}

/-- With a parenthesis open the depth of a list does not fall below zero. -/
theorem argumentsWithin_eq (h : Stands text l.position b cs) (quoted : Bool) (hd : 0 < depth)
    (ht : cs.length < turns) (hl : l.position = start.advance current) :
    argumentsWithin text turns depth quoted current start l =
      pure (l.listed start current (readArguments depth quoted b cs)) := by
  induction turns generalizing l b cs depth quoted current start with
  | zero => exact absurd ht (Nat.not_lt_zero _)
  | succ turns ih =>
    rw [argumentsWithin, h.sees_eq, pure_bind]
    cases cs with
    | nil =>
      rw [readArguments, listed_nil, if_pos (by rfl), pushArgument_eq]
      rfl
    | cons c cs =>
      have hturns : cs.length < turns := Nat.lt_of_succ_lt_succ ht
      -- where the character belongs to the argument at the cursor
      have hmore (depth : Nat) (quoted : Bool) (hd : 0 < depth) :
          argumentsWithin text turns depth quoted (current ++ [c]) start
            (l.moveTo (l.position.next c)) =
            pure (l.listed start current ((readArguments depth quoted (b.next c) cs).push c)) := by
        have hstart : l.position.next c = start.advance (current ++ [c]) := by
          rw [Position.advance_append, ← hl]
          rfl
        rw [listed_push]
        exact ih (l := l.moveTo (l.position.next c)) h.next quoted hd hturns hstart
      rw [readArguments]
      by_cases hline : atLineEnd (c :: cs) = true
      · rw [if_pos hline, if_pos hline, listed_nil, pushArgument_eq]
        rfl
      rw [if_neg hline, if_neg hline, h.advance_eq, pure_bind, h.lookbehindAt_eq, pure_bind]
      dsimp only
      by_cases hb : b.escaped = true
      · rw [if_pos hb, if_pos hb, hmore depth quoted hd]
      rw [if_neg hb, if_neg hb]
      by_cases hquote : c = '"'
      · rw [if_pos hquote, if_pos hquote, hmore depth (!quoted) hd]
      rw [if_neg hquote, if_neg hquote]
      by_cases hquoted : quoted = true
      · rw [if_pos hquoted, if_pos hquoted, hmore depth quoted hd]
      rw [if_neg hquoted, if_neg hquoted]
      by_cases hopen : c = '('
      · rw [if_pos hopen, if_pos hopen, hmore (depth + 1) quoted (Nat.succ_pos depth)]
      rw [if_neg hopen, if_neg hopen]
      by_cases hclose : c = ')'
      · obtain ⟨depth, rfl⟩ := Nat.exists_eq_add_one_of_ne_zero hd.ne'
        rw [if_pos hclose, if_pos hclose, lower, pure_bind]
        by_cases hzero : depth = 0
        · rw [if_pos hzero, if_pos (by omega), pushArgument_eq, listed_nil, hclose]
          rfl
        · rw [if_neg hzero, if_neg (by omega), hmore depth quoted (by omega)]
          rfl
      rw [if_neg hclose, if_neg hclose]
      by_cases hcomma : c = ',' ∧ depth = 1
      · rw [if_pos hcomma, if_pos hcomma, pushArgument_eq, pure_bind, listed_cut hl, ← hcomma.1]
        exact ih (l := (l.pushAll (Piece.fieldToken start current)).moveTo (l.position.next c))
          h.next quoted hd hturns rfl
      · rw [if_neg hcomma, if_neg hcomma, hmore depth quoted hd]

/-- A list is emitted as its piece is. -/
theorem arguments_eq {p : Position} (h : Stands text p b ('(' :: cs)) (hp : l.position = p) :
    let list := readArguments 1 false (b.next '(') cs
    arguments text l = pure ((l.pushAll ((Piece.arguments list).tokens p)).moveTo
      (p.advance ('(' :: list.text))) := by
  intro list
  subst hp
  have hlist : argumentsWithin text (utf8Len text + 1) 1 false [] (l.position.next '(')
      (l.moveTo (l.position.next '(')) =
        pure ((l.moveTo (l.position.next '(')).listed (l.position.next '(') [] list) :=
    h.next.argumentsWithin_eq (l := l.moveTo (l.position.next '(')) false Nat.one_pos
      h.next.length_lt rfl
  have hslice : sliceText text l.position.offset
      ((l.position.next '(').advance list.text).offset = pure ('(' :: list.text) := by
    rw [← readArguments_append 1 false (b.next '(') cs, ← List.cons_append] at h
    exact h.slice_eq
  rw [arguments, h.advance_eq, pure_bind]
  dsimp only
  rw [hlist, pure_bind, Cursor.listed, Piece.tokens]
  dsimp only
  split
  · rw [List.append_nil]
    rfl
  · rw [Cursor.position_moveTo, Cursor.position_moveTo, hslice, pure_bind, l.pushAll_append]
    rfl

end Stands

end StoryScript.Bytewise

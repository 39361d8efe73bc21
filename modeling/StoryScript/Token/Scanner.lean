import StoryScript.Token.Piece
/-!
# Steps through the source

A source is read in one of three modes, and a block comment can lie over any of them. Each step
reads what stands at a place and says which pieces it is and how the next place is to be read.
-/

namespace StoryScript

open Token (Kind)

namespace Lexer

/-- How text outside block comments is read. -/
inductive Mode where
  /-- Statements, tags and headers. -/
  | structural
  /-- The dialogue of a replica. -/
  | replica
  /-- A choice text between bounds. -/
  | choiceText
deriving DecidableEq, Repr

/-- What the lexer knows at a place. -/
structure State where
  mode : Mode := .structural
  /-- A block comment is open. -/
  inComment : Bool := false
  /-- The indentation of this line has not been measured. -/
  freshLine : Bool := true
  /-- Levels of indentation entered and not left. -/
  level : Nat := 0
  behind : Lookbehind := {}
deriving DecidableEq, Repr

/-- The pieces a step has read, the state after them and the text left. -/
structure Step where
  pieces : List Piece
  state : State
  rest : List Char

/-- Columns in a level of indentation. A tab is as wide as a level. -/
def levelWidth : Nat := 2

/-- The level of a line that begins with these spaces and tabs. -/
def levelOf (spacers : List Char) : Nat :=
  (spacers.countP (· == ' ') + levelWidth * spacers.countP (· == '\t')) / levelWidth

namespace State

/-- The state behind pieces that have been read. -/
def past (s : State) (pieces : List Piece) : State :=
  { s with behind := s.behind.past (Piece.texts pieces) }

/-- The step that reads `pieces` and leaves `rest`. -/
def read (s : State) (pieces : List Piece) (rest : List Char) : Step :=
  ⟨pieces, s.past pieces, rest⟩

/-- The end of the open replica, if there is one. -/
def replicaEnd (s : State) : List Piece :=
  if s.mode = .replica then [.mark .replicaEnd] else []

/-- The state in which no replica is open. -/
def leaveReplica (s : State) : State :=
  if s.mode = .replica then { s with mode := .structural } else s

/-! ## Comments -/

/-- `/*`. -/
def openComment (s : State) (cs : List Char) : Step :=
  { s with inComment := true }.read [.token .commentOpen (cs.take 2)] (cs.drop 2)

/-- Text inside a block comment, up to the end of the line or of the comment. -/
def commentLine (s : State) (cs : List Char) : Step :=
  let r := readUntil (fun b cs => atLineEnd cs || b.atCommentClose cs) s.behind cs
  let text := if r.1.isEmpty then [] else [Piece.token (.commentText (String.ofList r.1)) r.1]
  if (s.behind.past r.1).atCommentClose r.2 then
    { s with inComment := false }.read
      (text ++ [Piece.token .commentClose (r.2.take 2)]) (r.2.drop 2)
  else s.read text r.2

/-- `#` and the rest of the line. -/
def lineComment (s : State) (cs : List Char) : Step :=
  let r := readUntil (fun _ cs => atLineEnd cs) s.behind cs
  s.read [.token (.comment (String.ofList r.1)) r.1] r.2

/-! ## Structure -/

/-- Where a tag's name, a call's name or a section's name is over in any case. -/
def endsName (cs : List Char) : Bool :=
  atLineEnd cs || (cs.head?.map isSpacer).getD false

/-- `@name value` or `@@name value`. -/
def tag (s : State) (kind : String → Kind) (cs : List Char) : Step :=
  let name := readUntil (fun _ cs => endsName cs) (s.behind.past (cs.take 1)) (cs.drop 1)
  if name.1.isEmpty then s.read [.token (.error "@") (cs.take 1)] (cs.drop 1)
  else
    let text := cs.take 1 ++ name.1
    let value :=
      readUntil (fun b cs => atLineEnd cs || b.startsToken cs) (s.behind.past text) name.2
    s.read
      (.token (kind (String.ofList name.1)) text ::
        if Text.allBlank value.1 then [.gap value.1] else Piece.trimmedEnd .tagValue value.1)
      value.2

/-- `@call:name` and its arguments. -/
def call (s : State) (cs : List Char) : Step :=
  let mark := cs.take callMark.length
  let name := readUntil (fun b cs => endsName cs || b.atParenthesis cs)
    (s.behind.past mark) (cs.drop callMark.length)
  let head := Piece.token (.call (String.ofList name.1)) (mark ++ name.1)
  if (s.behind.past (mark ++ name.1)).atParenthesis name.2 then
    let list := readArguments 1 false ((s.behind.past (mark ++ name.1)).next '(') (name.2.drop 1)
    s.read [head, .arguments list] list.rest
  else s.read [head] name.2

/-- `== name`. -/
def header (s : State) (cs : List Char) : Step :=
  let spacers := (cs.drop 2).takeWhile isSpacer
  let rest := (cs.drop 2).dropWhile isSpacer
  let name := readUntil (fun b cs => endsName cs || b.atComment cs)
    (s.behind.past (cs.take 2 ++ spacers)) rest
  s.read
    ([.token .header (cs.take 2), .gap spacers] ++
      if name.1.isEmpty then [] else [.token (.identifier (String.ofList name.1)) name.1])
    name.2

/-- `-> target` or `=> target`. -/
def goto (s : State) (cs : List Char) : Step :=
  let spacers := (cs.drop 2).takeWhile isSpacer
  let rest := (cs.drop 2).dropWhile isSpacer
  let target := readUntil (fun b cs => atLineEnd cs || b.atComment cs)
    (s.behind.past (cs.take 2 ++ spacers)) rest
  s.read
    ([.token (.goto (String.ofList (cs.take 2))) (cs.take 2), .gap spacers] ++
      if Text.allBlank target.1 then [.gap target.1] else Piece.trimmed .identifier target.1)
    target.2

/-- Text that is no token, up to where one begins. -/
def stray (s : State) (c : Char) (cs : List Char) : Step :=
  let r := readUntil (fun b cs => atLineEnd cs || b.startsToken cs) (s.behind.next c) cs
  s.read (Piece.trimmed .error (c :: r.1)) r.2

/-! ## Choices -/

/-- A visible bound that opens a choice text. -/
def openBound (s : State) (before : List Piece) (cs : List Char) : Step :=
  { s with mode := .choiceText }.read
    (before ++ [Piece.token (.choiceBound false) (cs.take boundMark.length)])
    (cs.drop boundMark.length)

/-- `+`, and the text on its line or the bound that opens a text of several lines. -/
def choice (s : State) (cs : List Char) : Step :=
  let plus := Piece.token .choice (cs.take 1)
  let spacers := (cs.drop 1).takeWhile isSpacer
  let rest := (cs.drop 1).dropWhile isSpacer
  if boundMark.isPrefixOf rest then s.openBound [plus, .gap spacers] rest
  else
    let text := readText (fun b cs => b.atComment cs) none (s.behind.past (cs.take 1)) (cs.drop 1)
    s.read
      (plus ::
        if Text.allBlank text.1 then [.gap text.1]
        else
          [.mark (.choiceBound true),
            .token (.choiceText (String.ofList (Text.trimEnd text.1))) (Text.trimEnd text.1),
            .mark (.choiceBound true), .gap (Text.trailing text.1)])
      text.2

/-- A stretch of choice text, or the bound that closes it. -/
def choiceText (s : State) (cs : List Char) : Step :=
  if s.behind.atBound cs then
    { s with mode := .structural }.read
      [.token (.choiceBound false) (cs.take boundMark.length)] (cs.drop boundMark.length)
  else if s.behind.atCommentOpen cs then s.openComment cs
  else if s.behind.atLineComment cs then s.lineComment cs
  else
    let r := readText (fun b cs => b.atBound cs || b.atComment cs) none s.behind cs
    s.read [.token (.choiceText (String.ofList r.1)) r.1] r.2

/-! ## Replicas -/

/-- A double quote and a space. -/
def openReplica (s : State) (cs : List Char) : Step :=
  { s with mode := .replica }.read [.token .replicaBegin (cs.take 2)] (cs.drop 2)

/-- A stretch of dialogue, or the end of the replica before what cannot belong to it. -/
def replica (s : State) (cs : List Char) : Step :=
  if s.behind.endsReplica cs then s.leaveReplica.read s.replicaEnd cs
  else if s.behind.atCommentOpen cs then s.openComment cs
  else if s.behind.atLineComment cs then s.lineComment cs
  else
    let r := readText (fun b cs => b.endsReplica cs || b.atComment cs) none s.behind cs
    s.read
      [if Text.allBlank r.1 then .gap r.1 else .token (.speech (String.ofList r.1)) r.1] r.2

/-! ## Steps -/

/-- A token of the structural mode, or one character of space. -/
def structural (s : State) (c : Char) (cs : List Char) : Step :=
  if isSpacer c || c == '\r' then s.read [.gap [c]] cs
  else if s.behind.atCommentOpen (c :: cs) then s.openComment (c :: cs)
  else if s.behind.atLineComment (c :: cs) then s.lineComment (c :: cs)
  else if s.behind.atCall (c :: cs) then s.call (c :: cs)
  else if s.behind.atChoiceTag (c :: cs) then s.tag .choiceTag (c :: cs)
  else if s.behind.atTag (c :: cs) then s.tag .tag (c :: cs)
  else if s.behind.atHeader (c :: cs) then s.header (c :: cs)
  else if s.behind.atGoto (c :: cs) then s.goto (c :: cs)
  else if s.behind.atChoice (c :: cs) then s.choice (c :: cs)
  else if s.behind.atReplica (c :: cs) then s.openReplica (c :: cs)
  else if s.behind.atBound (c :: cs) then s.openBound [] (c :: cs)
  else s.stray c cs

/-- What stands at a place inside a line. -/
def scan (s : State) (c : Char) (cs : List Char) : Step :=
  if s.inComment then s.commentLine (c :: cs)
  else
    match s.mode with
    | .structural => s.structural c cs
    | .replica => s.replica (c :: cs)
    | .choiceText => s.choiceText (c :: cs)

/-- The pieces and the state after the indentation of a line that has more to it. A change of level
ends an open replica. A line with only a comment keeps the level. -/
def indentation (s : State) (spacers rest : List Char) : List Piece × State :=
  let level := levelOf spacers
  if (s.behind.past spacers).atLineComment rest || level == s.level then ([.gap spacers], s)
  else
    (s.replicaEnd ++
        [.covered spacers
          (List.replicate (level - s.level) .indent ++ List.replicate (s.level - level) .dedent)],
      { s.leaveReplica with level := level })

/-- A line feed, or the carriage return and line feed that end a line. -/
def newline (s : State) (cs : List Char) : Step :=
  let n := if cs.head? = some '\r' then 2 else 1
  { s with freshLine := true }.read [.token .newline (cs.take n)] (cs.drop n)

/-- Whether the indentation of the line is to be measured here. -/
def measures (s : State) : Bool := s.freshLine && !s.inComment && s.mode != .choiceText

/-- Read what stands at a place that is not the end of the source. -/
def step (s : State) (c : Char) (cs : List Char) : Step :=
  if atNewline (c :: cs) then s.newline (c :: cs)
  else
    let s' := { s with freshLine := false }
    if s.measures then
      let spacers := (c :: cs).takeWhile isSpacer
      match (c :: cs).dropWhile isSpacer with
      | [] => s'.read [.gap spacers] []
      | d :: ds =>
        if atNewline (d :: ds) then s'.read [.gap spacers] (d :: ds)
        else
          let (pieces, s'') := s'.indentation spacers (d :: ds)
          let r := (s''.past pieces).scan d ds
          { r with pieces := pieces ++ r.pieces }
    else s'.scan c cs

/-- What is still open at the end of the source. -/
def finish (s : State) : List Piece :=
  s.replicaEnd ++ List.replicate s.level (.mark .dedent) ++ [.mark .eof]

end State

end Lexer

end StoryScript

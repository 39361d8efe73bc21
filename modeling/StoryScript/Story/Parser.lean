import StoryScript.Story.Segments
import StoryScript.Token
/-!
# From tokens to a story

The tokens before the end of the source fall into windows, one for each header. A window is read
item by item; the only item that holds others is a choice, whose body lies between the levels around
it.
Nothing is refused: what fits nowhere is skipped, and what is missing is told.
-/

namespace StoryScript

open Token (Kind)

/-! ## Items -/

/-- A tag whose name stands at `t`, with the value after it. -/
def readTag (t : Token) (name : String) : List Token → Tag × List Token
  | ⟨.tagValue value, span⟩ :: rest => (⟨name, some value, t.span.through span⟩, rest)
  | rest => (⟨name, none, t.span⟩, rest)

/-- The target of a goto: a name that is not blank, without the blanks around it. -/
def readTarget : List Token → Option (String × Span × List Token)
  | ⟨.identifier name, span⟩ :: rest =>
    if Text.isBlankText name then none else some (Text.trimmed name, span, rest)
  | _ => none

/-- The text of an argument. -/
def Token.argument? (t : Token) : Option String :=
  match t.kind with
  | .argument text => some text
  | _ => none

/-- A stretch of a replica's text. -/
def Token.speech? (t : Token) : Option Run :=
  match t.kind with
  | .speech text => some ⟨text.toList, t.span.start⟩
  | _ => none

/-- From a token to the last of some others. -/
def Token.spanTo (t : Token) (ts : List Token) : Span :=
  (ts.getLast?.map (t.span.through ·.span)).getD t.span

/-- A call whose name stands at `t`. -/
def readCall (t : Token) (name : String) (ts : List Token) : Call × List Diagnostic × List Token :=
  let args := ts.takeWhile (·.argument?.isSome)
  let rest := ts.dropWhile (·.argument?.isSome)
  let span := t.spanTo args
  let bare := args.isEmpty && (rest.head?.map (·.kind == .newline)).getD true
  (⟨name, args.filterMap Token.argument?, [], span⟩,
    if bare then [⟨.callWithoutArguments name, span⟩] else [], rest)

/-- The runs of speeches in a row. Speeches on different lines have a line feed between them, which
stands where the earlier one ends. -/
def glueSpeeches : List Token → List Run
  | [] => []
  | [t] => t.speech?.toList
  | t :: u :: ts =>
    let between := if t.span.stop.line = u.span.start.line then [] else
      t.speech?.toList.map fun r => ⟨['\n'], r.stop⟩
    t.speech?.toList ++ between ++ glueSpeeches (u :: ts)

/-- A replica that begins at `t`: speeches, with trivia between them, up to its end if that is
there. -/
def readReplica (t : Token) (ts : List Token) : Replica × List Diagnostic × List Token :=
  let inside := ts.takeWhile fun u => u.speech?.isSome || u.isTrivia
  let rest := ts.dropWhile fun u => u.speech?.isSome || u.isTrivia
  let speeches := inside.filter (·.speech?.isSome)
  let (span, rest) := match rest with
    | ⟨.replicaEnd, span⟩ :: rest => (t.span.through span, rest)
    | rest => (t.spanTo speeches, rest)
  let (segments, diagnostics) := segmentsOf (glueSpeeches speeches)
  (⟨plainText segments, segments, [], span⟩, diagnostics, rest)

/-- The text of a choice, the tokens it is made of and those left. -/
structure ChoiceText where
  inlineText : Option String := none
  blockText : Option String := none
  runs : List Run := []
  diagnostics : List Diagnostic := []
  taken : List Token := []
  rest : List Token

/-- What a token between the bounds of a choice text adds to it: comments are text there. -/
def Token.blockRun? (t : Token) : Option Run :=
  match t.kind with
  | .choiceText text => some ⟨text.toList, t.span.start⟩
  | kind => if kind.isTrivia then kind.value.map fun v => ⟨v.toList, t.span.start⟩ else none

/-- A silent bound, if one is next. -/
def readSilentBound : List Token → List Token × List Token
  | ⟨.choiceBound true, span⟩ :: rest => ([⟨.choiceBound true, span⟩], rest)
  | rest => ([], rest)

/-- The text on the line of a choice, behind the silent bound before it. -/
def readInlineText (bound : Token) : List Token → ChoiceText
  | ⟨.choiceText text, span⟩ :: rest =>
    let r := readSilentBound rest
    { inlineText := some text
      runs := [⟨text.toList, span.start⟩]
      taken := bound :: ⟨.choiceText text, span⟩ :: r.1
      rest := r.2 }
  | rest =>
    let r := readSilentBound rest
    { taken := bound :: r.1, rest := r.2 }

/-- The text between bounds, behind the bound that opens it. -/
def readBlockText (bound : Token) (ts : List Token) : ChoiceText :=
  let inside := ts.takeWhile (·.blockRun?.isSome)
  let runs := inside.filterMap Token.blockRun?
  let text : ChoiceText :=
    { blockText := some (String.ofList (Run.glued runs))
      runs := runs
      taken := bound :: inside
      rest := ts.dropWhile (·.blockRun?.isSome) }
  match text.rest with
  | ⟨.choiceBound false, span⟩ :: rest =>
    { text with taken := text.taken ++ [⟨.choiceBound false, span⟩], rest := rest }
  | _ => { text with diagnostics := [⟨.openChoiceText, bound.span⟩] }

/-- The text of a choice. -/
def readChoiceText : List Token → ChoiceText
  | ⟨.choiceBound true, span⟩ :: rest => readInlineText ⟨.choiceBound true, span⟩ rest
  | ⟨.choiceBound false, span⟩ :: rest => readBlockText ⟨.choiceBound false, span⟩ rest
  | rest => { rest := rest }

/-- The tokens up to the dedent that leaves the outermost of `depth` levels, and those behind it. -/
def readBody : Nat → List Token → List Token × List Token
  | _, [] => ([], [])
  | depth, t :: ts =>
    let keep := fun (r : List Token × List Token) => (t :: r.1, r.2)
    match t.kind with
    | .indent => keep (readBody (depth + 1) ts)
    | .dedent => if depth ≤ 1 then ([], ts) else keep (readBody (depth - 1) ts)
    | _ => keep (readBody depth ts)

/-- The tokens of an indented body, if one is next. -/
def readIndented (ts : List Token) : Option (List Token × List Token) :=
  match ts.dropWhile (·.isTrivia) with
  | ⟨.indent, _⟩ :: rest => some (readBody 1 rest)
  | _ => none

/-- What begins at a token of a window. Statements still lack the tags before them. -/
inductive Item where
  | tag (tag : Tag)
  | choiceTag (tag : Tag)
  | goto (goto : Goto)
  | call (call : Call)
  | replica (replica : Replica)
  /-- A choice and the tokens of its body. -/
  | choice (choice : Choice) (body : Option (List Token))
  /-- Nothing that a story holds. -/
  | skipped

/-- What begins at a token, what is to be said about it, and the tokens behind it. -/
structure ItemRead where
  item : Item
  diagnostics : List Diagnostic := []
  rest : List Token

/-- A choice that begins at `t`. -/
def readChoice (t : Token) (ts : List Token) : ItemRead :=
  let text := readChoiceText ts
  let (segments, diagnostics) := segmentsOf text.runs
  let body := readIndented text.rest
  let inside := (body.map (·.1)).getD []
  let span := (Token.extent (t :: text.taken ++ inside)).getD t.span
  { item := .choice ⟨text.inlineText, text.blockText, segments, [], [], span⟩ (body.map (·.1))
    diagnostics := text.diagnostics ++ diagnostics
    rest := (body.map (·.2)).getD text.rest }

/-- What begins at `t` when `ts` follows. -/
def readItem (t : Token) (ts : List Token) : ItemRead :=
  match t.kind with
  | .tag name => let r := readTag t name ts; { item := .tag r.1, rest := r.2 }
  | .choiceTag name => let r := readTag t name ts; { item := .choiceTag r.1, rest := r.2 }
  | .goto _ =>
    match readTarget ts with
    | some (target, span, rest) => { item := .goto ⟨target, [], t.span.through span⟩, rest := rest }
    | none => { item := .skipped, diagnostics := [⟨.gotoWithoutTarget, t.span⟩], rest := ts }
  | .call name =>
    let r := readCall t name ts
    { item := .call r.1, diagnostics := r.2.1, rest := r.2.2 }
  | .replicaBegin =>
    let r := readReplica t ts
    { item := .replica r.1, diagnostics := r.2.1, rest := r.2.2 }
  | .choice => readChoice t ts
  | _ => { item := .skipped, rest := ts }

/-! ## What an item leaves is shorter -/

theorem length_readTag_le (t : Token) (name : String) (ts : List Token) :
    (readTag t name ts).2.length ≤ ts.length := by
  unfold readTag
  split <;> simp

theorem length_readTarget_le {ts rest : List Token} {target : String} {span : Span}
    (h : readTarget ts = some (target, span, rest)) : rest.length ≤ ts.length := by
  unfold readTarget at h
  split at h
  · split at h
    · simp at h
    · obtain ⟨_, _, rfl⟩ := by simpa using h
      simp
  · simp at h

theorem length_readReplica_le (t : Token) (ts : List Token) :
    (readReplica t ts).2.2.length ≤ ts.length := by
  have h := (List.dropWhile_sublist (l := ts) fun u : Token => u.speech?.isSome || u.isTrivia).length_le
  unfold readReplica
  dsimp only
  split
  · next heq =>
    rw [heq] at h
    exact Nat.le_of_succ_le h
  · exact h

theorem length_readSilentBound_le (ts : List Token) :
    (readSilentBound ts).2.length ≤ ts.length := by
  unfold readSilentBound
  split <;> simp

theorem length_readInlineText_le (bound : Token) (ts : List Token) :
    (readInlineText bound ts).rest.length ≤ ts.length := by
  unfold readInlineText
  split
  · exact Nat.le_succ_of_le (length_readSilentBound_le _)
  · exact length_readSilentBound_le _

theorem length_readBlockText_le (bound : Token) (ts : List Token) :
    (readBlockText bound ts).rest.length ≤ ts.length := by
  have h := (List.dropWhile_sublist (l := ts) fun u : Token => u.blockRun?.isSome).length_le
  unfold readBlockText
  dsimp only
  split
  · next heq =>
    rw [heq] at h
    exact Nat.le_of_succ_le h
  · exact h

theorem length_readChoiceText_le (ts : List Token) :
    (readChoiceText ts).rest.length ≤ ts.length := by
  unfold readChoiceText
  split
  · exact Nat.le_succ_of_le (length_readInlineText_le _ _)
  · exact Nat.le_succ_of_le (length_readBlockText_le _ _)
  · exact Nat.le_refl _

theorem length_readBody_le (depth : Nat) (ts : List Token) :
    (readBody depth ts).1.length + (readBody depth ts).2.length ≤ ts.length := by
  induction ts generalizing depth with
  | nil => simp [readBody]
  | cons t ts ih =>
    rw [readBody]
    split
    · have := ih (depth + 1)
      simp only [List.length_cons]
      omega
    · split
      · simp
      · have := ih (depth - 1)
        simp only [List.length_cons]
        omega
    · have := ih depth
      simp only [List.length_cons]
      omega

theorem length_readIndented_le {ts inside rest : List Token}
    (h : readIndented ts = some (inside, rest)) : inside.length + rest.length ≤ ts.length := by
  have hd := (List.dropWhile_sublist (l := ts) fun u : Token => u.isTrivia).length_le
  unfold readIndented at h
  split at h
  · next r heq =>
    have hb := length_readBody_le 1 r
    rw [Option.some.inj h] at hb
    rw [heq] at hd
    exact Nat.le_trans hb (Nat.le_of_succ_le hd)
  · simp at h

theorem length_readChoice_le (t : Token) (ts : List Token) :
    (readChoice t ts).rest.length ≤ ts.length := by
  have h := length_readChoiceText_le ts
  unfold readChoice
  dsimp only
  cases hb : readIndented (readChoiceText ts).rest with
  | none => exact h
  | some body =>
    have := length_readIndented_le hb
    simp only [Option.map_some, Option.getD_some]
    omega

theorem length_readItem_le (t : Token) (ts : List Token) :
    (readItem t ts).rest.length ≤ ts.length := by
  unfold readItem
  split
  · exact length_readTag_le ..
  · exact length_readTag_le ..
  · split
    · next h => exact length_readTarget_le h
    · exact Nat.le_refl _
  · exact (List.dropWhile_sublist _).length_le
  · exact length_readReplica_le ..
  · exact length_readChoice_le ..
  · exact Nat.le_refl _

theorem length_body_le {t : Token} {ts inside : List Token} {choice : Choice}
    (h : (readItem t ts).item = .choice choice (some inside)) : inside.length ≤ ts.length := by
  unfold readItem at h
  split at h <;> try contradiction
  · split at h <;> contradiction
  · unfold readChoice at h
    dsimp only at h
    cases hb : readIndented (readChoiceText ts).rest with
    | none => simp [hb] at h
    | some body =>
      have hl := length_readIndented_le hb
      have := length_readChoiceText_le ts
      obtain ⟨_, rfl⟩ := by simpa [hb] using h
      omega

/-! ## Blocks -/

/-- The statements of a window or a body, the tags after the last of them and what is to be said. -/
structure Block where
  statements : List Statement
  dangling : List Tag
  diagnostics : List Diagnostic

/-- One more statement in front. -/
def Block.push (s : Statement) (diagnostics : List Diagnostic) (b : Block) : Block :=
  { b with statements := s :: b.statements, diagnostics := diagnostics ++ b.diagnostics }

/-- What is said about tags that belong to nothing. -/
def looseTags (tags : List Tag) : List Diagnostic := tags.map fun t => ⟨.looseTag t.name, t.span⟩

/-- What is said about choice tags that no choice follows. -/
def looseChoiceTags (tags : List Tag) : List Diagnostic :=
  tags.map fun t => ⟨.looseChoiceTag t.name, t.span⟩

/-- The statements that tokens hold, when `tags` and `choiceTags` stand before them. A statement
takes the tags before it. Choice tags wait for a choice, but no longer than to the next
statement. -/
def parseBlock (tags choiceTags : List Tag) : List Token → Block
  | [] => ⟨[], tags, looseChoiceTags choiceTags⟩
  | t :: ts =>
    let r := readItem t ts
    match hi : r.item with
    | .tag tag =>
      parseBlock (tags ++ [tag]) choiceTags r.rest
    | .choiceTag tag =>
      parseBlock tags (choiceTags ++ [tag]) r.rest
    | .skipped =>
      let block := parseBlock tags choiceTags r.rest
      { block with diagnostics := r.diagnostics ++ block.diagnostics }
    | .goto goto =>
      (parseBlock [] [] r.rest).push (.goto { goto with tags })
        (r.diagnostics ++ looseChoiceTags choiceTags)
    | .call call =>
      (parseBlock [] [] r.rest).push (.call { call with tags })
        (r.diagnostics ++ looseChoiceTags choiceTags)
    | .replica replica =>
      (parseBlock [] [] r.rest).push (.replica { replica with tags })
        (r.diagnostics ++ looseChoiceTags choiceTags)
    | .choice choice none =>
      (parseBlock [] [] r.rest).push (.choice { choice with tags, choiceTags } none) r.diagnostics
    | .choice choice (some inside) =>
      have : inside.length ≤ ts.length := length_body_le hi
      let body := parseBlock [] [] inside
      (parseBlock [] [] r.rest).push
        (.choice { choice with tags, choiceTags } (some body.statements))
        (r.diagnostics ++ body.diagnostics ++ looseTags body.dangling)
termination_by ts => ts.length
decreasing_by
  all_goals first
    | exact Nat.lt_succ_of_le (length_readItem_le t ts)
    | exact Nat.lt_succ_of_le this

/-! ## Sections -/

/-- The tokens before the first header, and each header with the tokens up to the next one. -/
def windows : List Token → List Token × List (Token × List Token)
  | [] => ([], [])
  | t :: ts =>
    let r := windows ts
    if t.kind = .header then ([], (t, r.1) :: r.2) else (t :: r.1, r.2)

/-- A story and what is to be said about how it is written. -/
structure Parsed where
  story : Story
  diagnostics : List Diagnostic

/-- The issues of how a story is written. -/
def Parsed.issues (p : Parsed) : List Issue := p.diagnostics.map Diagnostic.issue

/-- The sections of windows, when `tags` stand before the first header. Tags at the end of a window
belong to the next header. A header without a name has no section, and its window is not read. -/
def parseWindows (tags : List Tag) : List (Token × List Token) → List Section × List Diagnostic
  | [] => ([], looseTags tags)
  | (header, ⟨.identifier name, span⟩ :: inside) :: rest =>
    let block := parseBlock [] [] inside
    let later := parseWindows block.dangling rest
    let extent := Token.extent (header :: ⟨.identifier name, span⟩ :: inside)
    (⟨name, tags, block.statements, extent.getD header.span⟩ :: later.1,
      block.diagnostics ++ later.2)
  | (header, _) :: rest =>
    let later := parseWindows [] rest
    (later.1, ⟨.headerWithoutName, header.span⟩ :: looseTags tags ++ later.2)

/-- Whether a token asks for a section of its own: anything but trivia, levels and tags. -/
def Token.isContent (t : Token) : Bool :=
  t.isSolid &&
    match t.kind with
    | .tag _ | .choiceTag _ | .tagValue _ => false
    | _ => true

/-- A section of what stands under no header. -/
def mainSection (statements : List Statement) (tokens : List Token) : Section :=
  ⟨Section.mainName, [], statements, (Token.extent tokens).getD Span.origin⟩

/-- The story that tokens tell. There is always a section. -/
def parse (tokens : List Token) : Parsed :=
  let (before, rest) := windows (tokens.takeWhile (·.kind ≠ .eof))
  let block := parseBlock [] [] before
  if rest.isEmpty then
    ⟨⟨[mainSection block.statements before]⟩, block.diagnostics ++ looseTags block.dangling⟩
  else
    let main := if before.any Token.isContent then [mainSection block.statements before] else []
    let named := parseWindows block.dangling rest
    let sections := main ++ named.1
    ⟨⟨if sections.isEmpty then [mainSection [] []] else sections⟩, block.diagnostics ++ named.2⟩

end StoryScript

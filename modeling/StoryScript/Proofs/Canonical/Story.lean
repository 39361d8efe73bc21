import StoryScript.Story
/-!
# Canonical stories

A canonical story is a tree of sections and statements whose names and texts are made of words.
`Story.render` writes it down row by row, two spaces a level, and `Story.tree` is the story that was
meant. Places are no part of what is meant: `unplaced` takes them out of a story.
-/

namespace StoryScript

/-! ## Stories without places -/

/-- A tag, wherever it stands. -/
def Tag.unplaced (t : Tag) : Tag := { t with span := Span.origin }

/-- A segment without its place. -/
def Segment.unplaced : Segment → Segment
  | text t _ => text t Span.origin
  | inlineCall name args _ => inlineCall name args Span.origin

/-- A choice without the places of its parts. -/
def Choice.unplaced (c : Choice) : Choice :=
  { c with
    segments := c.segments.map Segment.unplaced
    tags := c.tags.map Tag.unplaced
    choiceTags := c.choiceTags.map Tag.unplaced
    span := Span.origin }

mutual

/-- A statement without the places of its parts, at any depth. -/
def Statement.unplaced : Statement → Statement
  | goto g => goto { g with tags := g.tags.map Tag.unplaced, span := Span.origin }
  | call c => call { c with tags := c.tags.map Tag.unplaced, span := Span.origin }
  | replica r =>
    replica
      { r with
        segments := r.segments.map Segment.unplaced
        tags := r.tags.map Tag.unplaced
        span := Span.origin }
  | choice c none => choice c.unplaced none
  | choice c (some body) => choice c.unplaced (some (unplacedAll body))

/-- Statements in a row without the places of their parts. -/
def Statement.unplacedAll : List Statement → List Statement
  | [] => []
  | s :: ss => s.unplaced :: unplacedAll ss

end

/-- A section without the places of its parts. -/
def Section.unplaced (s : Section) : Section :=
  ⟨s.name, s.tags.map Tag.unplaced, Statement.unplacedAll s.statements, Span.origin⟩

/-- A story without any places. -/
def Story.unplaced (s : Story) : Story := ⟨s.sections.map Section.unplaced⟩

namespace Canonical

/-! ## Trees -/

/-- Letters and digits of ASCII, at least one. -/
structure Word where
  chars : List Char
  ne_nil : chars ≠ []
  alphanumeric : ∀ c ∈ chars, c.isAlphanum

/-- The text of a word. -/
def Word.text (w : Word) : String := String.ofList w.chars

/-- Words on one line, with single spaces between them. -/
structure Phrase where
  first : Word
  others : List Word

/-- The line as it is written. -/
def Phrase.chars (p : Phrase) : List Char := p.first.chars ++ p.others.flatMap (' ' :: ·.chars)

/-- A name, and a value or none. -/
structure Mark where
  name : Word
  value : Option Word

/-- What can stand before a choice. -/
inductive Label where
  | tag (mark : Mark)
  | choiceTag (mark : Mark)

/-- A statement that holds no others, its tags aside. -/
inductive Leaf where
  | goto (target : Word)
  | call (name firstArg : Word) (otherArgs : List Word)
  | replica (firstLine : Phrase) (otherLines : List Phrase)

/-- A statement with what stands before it. A choice without a body has the empty one. -/
inductive Statement where
  | leaf (tags : List Mark) (leaf : Leaf)
  | choice (labels : List Label) (text : Option Phrase) (body : List Statement)

/-- A section with the tags before its header. -/
structure Section where
  tags : List Mark
  name : Word
  statements : List Statement

/-- One or more sections. -/
structure Story where
  first : Section
  others : List Section

/-- All sections in their order. -/
def Story.sections (s : Story) : List Section := s.first :: s.others

/-! ## What is meant -/

/-- A value keeps the space before it. -/
def Mark.value? (m : Mark) : Option String := m.value.map fun w => String.ofList (' ' :: w.chars)

/-- The tag of a mark. -/
def Mark.tag (m : Mark) : Tag := ⟨m.name.text, m.value?, Span.origin⟩

/-- The choice tag of a mark, whose name keeps the second sign. -/
def Mark.choiceTag (m : Mark) : Tag := ⟨String.ofList ('@' :: m.name.chars), m.value?, Span.origin⟩

/-- The tag that a label is. -/
def Label.tag? : Label → Option Tag
  | tag m => some m.tag
  | choiceTag _ => none

/-- The choice tag that a label is. -/
def Label.choiceTag? : Label → Option Tag
  | tag _ => none
  | choiceTag m => some m.choiceTag

/-- A text that is one segment. -/
def plainSegments (text : String) : List Segment := [.text text Span.origin]

/-- The lines of a replica with line feeds between them. -/
def replicaText (first : Phrase) (others : List Phrase) : List Char :=
  first.chars ++ others.flatMap ('\n' :: ·.chars)

/-- The statement that a leaf is under some tags. -/
def Leaf.tree (tags : List Tag) : Leaf → StoryScript.Statement
  | goto target => .goto ⟨target.text, tags, Span.origin⟩
  | call name first others =>
    .call ⟨name.text, (first :: others).map Word.text, tags, Span.origin⟩
  | replica first others =>
    let text := String.ofList (replicaText first others)
    .replica ⟨text, plainSegments text, tags, Span.origin⟩

/-- A choice without its body. Its text keeps the space before it. -/
def choiceTree (labels : List Label) (text : Option Phrase) : Choice :=
  let inlineText := text.map fun p => String.ofList (' ' :: p.chars)
  ⟨inlineText, none, (inlineText.map plainSegments).getD [], labels.filterMap Label.tag?,
    labels.filterMap Label.choiceTag?, Span.origin⟩

mutual

/-- The statement that was meant. -/
def Statement.tree : Statement → StoryScript.Statement
  | leaf tags l => l.tree (tags.map Mark.tag)
  | choice labels text body =>
    .choice (choiceTree labels text) (if body.isEmpty then none else some (trees body))

/-- The statements that were meant. -/
def Statement.trees : List Statement → List StoryScript.Statement
  | [] => []
  | s :: ss => s.tree :: trees ss

end

/-- The section that was meant. -/
def Section.tree (s : Section) : StoryScript.Section :=
  ⟨s.name.text, s.tags.map Mark.tag, Statement.trees s.statements, Span.origin⟩

/-- The story that was meant. -/
def Story.tree (s : Story) : StoryScript.Story := ⟨s.sections.map Section.tree⟩

/-! ## How it is written -/

/-- What stands on a line of its own, or on the lines of a replica. -/
inductive Row where
  | label (label : Label)
  | header (name : Word)
  | leaf (leaf : Leaf)
  | choice (text : Option Phrase)

/-- What is written behind the name of a mark. -/
def Mark.valueChars (m : Mark) : List Char := (m.value.map fun w => ' ' :: w.chars).getD []

/-- A mark behind its sign. -/
def Mark.chars (m : Mark) : List Char := m.name.chars ++ m.valueChars

/-- `@name value` or `@@name value`. -/
def Label.chars : Label → List Char
  | tag m => '@' :: m.chars
  | choiceTag m => '@' :: '@' :: m.chars

/-- The lines of a leaf, without what indents them. -/
def Leaf.lines : Leaf → List (List Char)
  | goto target => ["-> ".toList ++ target.chars]
  | call name first others =>
    ["@call:".toList ++ name.chars ++ '(' :: first.chars ++
      others.flatMap (',' :: ' ' :: ·.chars) ++ [')']]
  | replica first others => ("\" ".toList ++ first.chars) :: others.map Phrase.chars

/-- The lines of a row, without what indents them. -/
def Row.lines : Row → List (List Char)
  | label l => [l.chars]
  | header name => ["== ".toList ++ name.chars]
  | leaf l => l.lines
  | choice text => ['+' :: (text.map fun p => ' ' :: p.chars).getD []]

/-- Two spaces a level. -/
def indent (level : Nat) : List Char := List.replicate (2 * level) ' '

/-- Lines at a level. -/
def linesAt (level : Nat) (lines : List (List Char)) : List Char :=
  lines.flatMap fun line => indent level ++ line ++ ['\n']

/-- Labels, each in a row of its own. -/
def labelRows (level : Nat) (labels : List Label) : List (Nat × Row) :=
  labels.map fun l => (level, .label l)

mutual

/-- The rows of a statement at a level, those before it first. -/
def Statement.rows (level : Nat) : Statement → List (Nat × Row)
  | leaf tags l => labelRows level (tags.map .tag) ++ [(level, .leaf l)]
  | choice labels text body =>
    labelRows level labels ++ (level, .choice text) :: rowsOf (level + 1) body

/-- The rows of statements one after the other. -/
def Statement.rowsOf (level : Nat) : List Statement → List (Nat × Row)
  | [] => []
  | s :: ss => s.rows level ++ rowsOf level ss

end

/-- The rows of a section, none of which is indented but those of bodies. -/
def Section.rows (s : Section) : List (Nat × Row) :=
  labelRows 0 (s.tags.map .tag) ++ (0, .header s.name) :: Statement.rowsOf 0 s.statements

/-- Rows as they are written, each at its level. -/
def written (rows : List (Nat × Row)) : List Char := rows.flatMap fun r => linesAt r.1 r.2.lines

/-- The story as it is written. -/
def Story.render (s : Story) : String := String.ofList (written (s.sections.flatMap Section.rows))

end Canonical

end StoryScript

import StoryScript.Export.Json
import StoryScript.Export.MessagePack
import StoryScript.Export.Options
import StoryScript.Issue
import StoryScript.Story
/-!
# Exported documents

A document is a story and its issues under a heading. Its shape says which fields its value has: the
simple shape drops positions and keeps one text of a choice.
-/

namespace StoryScript.Export

/-- A story and its issues as they are exported. Nothing forces the heading to tell the version and
the shape that the rest has: `current` gives documents that do. -/
structure Document where
  /-- The version of the layout, by the heading. -/
  version : String
  /-- When, by the clock of the exporter. -/
  exportedAt : String
  /-- The shape, by the heading. -/
  format : Shape
  /-- The shape of what follows. -/
  shape : Shape
  issues : List Issue
  sections : List Section

/-- The version of the layout of documents. -/
def layoutVersion : String := "1.0.0"

/-- A document of this layout, whose heading tells its shape. -/
def Document.current (now : String) (shape : Shape) (issues : List Issue)
    (sections : List Section) : Document :=
  ⟨layoutVersion, now, shape, shape, issues, sections⟩

/-! ## Parts -/

/-- A position as three numbers. -/
def positionValue (p : Position) : Value :=
  let w := p.words
  .object [("offset", .number w.1), ("line", .number w.2.1.toUInt64),
    ("column", .number w.2.2.toUInt64)]

/-- A span as its two ends. -/
def spanValue (s : Span) : Value :=
  .object [("start", positionValue s.start), ("end", positionValue s.stop)]

/-- The field that keeps a position, which only the full shape has. -/
def spanField (shape : Shape) (span : Option Span) : List (String × Value) :=
  match shape with
  | .simple => []
  | .full => [("span", (span.map spanValue).getD .null)]

/-- An issue. -/
def issueValue (shape : Shape) (i : Issue) : Value :=
  .object ([("kind", .string i.severity.name), ("message", .string i.message)] ++
    spanField shape i.span)

/-- A tag. -/
def tagValue (shape : Shape) (t : Tag) : Value :=
  .object ([("name", .string t.name), ("value", .ofOption t.value)] ++ spanField shape t.span)

/-- A field of tags. -/
def tagsField (shape : Shape) (name : String) (tags : List Tag) : String × Value :=
  (name, .array (tags.map (tagValue shape)))

/-- A segment, which says first what it is. -/
def segmentValue (shape : Shape) : Segment → Value
  | .text text span =>
    .object ([("type", .string "text"), ("text", .string text)] ++ spanField shape span)
  | .inlineCall name args span =>
    .object ([("type", .string "inline_call"), ("name", .string name), ("args", .strings args)] ++
      spanField shape span)

/-- The field of segments. -/
def segmentsField (shape : Shape) (segments : List Segment) : String × Value :=
  ("segments", .array (segments.map (segmentValue shape)))

/-- The text of a choice: two fields in the full shape, one in the simple. -/
def choiceTextFields (shape : Shape) (c : Choice) : List (String × Value) :=
  match shape with
  | .simple => [("choice_text", .string (c.text?.getD ""))]
  | .full => [("inline_text", .ofOption c.inlineText), ("block_text", .ofOption c.blockText)]

mutual

/-- A statement, which says first what it is. -/
def statementValue (shape : Shape) : Statement → Value
  | .goto g =>
    .object ([("type", .string "goto"), ("target", .string g.target),
      tagsField shape "tags" g.tags] ++ spanField shape g.span)
  | .call c =>
    .object ([("type", .string "call"), ("name", .string c.name), ("args", .strings c.args),
      tagsField shape "tags" c.tags] ++ spanField shape c.span)
  | .replica r =>
    .object ([("type", .string "replica"), ("text", .string r.text),
      segmentsField shape r.segments, tagsField shape "tags" r.tags] ++ spanField shape r.span)
  | .choice c body =>
    .object ([("type", .string "choice")] ++ choiceTextFields shape c ++
      [segmentsField shape c.segments, tagsField shape "tags" c.tags,
        tagsField shape "choice_tags" c.choiceTags, ("body", bodyValue shape body)] ++
      spanField shape c.span)

/-- The body of a choice, if it has one. -/
def bodyValue (shape : Shape) : Option (List Statement) → Value
  | none => .null
  | some body => .array (statementValues shape body)

/-- Statements in a row. -/
def statementValues (shape : Shape) : List Statement → List Value
  | [] => []
  | s :: ss => statementValue shape s :: statementValues shape ss

end

/-- A section. -/
def sectionValue (shape : Shape) (s : Section) : Value :=
  .object ([("name", .string s.name), tagsField shape "tags" s.tags,
    ("statements", .array (statementValues shape s.statements))] ++ spanField shape s.span)

/-! ## The whole -/

namespace Document

/-- A document as a value. -/
def value (d : Document) : Value :=
  .object [
    ("metadata", .object [("version", .string d.version), ("exported_at", .string d.exportedAt),
      ("format", .string d.format.name), ("issues", .array (d.issues.map (issueValue d.shape)))]),
    ("sections", .array (d.sections.map (sectionValue d.shape)))]

/-- A document as bytes. -/
def encode (d : Document) (encoding : Encoding) (pretty : Bool) : ByteArray :=
  match encoding with
  | .json => (Json.render pretty d.value).toUTF8
  | .messagePack => (MessagePack.write d.value).toByteArray

end Document

end StoryScript.Export

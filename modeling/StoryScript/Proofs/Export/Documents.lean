import StoryScript.Export.Document
import StoryScript.Proofs.Export.Json
import StoryScript.Proofs.Export.MessagePack
import StoryScript.Proofs.Story.Segments
import StoryScript.Proofs.Story.Spans
import StoryScript.Proofs.Story.Tags
/-!
# Reading documents

Fields are found by their names (`Value.field?`), and a field that may be null may be missing. By
these rules a document of the full shape is read back from its value (`ofValue?_value`). Positions
come back as they were written down, and those that fit are as they were. So every encoding holds the
value of a document, and that of a full document holds all of it (`lossless_encode`).
-/

namespace StoryScript

namespace Export

/-! ## Fields -/

namespace Value

/-- What a field of an object holds. -/
def field? (name : String) : Value → Option Value
  | .object fields => fields.lookup name
  | _ => none

/-- A text. -/
def text? : Value → Option String
  | .string s => some s
  | _ => none

/-- A number. -/
def number? : Value → Option Nat
  | .number n => some n.toNat
  | _ => none

/-- The items of an array. -/
def items? : Value → Option (List Value)
  | .array items => some items
  | _ => none

section
variable {α : Type} (read : Value → Option α)

/-- A field. -/
def get? (name : String) (v : Value) : Option α := (v.field? name).bind read

/-- A field that may be null or missing. -/
def getOptional? (name : String) (v : Value) : Option (Option α) :=
  match v.field? name with
  | none | some .null => some none
  | some w => (read w).map some

/-- A field that holds a list. -/
def getList? (name : String) (v : Value) : Option (List α) :=
  v.get? (fun w => w.items?.bind (·.mapM read)) name

end

end Value

/-! ## Parts -/

/-- A position of a 64-bit offset and a line and a column of 32 bits. -/
def position? (v : Value) : Option Position := do
  let offset ← v.get? Value.number? "offset"
  let line ← v.get? Value.number? "line"
  let column ← v.get? Value.number? "column"
  if line < 2 ^ 32 ∧ column < 2 ^ 32 then some ⟨offset, line, column⟩ else none

/-- A span of two positions. -/
def span? (v : Value) : Option Span := do
  return ⟨← v.get? position? "start", ← v.get? position? "end"⟩

/-- The severity that a word stands for. -/
def severity? (v : Value) : Option Severity :=
  match v.text? with
  | some "error" => some .error
  | some "warning" => some .warning
  | _ => none

/-- The shape that a word stands for. -/
def shape? (v : Value) : Option Shape :=
  match v.text? with
  | some "simple" => some .simple
  | some "full" => some .full
  | _ => none

/-- An issue, with a span or with none. -/
def issue? (v : Value) : Option Issue := do
  return ⟨← v.get? severity? "kind", ← v.get? Value.text? "message", ← v.getOptional? span? "span"⟩

/-- A tag, with a value or with none. -/
def tag? (v : Value) : Option Tag := do
  return ⟨← v.get? Value.text? "name", ← v.getOptional? Value.text? "value", ← v.get? span? "span"⟩

/-- A segment of the kind that it says first. -/
def segment? (v : Value) : Option Segment := do
  match ← v.get? Value.text? "type" with
  | "text" => return .text (← v.get? Value.text? "text") (← v.get? span? "span")
  | "inline_call" =>
    return .inlineCall (← v.get? Value.text? "name") (← v.getList? Value.text? "args")
      (← v.get? span? "span")
  | _ => none

/-- A statement whose body, if it is a choice, has been read already. -/
def statementOf? (body : Option (Option (List Statement))) (v : Value) : Option Statement := do
  match ← v.get? Value.text? "type" with
  | "goto" =>
    return .goto ⟨← v.get? Value.text? "target", ← v.getList? tag? "tags", ← v.get? span? "span"⟩
  | "call" =>
    return .call ⟨← v.get? Value.text? "name", ← v.getList? Value.text? "args",
      ← v.getList? tag? "tags", ← v.get? span? "span"⟩
  | "replica" =>
    return .replica ⟨← v.get? Value.text? "text", ← v.getList? segment? "segments",
      ← v.getList? tag? "tags", ← v.get? span? "span"⟩
  | "choice" =>
    return .choice ⟨← v.getOptional? Value.text? "inline_text",
      ← v.getOptional? Value.text? "block_text", ← v.getList? segment? "segments",
      ← v.getList? tag? "tags", ← v.getList? tag? "choice_tags", ← v.get? span? "span"⟩ (← body)
  | _ => none

mutual

/-- A statement and, if it is a choice, its body. -/
def statement? : Value → Option Statement
  | .object fields => statementOf? (bodyIn? fields) (.object fields)
  | _ => none

/-- The body among the fields of a choice. -/
def bodyIn? : List (String × Value) → Option (Option (List Statement))
  | [] => some none
  | (name, v) :: fields => if name = "body" then body? v else bodyIn? fields

/-- The body of a choice, which can be null. -/
def body? : Value → Option (Option (List Statement))
  | .null => some none
  | .array items => (statements? items).map some
  | _ => none

/-- Statements in a row. -/
def statements? : List Value → Option (List Statement)
  | [] => some []
  | v :: vs => do return (← statement? v) :: (← statements? vs)

end

/-- A section. -/
def section? (v : Value) : Option Section := do
  return ⟨← v.get? Value.text? "name", ← v.getList? tag? "tags",
    ← v.get? (fun w => w.items?.bind statements?) "statements", ← v.get? span? "span"⟩

/-- A document of the full shape. -/
def Document.ofValue? (v : Value) : Option Document := do
  let metadata ← v.field? "metadata"
  return ⟨← metadata.get? Value.text? "version", ← metadata.get? Value.text? "exported_at",
    ← metadata.get? shape? "format", .full, ← metadata.getList? issue? "issues",
    ← v.getList? section? "sections"⟩

/-! ## Parts are read back -/

section
variable {α β : Type} {read : Value → Option α} {write : β → Value} {f : β → α} {v : Value}
  {name : String}

theorem get?_eq {w : Value} {a : α} (h : v.field? name = some w) (hr : read w = some a) :
    v.get? read name = some a := by
  rw [Value.get?, h, Option.bind_some, hr]

theorem getOptional?_eq {b : Option β} (h : v.field? name = some ((b.map write).getD .null))
    (hne : ∀ b, write b ≠ .null) (hr : ∀ b, read (write b) = some (f b)) :
    v.getOptional? read name = some (b.map f) := by
  cases b with
  | none => simp [Value.getOptional?, h]
  | some b =>
    have hnull := hne b
    simp only [Option.map_some, Option.getD_some] at h
    unfold Value.getOptional?
    rw [h]
    split
    · next hn => cases hn
    · next hn => exact absurd (Option.some.inj hn) hnull
    · next hw =>
      obtain rfl := Option.some.inj hw
      rw [hr]
      rfl

theorem mapM_map_some (hr : ∀ b, read (write b) = some (f b)) (bs : List β) :
    (bs.map write).mapM read = some (bs.map f) := by
  induction bs with
  | nil => rfl
  | cons b bs ih => simp [List.mapM_cons, hr, ih]

theorem getList?_eq {bs : List β} (h : v.field? name = some (.array (bs.map write)))
    (hr : ∀ b, read (write b) = some (f b)) : v.getList? read name = some (bs.map f) :=
  get?_eq h (mapM_map_some hr bs)

end

theorem textAt {v : Value} {name s : String} (h : v.field? name = some (.string s)) :
    v.get? Value.text? name = some s :=
  get?_eq h rfl

theorem numberAt {v : Value} {name : String} {n : UInt64} (h : v.field? name = some (.number n)) :
    v.get? Value.number? name = some n.toNat :=
  get?_eq h rfl

theorem optionalTextAt {v : Value} {name : String} {s : Option String}
    (h : v.field? name = some (.ofOption s)) : v.getOptional? Value.text? name = some s := by
  rw [getOptional?_eq h (fun _ => nofun) (f := id) (fun _ => rfl), Option.map_id]
  rfl

theorem textsAt {v : Value} {name : String} {ss : List String}
    (h : v.field? name = some (.strings ss)) : v.getList? Value.text? name = some ss := by
  rw [getList?_eq h (f := id) (fun _ => rfl), List.map_id]

theorem position?_positionValue (p : Position) : position? (positionValue p) = some p.wrapped := by
  have hline : p.words.2.1.toNat < 2 ^ 32 := UInt32.toNat_lt _
  have hcolumn : p.words.2.2.toNat < 2 ^ 32 := UInt32.toNat_lt _
  rw [position?, numberAt (by rfl), numberAt (by rfl), numberAt (by rfl)]
  simp only [Option.bind_eq_bind, Option.bind_some, UInt32.toNat_toUInt64, hline, hcolumn, and_self,
    if_true]
  rfl

theorem positionAt {v : Value} {name : String} {p : Position}
    (h : v.field? name = some (positionValue p)) : v.get? position? name = some p.wrapped :=
  get?_eq h (position?_positionValue p)

theorem span?_spanValue (s : Span) : span? (spanValue s) = some s.wrapped := by
  rw [span?, positionAt (by rfl), positionAt (by rfl)]
  rfl

theorem spanAt {v : Value} {name : String} {s : Span} (h : v.field? name = some (spanValue s)) :
    v.get? span? name = some s.wrapped :=
  get?_eq h (span?_spanValue s)

theorem severity?_name (s : Severity) : severity? (.string s.name) = some s := by
  cases s <;> rfl

theorem shape?_name (s : Shape) : shape? (.string s.name) = some s := by
  cases s <;> rfl

theorem issue?_issueValue (i : Issue) :
    issue? (issueValue .full i) = some { i with span := i.span.map Span.wrapped } := by
  have hkind : (issueValue .full i).get? severity? "kind" = some i.severity :=
    get?_eq rfl (severity?_name i.severity)
  have hspan : (issueValue .full i).getOptional? span? "span" = some (i.span.map Span.wrapped) :=
    getOptional?_eq rfl (fun _ => nofun) span?_spanValue
  rw [issue?, hkind, textAt (by rfl), hspan]
  rfl

theorem tag?_tagValue (t : Tag) : tag? (tagValue .full t) = some (t.mapSpan Span.wrapped) := by
  rw [tag?, textAt (by rfl), optionalTextAt (by rfl), spanAt (by rfl)]
  rfl

theorem tagsAt {v : Value} {name : String} {tags : List Tag}
    (h : v.field? name = some (.array (tags.map (tagValue .full)))) :
    v.getList? tag? name = some (tags.map (Tag.mapSpan Span.wrapped)) :=
  getList?_eq h tag?_tagValue

theorem segment?_segmentValue (s : Segment) :
    segment? (segmentValue .full s) = some (s.mapSpan Span.wrapped) := by
  cases s with
  | text said span =>
    rw [segment?, textAt (by rfl)]
    simp only [Option.bind_eq_bind, Option.bind_some]
    rw [textAt (by rfl), spanAt (by rfl)]
    rfl
  | inlineCall name args span =>
    rw [segment?, textAt (by rfl)]
    simp only [Option.bind_eq_bind, Option.bind_some]
    rw [textAt (by rfl), textsAt (by rfl), spanAt (by rfl)]
    rfl

theorem segmentsAt {v : Value} {name : String} {segments : List Segment}
    (h : v.field? name = some (.array (segments.map (segmentValue .full)))) :
    v.getList? segment? name = some (segments.map (Segment.mapSpan Span.wrapped)) :=
  getList?_eq h segment?_segmentValue

/-! ## Statements are read back -/

theorem statementOf?_choice (c : Choice) (body read : Option (List Statement)) :
    statementOf? (some read) (statementValue .full (.choice c body)) =
      some (.choice (c.mapSpans Span.wrapped) read) := by
  rw [statementOf?, textAt (by rfl)]
  simp only [Option.bind_eq_bind, Option.bind_some]
  rw [optionalTextAt (by rfl), optionalTextAt (by rfl), segmentsAt (by rfl), tagsAt (by rfl),
    tagsAt (by rfl), spanAt (by rfl)]
  rfl

mutual

theorem statement?_statementValue : (s : Statement) →
    statement? (statementValue .full s) = some (s.mapSpans Span.wrapped)
  | .goto g => by
    change statementOf? _ (statementValue .full (.goto g)) = _
    rw [statementOf?, textAt (by rfl)]
    simp only [Option.bind_eq_bind, Option.bind_some]
    rw [textAt (by rfl), tagsAt (by rfl), spanAt (by rfl)]
    rfl
  | .call c => by
    change statementOf? _ (statementValue .full (.call c)) = _
    rw [statementOf?, textAt (by rfl)]
    simp only [Option.bind_eq_bind, Option.bind_some]
    rw [textAt (by rfl), textsAt (by rfl), tagsAt (by rfl), spanAt (by rfl)]
    rfl
  | .replica r => by
    change statementOf? _ (statementValue .full (.replica r)) = _
    rw [statementOf?, textAt (by rfl)]
    simp only [Option.bind_eq_bind, Option.bind_some]
    rw [textAt (by rfl), segmentsAt (by rfl), tagsAt (by rfl), spanAt (by rfl)]
    rfl
  | .choice c none => statementOf?_choice c none none
  | .choice c (some body) => by
    -- The fields are searched for the body first: the list under that name is the choice's own.
    change statementOf? ((statements? (statementValues .full body)).map some)
      (statementValue .full (.choice c (some body))) = _
    rw [statements?_statementValues body]
    exact statementOf?_choice c (some body) _

theorem statements?_statementValues : (ss : List Statement) →
    statements? (statementValues .full ss) = some (Statement.mapAllSpans Span.wrapped ss)
  | [] => rfl
  | s :: ss => by
    rw [statementValues, statements?, statement?_statementValue s, statements?_statementValues ss]
    rfl

end

theorem section?_sectionValue (s : Section) : section? (sectionValue .full s) =
    some (s.mapSpans Span.wrapped) := by
  have hstatements : (sectionValue .full s).get? (fun w => w.items?.bind statements?) "statements" =
      some (Statement.mapAllSpans Span.wrapped s.statements) :=
    get?_eq rfl (statements?_statementValues s.statements)
  rw [section?, textAt (by rfl), tagsAt (by rfl), hstatements, spanAt (by rfl)]
  rfl

theorem Document.ofValue?_value {d : Document} (hshape : d.shape = .full) :
    ofValue? d.value = some { d with
      issues := d.issues.map fun i => { i with span := i.span.map Span.wrapped }
      sections := d.sections.map (Section.mapSpans Span.wrapped) } := by
  obtain ⟨version, exportedAt, format, shape, issues, sections⟩ := d
  obtain rfl : shape = .full := hshape
  have hmetadata :
      (Document.mk version exportedAt format .full issues sections).value.field? "metadata" =
        some (.object [("version", .string version), ("exported_at", .string exportedAt),
          ("format", .string format.name),
          ("issues", .array (issues.map (issueValue .full)))]) := rfl
  simp only [ofValue?, hmetadata, Option.bind_eq_bind, Option.bind_some]
  rw [textAt (by rfl), textAt (by rfl), get?_eq (by rfl) (shape?_name format),
    getList?_eq (by rfl) issue?_issueValue, getList?_eq (by rfl) section?_sectionValue]
  rfl

end Export

/-! ## Places that are kept -/

/-- A position with an offset of 64 bits and a line and a column of 32 bits. -/
def Position.InWords (p : Position) : Prop :=
  p.offset < 2 ^ 64 ∧ p.line < 2 ^ 32 ∧ p.column < 2 ^ 32

instance : DecidablePred Position.InWords := fun _ => inferInstanceAs (Decidable (_ ∧ _ ∧ _))

/-- A span whose ends are such positions. -/
def Span.InWords (s : Span) : Prop := s.start.InWords ∧ s.stop.InWords

instance : DecidablePred Span.InWords := fun _ => inferInstanceAs (Decidable (_ ∧ _))

theorem Position.InWords.wrapped_eq {p : Position} (h : p.InWords) : p.wrapped = p := by
  obtain ⟨hoffset, hline, hcolumn⟩ := h
  rw [wrapped, words]
  simp only [Nat.toUInt64_eq, Nat.toUInt32_eq, UInt64.toNat_ofNat_of_lt' hoffset,
    UInt32.toNat_ofNat_of_lt' hline, UInt32.toNat_ofNat_of_lt' hcolumn]

theorem Span.InWords.wrapped_eq {s : Span} (h : s.InWords) : s.wrapped = s := by
  rw [wrapped, h.1.wrapped_eq, h.2.wrapped_eq]

/-- The spans of a statement and its parts, those of its body apart. -/
def Statement.spans (s : Statement) : List Span :=
  s.span :: (s.segments.map Segment.span ++ (s.tags ++ s.choiceTags).map Tag.span)

/-- The spans of a section and all it holds. -/
def Section.spans (s : Section) : List Span :=
  s.span :: (s.tags.map Tag.span ++ s.preorder.flatMap Statement.spans)

section
variable {f : Span → Span}

theorem Tag.map_mapSpan_eq_self {tags : List Tag} (h : ∀ x ∈ tags.map Tag.span, f x = x) :
    tags.map (Tag.mapSpan f) = tags := by
  have hself : ∀ t ∈ tags, t.mapSpan f = t := by
    intro t ht
    rw [mapSpan, h _ (List.mem_map_of_mem ht)]
  rw [List.map_congr_left hself, List.map_id']

theorem Segment.map_mapSpan_eq_self {segments : List Segment}
    (h : ∀ x ∈ segments.map Segment.span, f x = x) : segments.map (Segment.mapSpan f) = segments := by
  have hself : ∀ s ∈ segments, s.mapSpan f = s := by
    intro s hs
    have hspan := h _ (List.mem_map_of_mem hs)
    cases s with
    | text said span => exact congrArg (Segment.text said) hspan
    | inlineCall name args span => exact congrArg (Segment.inlineCall name args) hspan
  rw [List.map_congr_left hself, List.map_id']

theorem Choice.mapSpans_eq_self {c : Choice} {body : Option (List Statement)}
    (h : ∀ x ∈ (Statement.choice c body).spans, f x = x) : c.mapSpans f = c := by
  rw [Statement.spans, List.map_append, List.forall_mem_cons, List.forall_mem_append,
    List.forall_mem_append] at h
  obtain ⟨hspan, hsegments, htags, hchoiceTags⟩ := h
  dsimp only [Statement.span, Statement.segments, Statement.tags, Statement.choiceTags] at *
  rw [mapSpans, Segment.map_mapSpan_eq_self hsegments, Tag.map_mapSpan_eq_self htags,
    Tag.map_mapSpan_eq_self hchoiceTags, hspan]

mutual

theorem Statement.mapSpans_eq_self : (s : Statement) →
    (∀ x ∈ s.preorder.flatMap Statement.spans, f x = x) → s.mapSpans f = s
  | .goto g, h => by
    rw [preorder, List.flatMap_singleton, spans, List.forall_mem_cons] at h
    dsimp only [span, segments, tags, choiceTags, List.map_nil, List.nil_append] at h
    rw [List.append_nil] at h
    rw [mapSpans, Goto.mapSpans, Tag.map_mapSpan_eq_self h.2, h.1]
  | .call c, h => by
    rw [preorder, List.flatMap_singleton, spans, List.forall_mem_cons] at h
    dsimp only [span, segments, tags, choiceTags, List.map_nil, List.nil_append] at h
    rw [List.append_nil] at h
    rw [mapSpans, Call.mapSpans, Tag.map_mapSpan_eq_self h.2, h.1]
  | .replica r, h => by
    rw [preorder, List.flatMap_singleton, spans, List.forall_mem_cons, List.forall_mem_append] at h
    dsimp only [span, segments, tags, choiceTags] at h
    rw [List.append_nil] at h
    rw [mapSpans, Replica.mapSpans, Segment.map_mapSpan_eq_self h.2.1,
      Tag.map_mapSpan_eq_self h.2.2, h.1]
  | .choice c none, h => by
    rw [preorder, List.flatMap_singleton] at h
    rw [mapSpans, Choice.mapSpans_eq_self h]
  | .choice c (some body), h => by
    rw [preorder, List.flatMap_cons, List.forall_mem_append] at h
    rw [mapSpans, Choice.mapSpans_eq_self h.1, mapAllSpans_eq_self body h.2]

theorem Statement.mapAllSpans_eq_self : (ss : List Statement) →
    (∀ x ∈ (preorders ss).flatMap Statement.spans, f x = x) → mapAllSpans f ss = ss
  | [], _ => rfl
  | s :: ss, h => by
    rw [preorders, List.flatMap_append, List.forall_mem_append] at h
    rw [mapAllSpans, mapSpans_eq_self s h.1, mapAllSpans_eq_self ss h.2]

end

theorem Section.mapSpans_eq_self {s : Section} (h : ∀ x ∈ s.spans, f x = x) : s.mapSpans f = s := by
  obtain ⟨hspan, hparts⟩ := List.forall_mem_cons.1 h
  obtain ⟨htags, hstatements⟩ := List.forall_mem_append.1 hparts
  rw [mapSpans, Tag.map_mapSpan_eq_self htags, Statement.mapAllSpans_eq_self s.statements hstatements,
    hspan]

end

/-! ## Documents are read back -/

namespace Export

/-- A document out of bytes. -/
def Encoding.decode : Encoding → ByteArray → Option Value
  | .json => Json.decode
  | .messagePack => MessagePack.decode

/-- Every span of a document. -/
def Document.spans (d : Document) : List Span :=
  d.sections.flatMap Section.spans ++ d.issues.filterMap Issue.span

/-- A document whose texts and lists are shorter than 2^32, with positions in words. -/
structure Document.Storable (d : Document) : Prop where
  fits : d.value.Fits
  inWords : ∀ s ∈ d.spans, s.InWords

theorem Encoding.decode_encode {d : Document} (h : d.value.Fits) (encoding : Encoding)
    (pretty : Bool) : encoding.decode (d.encode encoding pretty) = some d.value := by
  cases encoding with
  | json => exact Json.decode_render pretty d.value
  | messagePack => exact MessagePack.decode_write h

theorem Document.ofValue?_value_of_inWords {d : Document} (hshape : d.shape = .full)
    (h : ∀ s ∈ d.spans, s.InWords) : ofValue? d.value = some d := by
  have hissue : ∀ i ∈ d.issues, { i with span := i.span.map Span.wrapped } = i := by
    intro i hi
    obtain ⟨severity, message, span⟩ := i
    cases span with
    | none => rfl
    | some s =>
      have hs : s ∈ d.spans := List.mem_append_right _ (List.mem_filterMap.2 ⟨_, hi, rfl⟩)
      rw [Option.map_some, (h s hs).wrapped_eq]
  have hsection : ∀ s ∈ d.sections, s.mapSpans Span.wrapped = s := by
    intro s hs
    refine Section.mapSpans_eq_self fun x hx => (h x ?_).wrapped_eq
    exact List.mem_append_left _ (List.mem_flatMap.2 ⟨s, hs, hx⟩)
  rw [ofValue?_value hshape, List.map_congr_left hissue, List.map_congr_left hsection, List.map_id',
    List.map_id']

/-- Every encoding holds the value of a document, and the value of a full document holds the
document. -/
theorem lossless_encode {d : Document} (h : d.Storable) :
    (∀ (encoding : Encoding) (pretty : Bool),
      encoding.decode (d.encode encoding pretty) = some d.value) ∧
    (d.shape = .full → Document.ofValue? d.value = some d ∧
      ∀ d' : Document, d'.Storable → d'.shape = .full → ∀ encoding pretty pretty',
        d.encode encoding pretty = d'.encode encoding pretty' →
        d.sections = d'.sections ∧ d.issues = d'.issues) := by
  refine ⟨Encoding.decode_encode h.fits, fun hshape => ?_⟩
  have hread := Document.ofValue?_value_of_inWords hshape h.inWords
  -- Equal bytes are read as one value, and that value is read as one document.
  refine ⟨hread, fun d' h' hshape' encoding pretty pretty' hbytes => ?_⟩
  have hvalue : some d.value = some d'.value := by
    rw [← Encoding.decode_encode h.fits encoding pretty, hbytes,
      Encoding.decode_encode h'.fits encoding pretty']
  have hread' := Document.ofValue?_value_of_inWords hshape' h'.inWords
  rw [← Option.some.inj hvalue, hread, Option.some.injEq] at hread'
  rw [hread']
  exact ⟨rfl, rfl⟩

/-- A choice with a body, a text with marks and a line feed in it, and an issue. -/
def quotedDocument : Document :=
  let span : Span := ⟨⟨0, 1, 1⟩, ⟨300, 7, 70000⟩⟩
  let jump : Statement := .goto ⟨"é", [⟨"mood", some " \"dark\"", span⟩], span⟩
  let choice : Choice := ⟨some "a\\b\n", none, [.inlineCall "f" ["1", ""] span], [],
    [⟨"@once", none, span⟩], span⟩
  ⟨layoutVersion, "2024-01-01T00:00:00Z", .full, .full, [⟨.warning, "Empty replica text", some span⟩],
    [⟨"main", [], [.choice choice (some [jump]), .call ⟨"g", [], [], span⟩], span⟩]⟩

theorem lossless_encode_quotedDocument : quotedDocument.Storable ∧
    (∀ (encoding : Encoding) (pretty : Bool),
      encoding.decode (quotedDocument.encode encoding pretty) = some quotedDocument.value) ∧
    Document.ofValue? quotedDocument.value = some quotedDocument := by
  have h : quotedDocument.Storable := ⟨by decide, by decide⟩
  exact ⟨h, (lossless_encode h).1, ((lossless_encode h).2 rfl).1⟩

end Export

end StoryScript

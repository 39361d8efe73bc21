import StoryScript.Proofs.Canonical.Story
import StoryScript.Story.Validation
/-!
# Stories with other spans

The check of a story compares names and texts and hands spans on. So a change to all spans of a story
changes the spans of what is said about it, and nothing else (`validate_mapSpans`).
-/

namespace StoryScript

section
variable (f : Span → Span)

/-- A tag with another span. -/
def Tag.mapSpan (t : Tag) : Tag := { t with span := f t.span }

/-- A segment with another span. -/
def Segment.mapSpan : Segment → Segment
  | .text said span => .text said (f span)
  | .inlineCall name args span => .inlineCall name args (f span)

/-- A goto with other spans. -/
def Goto.mapSpans (g : Goto) : Goto := { g with tags := g.tags.map (Tag.mapSpan f), span := f g.span }

/-- A call with other spans. -/
def Call.mapSpans (c : Call) : Call := { c with tags := c.tags.map (Tag.mapSpan f), span := f c.span }

/-- A replica with other spans. -/
def Replica.mapSpans (r : Replica) : Replica :=
  { r with
    segments := r.segments.map (Segment.mapSpan f), tags := r.tags.map (Tag.mapSpan f)
    span := f r.span }

/-- A choice with other spans, its body aside. -/
def Choice.mapSpans (c : Choice) : Choice :=
  { c with
    segments := c.segments.map (Segment.mapSpan f), tags := c.tags.map (Tag.mapSpan f)
    choiceTags := c.choiceTags.map (Tag.mapSpan f), span := f c.span }

mutual

/-- A statement with another span for itself and for all it holds. -/
def Statement.mapSpans : Statement → Statement
  | .goto g => .goto (g.mapSpans f)
  | .call c => .call (c.mapSpans f)
  | .replica r => .replica (r.mapSpans f)
  | .choice c none => .choice (c.mapSpans f) none
  | .choice c (some body) => .choice (c.mapSpans f) (some (Statement.mapAllSpans body))

/-- Statements in a row with other spans. -/
def Statement.mapAllSpans : List Statement → List Statement
  | [] => []
  | s :: ss => Statement.mapSpans s :: Statement.mapAllSpans ss

end

/-- A section with other spans for itself and for all it holds. -/
def Section.mapSpans (s : Section) : Section :=
  { s with
    tags := s.tags.map (Tag.mapSpan f), statements := Statement.mapAllSpans f s.statements
    span := f s.span }

/-- A story with other spans. -/
def Story.mapSpans (story : Story) : Story := ⟨story.sections.map (Section.mapSpans f)⟩

/-- A diagnostic with another span. -/
def Diagnostic.mapSpan (d : Diagnostic) : Diagnostic := { d with span := f d.span }

/-! ## Names that occur twice -/

theorem groups_map {α β : Type} {key : α → String} {key' : β → String} {f : α → β}
    (hf : ∀ a, key' (f a) = key a) (seen : List String) (as : List α) :
    groups key' seen (as.map f) = (groups key seen as).map fun g => (f g.1, g.2) := by
  induction as generalizing seen with
  | nil => rfl
  | cons a as ih =>
    have hcount : (as.map f).countP (key' · == key a) = as.countP (key · == key a) := by
      rw [List.countP_map]
      refine List.countP_congr fun b _ => ?_
      simp [hf]
    rw [List.map_cons, groups, groups, hf, ih, ih, hcount]
    split <;> rfl

theorem repeats_map {α β : Type} {key : α → String} {key' : β → String} {f : α → β}
    (hf : ∀ a, key' (f a) = key a) (seen : List String) (as : List α) :
    repeats key' seen (as.map f) = (repeats key seen as).map f := by
  induction as generalizing seen with
  | nil => rfl
  | cons a as ih =>
    rw [List.map_cons, repeats, repeats, hf, ih, ih]
    split <;> rfl

theorem duplicateSections_mapSpans (sections : List Section) :
    duplicateSections (sections.map (Section.mapSpans f)) =
      (duplicateSections sections).map (Diagnostic.mapSpan f) := by
  have hkey : ∀ s : Section, (s.mapSpans f).key = s.key := fun _ => rfl
  unfold duplicateSections
  rw [groups_map hkey, List.filter_map, List.map_map, List.map_map]
  rfl

/-! ## Statements and sections -/

theorem Choice.findings_mapSpans (inSection : String) (hasBody : Bool) (c : Choice) :
    (c.mapSpans f).findings inSection hasBody =
      (c.findings inSection hasBody).map (Diagnostic.mapSpan f) := by
  have hrepeats : repeats (fun t : Tag => Text.lowercase t.name) []
      (c.choiceTags.map (Tag.mapSpan f)) =
        (repeats (fun t : Tag => Text.lowercase t.name) [] c.choiceTags).map (Tag.mapSpan f) :=
    repeats_map (fun _ => rfl) [] c.choiceTags
  have hdup : duplicateChoiceTags (c.mapSpans f) =
      (duplicateChoiceTags c).map (Diagnostic.mapSpan f) := by
    unfold duplicateChoiceTags
    rw [Choice.mapSpans, hrepeats, List.map_map, List.map_map]
    rfl
  unfold Choice.findings
  rw [hdup]
  simp only [List.map_append]
  congr 1
  congr 1
  · change (if c.inlineText.isSome && c.blockText.isSome then _ else _) = _
    split <;> rfl
  · change (if (c.text?.map (!Text.isBlankText ·)).getD false || hasBody then _ else _) = _
    split <;> rfl

theorem Statement.isEmpty_mapAllSpans (ss : List Statement) :
    (mapAllSpans f ss).isEmpty = ss.isEmpty := by
  cases ss <;> rfl

theorem Statement.findings_mapSpans (inSection : String) (s : Statement) :
    (s.mapSpans f).findings inSection = (s.findings inSection).map (Diagnostic.mapSpan f) := by
  cases s with
  | goto g => rfl
  | call c =>
    rw [mapSpans, findings, findings]
    change (if Text.isBlankText c.name then _ else _) = _
    split <;> rfl
  | replica r =>
    rw [mapSpans, findings, findings]
    change (if Text.isBlankText r.text then _ else _) = _
    split <;> rfl
  | choice c body =>
    cases body with
    | none => exact Choice.findings_mapSpans f inSection _ c
    | some body =>
      rw [mapSpans, findings, findings, Option.getD_some, Option.getD_some, isEmpty_mapAllSpans,
        Choice.findings_mapSpans]

mutual

theorem Statement.preorder_mapSpans :
    (s : Statement) → (s.mapSpans f).preorder = s.preorder.map (Statement.mapSpans f)
  | .goto g => rfl
  | .call c => rfl
  | .replica r => rfl
  | .choice c none => rfl
  | .choice c (some body) => by
    rw [Statement.mapSpans, Statement.preorder, Statement.preorder,
      Statement.preorders_mapAllSpans body, List.map_cons, Statement.mapSpans]

theorem Statement.preorders_mapAllSpans : (ss : List Statement) →
    Statement.preorders (Statement.mapAllSpans f ss) =
      (Statement.preorders ss).map (Statement.mapSpans f)
  | [] => rfl
  | s :: ss => by
    rw [Statement.mapAllSpans, Statement.preorders, Statement.preorders,
      Statement.preorder_mapSpans s, Statement.preorders_mapAllSpans ss, List.map_append]

end

theorem Section.preorder_mapSpans (s : Section) :
    (s.mapSpans f).preorder = s.preorder.map (Statement.mapSpans f) :=
  Statement.preorders_mapAllSpans f s.statements

theorem Section.findings_mapSpans (s : Section) :
    (s.mapSpans f).findings = s.findings.map (Diagnostic.mapSpan f) := by
  unfold findings
  rw [preorder_mapSpans, List.map_append, List.flatMap_map, List.map_flatMap]
  congr 1
  · change (if (Statement.mapAllSpans f s.statements).isEmpty then _ else _) = _
    rw [Statement.isEmpty_mapAllSpans]
    split <;> rfl
  · congr 1
    funext u
    exact Statement.findings_mapSpans f s.name u

/-! ## The whole story -/

theorem Story.gotos_mapSpans (story : Story) :
    (story.mapSpans f).gotos = story.gotos.map (Goto.mapSpans f) := by
  have hpre : (story.mapSpans f).preorder = story.preorder.map (Statement.mapSpans f) := by
    rw [preorder, preorder, mapSpans, List.flatMap_map, List.map_flatMap]
    congr 1
    funext s
    exact s.preorder_mapSpans f
  have hgoto : ∀ s : Statement, (s.mapSpans f).goto? = s.goto?.map (Goto.mapSpans f) := by
    intro s
    cases s with
    | choice c body => cases body <;> rfl
    | _ => rfl
  rw [gotos, gotos, hpre, List.filterMap_map, List.map_filterMap]
  congr 1
  funext s
  exact hgoto s

/-- A story with other spans has the same findings, at the other spans. -/
theorem validate_mapSpans (story : Story) :
    validate (story.mapSpans f) = (validate story).map (Diagnostic.mapSpan f) := by
  have hunknown : unknownTargets (story.mapSpans f) =
      (unknownTargets story).map (Diagnostic.mapSpan f) := by
    unfold unknownTargets
    rw [Story.gotos_mapSpans, Story.mapSpans]
    dsimp only
    rw [List.map_map, List.filter_map, List.map_map, List.map_map]
    rfl
  have hunreferenced : unreferencedSections (story.mapSpans f) =
      (unreferencedSections story).map (Diagnostic.mapSpan f) := by
    unfold unreferencedSections
    rw [Story.gotos_mapSpans, Story.mapSpans]
    dsimp only
    rw [List.map_map, List.filter_map, List.map_map, List.map_map]
    rfl
  unfold validate
  rw [hunknown, hunreferenced, Story.mapSpans, duplicateSections_mapSpans, List.flatMap_map]
  simp only [List.map_append, List.map_flatMap, Section.findings_mapSpans]

end

/-! ## Stories without places -/

theorem Segment.unplaced_eq_mapSpan : Segment.unplaced = Segment.mapSpan fun _ => Span.origin := by
  funext s
  cases s <;> rfl

theorem Choice.unplaced_eq_mapSpans (c : Choice) : c.unplaced = c.mapSpans fun _ => Span.origin := by
  rw [unplaced, Segment.unplaced_eq_mapSpan]
  rfl

mutual

theorem Statement.unplaced_eq_mapSpans :
    (s : Statement) → s.unplaced = s.mapSpans fun _ => Span.origin
  | .goto g => rfl
  | .call c => rfl
  | .replica r => by
    rw [Statement.unplaced, Segment.unplaced_eq_mapSpan]
    rfl
  | .choice c none => by
    rw [Statement.unplaced, Statement.mapSpans, Choice.unplaced_eq_mapSpans]
  | .choice c (some body) => by
    rw [Statement.unplaced, Statement.mapSpans, Choice.unplaced_eq_mapSpans,
      Statement.unplacedAll_eq_mapAllSpans body]

theorem Statement.unplacedAll_eq_mapAllSpans : (ss : List Statement) →
    Statement.unplacedAll ss = Statement.mapAllSpans (fun _ => Span.origin) ss
  | [] => rfl
  | s :: ss => by
    rw [Statement.unplacedAll, Statement.mapAllSpans, Statement.unplaced_eq_mapSpans s,
      Statement.unplacedAll_eq_mapAllSpans ss]

end

theorem Story.unplaced_eq_mapSpans (story : Story) :
    story.unplaced = story.mapSpans fun _ => Span.origin := by
  have hsection : Section.unplaced = Section.mapSpans fun _ => Span.origin := by
    funext s
    rw [Section.unplaced, Statement.unplacedAll_eq_mapAllSpans]
    rfl
  rw [unplaced, hsection]
  rfl

/-- A diagnostic, wherever it was made. -/
def Diagnostic.unplaced (d : Diagnostic) : Diagnostic := { d with span := Span.origin }

/-- What is found in a story does not depend on its places. -/
theorem validate_unplaced (story : Story) :
    validate story.unplaced = (validate story).map Diagnostic.unplaced := by
  rw [story.unplaced_eq_mapSpans, validate_mapSpans]
  rfl

end StoryScript

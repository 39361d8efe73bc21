import StoryScript.Export.Build
import StoryScript.Proofs.LineEnds.Check
/-!
# Line ends do not show

A simple export keeps no offset. So a source whose lines end with carriage returns and line feeds has
the tokens, the story, the issues and the simple export of the source whose lines end with line feeds
alone, up to offsets (`same_crlf`).
-/

namespace StoryScript

/-! ## Issues -/

/-- An issue without the offsets of its span. -/
def Issue.bare (i : Issue) : Issue := { i with span := i.span.map Span.bare }

/-- A rejection without the offsets of its first issue. -/
def Rejection.bare (r : Rejection) : Rejection := { r with first := r.first.bare }

theorem Diagnostic.issues_bare (ds : List Diagnostic) :
    (ds.map Diagnostic.bare).map Diagnostic.issue = (ds.map Diagnostic.issue).map Issue.bare := by
  rw [List.map_map, List.map_map]
  rfl

theorem Parsed.issues_bare (p : Parsed) : p.bare.issues = p.issues.map Issue.bare :=
  Diagnostic.issues_bare p.diagnostics

theorem Checked.issues_bare (c : Checked) : c.bare.issues = c.issues.map Issue.bare :=
  Diagnostic.issues_bare c.diagnostics

theorem Rejection.ofIssues?_bare (issues : List Issue) :
    ofIssues? (issues.map Issue.bare) = (ofIssues? issues).map Rejection.bare := by
  have herrors : errorCount (issues.map Issue.bare) = errorCount issues := by
    rw [errorCount, errorCount, List.countP_map]
    rfl
  have hwarnings : warningCount (issues.map Issue.bare) = warningCount issues := by
    rw [warningCount, warningCount, List.countP_map]
    rfl
  rw [ofIssues?, ofIssues?, List.find?_map, herrors, hwarnings, Option.map_map, Option.map_map]
  rfl

/-! ## Simple documents -/

namespace Export

theorem tagsField_bare (name : String) (tags : List Tag) :
    tagsField .simple name (tags.map Tag.bare) = tagsField .simple name tags := by
  rw [tagsField, tagsField, List.map_map]
  rfl

theorem segmentsField_bare (segments : List Segment) :
    segmentsField .simple (segments.map Segment.bare) = segmentsField .simple segments := by
  rw [segmentsField, segmentsField, List.map_map]
  congr 2
  refine List.map_congr_left fun s _ => ?_
  cases s <;> rfl

mutual

theorem statementValue_bare : (s : Statement) →
    statementValue .simple s.bare = statementValue .simple s
  | .goto g => by
    simp only [Statement.bare, Goto.bare, statementValue, tagsField_bare, spanField]
  | .call c => by
    simp only [Statement.bare, Call.bare, statementValue, tagsField_bare, spanField]
  | .replica r => by
    simp only [Statement.bare, Replica.bare, statementValue, tagsField_bare, segmentsField_bare,
      spanField]
  | .choice c none => by
    simp only [Statement.bare, Choice.bare, statementValue, bodyValue, tagsField_bare,
      segmentsField_bare, spanField, choiceTextFields, Choice.text?]
  | .choice c (some body) => by
    simp only [Statement.bare, Choice.bare, statementValue, bodyValue, tagsField_bare,
      segmentsField_bare, spanField, choiceTextFields, Choice.text?, statementValues_bare body]

theorem statementValues_bare : (ss : List Statement) →
    statementValues .simple (Statement.bares ss) = statementValues .simple ss
  | [] => rfl
  | s :: ss => by
    rw [Statement.bares, statementValues, statementValues, statementValue_bare s,
      statementValues_bare ss]

end

theorem sectionValue_bare (s : Section) :
    sectionValue .simple s.bare = sectionValue .simple s := by
  rw [sectionValue, sectionValue, Section.bare, tagsField_bare, statementValues_bare]
  rfl

/-- No offset stands in a simple document. -/
theorem Document.value_bare (now : String) (issues : List Issue) (sections : List Section) :
    (Document.current now .simple (issues.map Issue.bare) (sections.map Section.bare)).value =
      (Document.current now .simple issues sections).value := by
  have hissues : (issues.map Issue.bare).map (issueValue .simple) =
      issues.map (issueValue .simple) := by
    rw [List.map_map]
    rfl
  have hsections : (sections.map Section.bare).map (sectionValue .simple) =
      sections.map (sectionValue .simple) := by
    rw [List.map_map]
    exact List.map_congr_left fun s _ => sectionValue_bare s
  simp only [Document.current, Document.value, hissues, hsections]

/-! ## Simple exports -/

theorem bare_read (options : Options) {source source' : String}
    (h : (tokenize source').map Token.bare = (tokenize source).map Token.bare) :
    (read options source').bare = (read options source).bare := by
  have hcheck := bare_check h
  unfold read
  split
  · have hstory : (check source').story.bare = (check source).story.bare :=
      congrArg Checked.story hcheck
    have hsaid : (check source').diagnostics.map Diagnostic.bare =
        (check source).diagnostics.map Diagnostic.bare := congrArg Checked.diagnostics hcheck
    simp only [Parsed.bare, hstory, hsaid]
  · exact bare_parse h

/-- A simple export depends on what is read of the source up to offsets. -/
theorem encodeSource_bare (now : String) {options : Options} (source : String)
    (hshape : options.shape = .simple) :
    (encodeSource now options source).mapError Rejection.bare =
      match if options.strict then Rejection.ofIssues? (read options source).bare.issues else none with
      | some rejection => .error rejection
      | none => .ok ((Document.current now .simple (read options source).bare.issues
          (read options source).bare.story.sections).encode options.encoding options.pretty) := by
  -- both encodings are written from the value of the document
  have hencode : ∀ p : Parsed,
      (Document.current now .simple p.bare.issues p.bare.story.sections).encode
        options.encoding options.pretty =
      (Document.current now .simple p.issues p.story.sections).encode
        options.encoding options.pretty := by
    intro p
    have hvalue := Document.value_bare now p.issues p.story.sections
    rw [← Parsed.issues_bare] at hvalue
    unfold Document.encode
    rw [← hvalue]
    rfl
  rw [hencode, Parsed.issues_bare, Rejection.ofIssues?_bare, encodeSource, build, hshape]
  cases options.strict with
  | false => rfl
  | true => cases Rejection.ofIssues? (read options source).issues <;> rfl

end Export

/-! ## Line ends -/

/-- A source with a carriage return before each line feed. -/
def crlf (source : String) : String := String.ofList (withReturns source.toList)

/-- Carriage returns at the line ends change nothing but offsets: not the tokens, nor the story and
what is said about it, nor a simple export. -/
theorem same_crlf (source : String) (h : '\r' ∉ source.toList) :
    (tokenize (crlf source)).map Token.bare = (tokenize source).map Token.bare ∧
      (parseSource (crlf source)).story.bare = (parseSource source).story.bare ∧
      (parseSource (crlf source)).issues.map Issue.bare =
        (parseSource source).issues.map Issue.bare ∧
      (check (crlf source)).story.bare = (check source).story.bare ∧
      (check (crlf source)).issues.map Issue.bare = (check source).issues.map Issue.bare ∧
      ∀ (now : String) (options : Export.Options), options.shape = .simple →
        (Export.encodeSource now options (crlf source)).mapError Rejection.bare =
          (Export.encodeSource now options source).mapError Rejection.bare := by
  have htokens : (tokenize (crlf source)).map Token.bare = (tokenize source).map Token.bare := by
    rw [crlf, tokenize_withReturns h, String.ofList_toList]
  have hparse : (parseSource (crlf source)).bare = (parseSource source).bare := bare_parse htokens
  have hcheck := bare_check htokens
  refine ⟨htokens, congrArg Parsed.story hparse, ?_, congrArg Checked.story hcheck, ?_, ?_⟩
  · rw [← Parsed.issues_bare, hparse, Parsed.issues_bare]
  · rw [← Checked.issues_bare, hcheck, Checked.issues_bare]
  · intro now options hshape
    rw [Export.encodeSource_bare now _ hshape, Export.bare_read options htokens,
      Export.encodeSource_bare now _ hshape]

/-- A replica over two lines, and a goto that leads nowhere. -/
theorem same_crlf_two_lines :
    let source := "== start\n\" Hello\nthere.\n-> nowhere\n"
    let options : Export.Options := { strict := true, validated := true }
    '\r' ∉ source.toList ∧ options.shape = .simple ∧
      (tokenize (crlf source)).map Token.bare = (tokenize source).map Token.bare ∧
      (parseSource (crlf source)).story.bare = (parseSource source).story.bare ∧
      (parseSource (crlf source)).issues.map Issue.bare =
        (parseSource source).issues.map Issue.bare ∧
      (check (crlf source)).story.bare = (check source).story.bare ∧
      (check (crlf source)).issues.map Issue.bare = (check source).issues.map Issue.bare ∧
      (Export.encodeSource "" options (crlf source)).mapError Rejection.bare =
        (Export.encodeSource "" options source).mapError Rejection.bare := by
  intro source options
  have hsource : '\r' ∉ source.toList := by decide
  obtain ⟨htokens, hstory, hissues, hchecked, hsaid, hexport⟩ := same_crlf source hsource
  exact ⟨hsource, rfl, htokens, hstory, hissues, hchecked, hsaid, hexport "" options rfl⟩

end StoryScript

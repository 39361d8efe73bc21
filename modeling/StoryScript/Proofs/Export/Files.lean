import StoryScript.Export.File
import StoryScript.Proofs.Export.Documents
import StoryScript.Proofs.Files.Writing
/-!
# Files are exported whole or not at all

The output is written last and in one piece. So an export either meets with one of four obstacles and
leaves every file as it was, or it changes the output alone, which then holds the whole document
(`exportFile_whole`). The summary counts what stands in the document, in either shape.
-/

namespace StoryScript.Export

open Files (FileSystem Failure)

/-! ## Texts and documents -/

theorem fromUTF8?_eq_some {content : ByteArray} {source : String} :
    String.fromUTF8? content = some source ↔ content = source.toUTF8 := by
  constructor
  · intro h
    rw [String.fromUTF8?] at h
    split at h
    · obtain rfl := Option.some.inj h
      rfl
    · cases h
  · rintro rfl
    exact dif_pos source.isValidUTF8

theorem fromUTF8?_eq_none {content : ByteArray} :
    String.fromUTF8? content = none ↔ ∀ source : String, content ≠ source.toUTF8 := by
  simp only [Option.eq_none_iff_forall_ne_some, ne_eq, fromUTF8?_eq_some]

theorem errorCount_eq_zero {issues : List Issue} :
    errorCount issues = 0 ↔ Rejection.ofIssues? issues = none := by
  rw [errorCount, List.countP_eq_zero, Rejection.ofIssues?, Option.map_eq_none_iff,
    List.find?_eq_none]

/-- Only strict options reject a story, and only one with errors. -/
theorem of_build_eq_error {now source : String} {options : Options} {rejection : Rejection}
    (h : build now options source = .error rejection) : options.strict = true ∧
      Rejection.ofIssues? (read options source).issues = some rejection := by
  rw [build] at h
  split at h
  · next found hfound =>
    cases h
    split at hfound
    · next hs => exact ⟨hs, hfound⟩
    · cases hfound
  · cases h

theorem build_eq_error {now source : String} {options : Options} {rejection : Rejection}
    (hs : options.strict = true)
    (h : Rejection.ofIssues? (read options source).issues = some rejection) :
    build now options source = .error rejection := by
  rw [build]
  simp only [hs, if_true, h]

theorem errorCount_of_build {now source : String} {options : Options} {document : Document}
    (h : build now options source = .ok document) (hs : options.strict = true) :
    errorCount document.issues = 0 := by
  rw [build] at h
  simp only [hs, if_true] at h
  split at h
  · cases h
  · next hnone =>
    cases h
    exact errorCount_eq_zero.2 hnone

/-! ## What a summary counts -/

/-- The kinds of the issues in the heading of a document. -/
def issueKinds? (v : Value) : Option (List String) :=
  v.get? (Value.getList? (Value.get? Value.text? "kind") "issues") "metadata"

/-- The numbers of a summary are those of a value that was written as `content`. -/
structure Summary.Counts (summary : Summary) (v : Value) (content : ByteArray) : Prop where
  sections : (v.get? Value.items? "sections").map List.length = some summary.sections
  errors : (issueKinds? v).map (List.count "error") = some summary.errors
  warnings : (issueKinds? v).map (List.count "warning") = some summary.warnings
  bytes : content.size = summary.bytes

theorem issueKinds?_value (d : Document) :
    issueKinds? d.value = some (d.issues.map (·.severity.name)) := by
  have hkind : ∀ i : Issue,
      (issueValue d.shape i).get? Value.text? "kind" = some i.severity.name := fun _ => rfl
  exact get?_eq rfl (getList?_eq rfl hkind)

theorem count_error (issues : List Issue) :
    (issues.map (·.severity.name)).count "error" = errorCount issues := by
  rw [List.count, List.countP_map, errorCount]
  refine List.countP_congr fun i _ => ?_
  rw [Function.comp_apply, Issue.isError]
  cases i.severity <;> decide

theorem count_warning (issues : List Issue) :
    (issues.map (·.severity.name)).count "warning" = warningCount issues := by
  rw [List.count, List.countP_map, warningCount]
  refine List.countP_congr fun i _ => ?_
  rw [Function.comp_apply, Issue.isWarning]
  cases i.severity <;> decide

theorem counts_summary (d : Document) (content : ByteArray) :
    (d.summary content).Counts d.value content := by
  have hsections : d.value.get? Value.items? "sections" =
      some (d.sections.map (sectionValue d.shape)) := get?_eq rfl rfl
  refine ⟨?_, ?_, ?_, rfl⟩
  · rw [hsections, Option.map_some, List.length_map]
    rfl
  · rw [issueKinds?_value, Option.map_some, count_error]
    rfl
  · rw [issueKinds?_value, Option.map_some, count_warning]
    rfl

/-! ## Exports -/

section
variable (fs : FileSystem) (now : String) (options : Options) (input output : String)

/-- What keeps a file from being exported. -/
inductive Obstacle : Error → Prop where
  | unread {failure : Failure} (h : fs.read input = .error failure) :
    Obstacle (.file .reading input failure)
  | notText {content : ByteArray} (h : fs.read input = .ok content)
    (htext : ∀ source : String, content ≠ source.toUTF8) : Obstacle (.file .reading input .notText)
  | rejected {source : String} {rejection : Rejection} (h : fs.read input = .ok source.toUTF8)
    (hstrict : options.strict = true)
    (herrors : Rejection.ofIssues? (read options source).issues = some rejection) :
    Obstacle (.rejected rejection)
  | unwritten {source : String} {document : Document} {failure : Failure}
    (h : fs.read input = .ok source.toUTF8) (hbuild : build now options source = .ok document)
    (hpath : ∀ directory name, ¬ fs.Writable output directory name)
    (htarget : fs.target output = .error failure) : Obstacle (.file .writing output failure)

/-- What an export leaves behind. -/
structure Exported (document : Document) (summary : Summary) (fs' : FileSystem) : Prop where
  built : ∃ source : String, fs.read input = .ok source.toUTF8 ∧
    build now options source = .ok document
  /-- Only the file that the output path leads to has changed. -/
  written : ∃ directory name, fs.Writable output directory name ∧
    fs'.node (directory ++ [name]) =
      some (.file (document.encode options.encoding options.pretty)) ∧
    ∀ place, place ≠ directory ++ [name] → fs'.node place = fs.node place
  current : fs'.current = fs.current
  kept : fs'.read output = .ok (document.encode options.encoding options.pretty)
  summed : summary = document.summary (document.encode options.encoding options.pretty)
  counts : summary.Counts document.value (document.encode options.encoding options.pretty)
  harmless : options.strict = true → summary.errors = 0

end

section
variable {fs : FileSystem} {now : String} {options : Options} {input output : String}

/-- The output is touched only when everything before it has succeeded. -/
theorem run_exportFile : (exportFile FileSystem.disk now options input output).run fs =
    match fs.read input with
    | .error failure => (.error (.file .reading input failure), fs)
    | .ok content =>
      match exportContent now options input content with
      | .error e => (.error e, fs)
      | .ok (bytes, summary) =>
        match fs.target output with
        | .error failure => (.error (.file .writing output failure), fs)
        | .ok place => (.ok summary, fs.put place (.file bytes)) := by
  change (match fs.read input with | .error _ => _ | .ok _ => _ : StateM _ _) fs = _
  cases fs.read input with
  | error failure => rfl
  | ok content =>
    dsimp only
    cases exportContent now options input content with
    | error e => rfl
    | ok written =>
      change (match (fs.write output written.1).1 with | .error _ => _ | .ok _ => _ : StateM _ _)
        (fs.write output written.1).2 = _
      rw [FileSystem.write]
      cases fs.target output <;> rfl

theorem exportContent_toUTF8 (source : String) :
    exportContent now options input source.toUTF8 =
      match build now options source with
      | .error rejection => .error (.rejected rejection)
      | .ok document =>
        .ok (document.encode options.encoding options.pretty,
          document.summary (document.encode options.encoding options.pretty)) := by
  rewrite [exportContent, fromUTF8?_eq_some.2 rfl]
  rfl

/-- An export that meets with an obstacle says so and changes nothing. -/
theorem Obstacle.run_eq {e : Error} (h : Obstacle fs now options input output e) :
    (exportFile FileSystem.disk now options input output).run fs = (.error e, fs) := by
  rw [run_exportFile]
  cases h with
  | unread h => rw [h]
  | notText h htext =>
    rw [h]
    dsimp only
    rw [exportContent, fromUTF8?_eq_none.2 htext]
  | rejected h hstrict herrors =>
    rw [h]
    dsimp only
    rw [exportContent_toUTF8, build_eq_error hstrict herrors]
  | unwritten h hbuild _ htarget =>
    rw [h]
    dsimp only
    rw [exportContent_toUTF8, hbuild]
    dsimp only
    rw [htarget]

theorem run_of_target {source : String} {document : Document} {place : Files.Place}
    (h : fs.read input = .ok source.toUTF8) (hbuild : build now options source = .ok document)
    (htarget : fs.target output = .ok place) :
    (exportFile FileSystem.disk now options input output).run fs =
      (.ok (document.summary (document.encode options.encoding options.pretty)),
        fs.put place (.file (document.encode options.encoding options.pretty))) := by
  rw [run_exportFile, h]
  dsimp only
  rw [exportContent_toUTF8, hbuild]
  dsimp only
  rw [htarget]

/-- An export that meets with no obstacle leaves the document in its place. -/
theorem exists_obstacle_or_exported :
    (∃ e, Obstacle fs now options input output e) ∨
      ∃ document summary fs',
        (exportFile FileSystem.disk now options input output).run fs = (.ok summary, fs') ∧
        Exported fs now options input output document summary fs' := by
  cases hread : fs.read input with
  | error failure => exact .inl ⟨_, .unread hread⟩
  | ok content =>
    cases htext : String.fromUTF8? content with
    | none => exact .inl ⟨_, .notText hread (fromUTF8?_eq_none.1 htext)⟩
    | some source =>
      obtain rfl := fromUTF8?_eq_some.1 htext
      cases hbuild : build now options source with
      | error rejection =>
        obtain ⟨hstrict, herrors⟩ := of_build_eq_error hbuild
        exact .inl ⟨_, .rejected hread hstrict herrors⟩
      | ok document =>
        cases htarget : fs.target output with
        | error failure =>
          refine .inl ⟨_, .unwritten hread hbuild (fun directory name hwritable => ?_) htarget⟩
          rw [hwritable.target_eq] at htarget
          cases htarget
        | ok place =>
          refine .inr ⟨document, _, _, run_of_target hread hbuild htarget, ?_⟩
          obtain ⟨directory, name, rfl, hwritable⟩ := FileSystem.writable_of_target htarget
          exact {
            built := ⟨source, hread, hbuild⟩
            written := ⟨directory, name, hwritable, FileSystem.node_put_self _,
              fun _ hne => FileSystem.node_put_of_ne hne _⟩
            current := rfl
            kept := FileSystem.read_put htarget
            summed := rfl
            counts := counts_summary document _
            harmless := errorCount_of_build hbuild }

end

/-- An export fails exactly when there is an obstacle, and then changes nothing. Otherwise the output
holds the document, nothing else has changed, and the summary tells what was written. -/
theorem exportFile_whole (fs : FileSystem) (now : String) (options : Options)
    (input output : String) :
    let done := (exportFile FileSystem.disk now options input output).run fs
    (∀ e, done.1 = .error e ↔ Obstacle fs now options input output e) ∧
      (∀ e, done.1 = .error e → done.2 = fs) ∧
      ∀ summary, done.1 = .ok summary →
        ∃ document, Exported fs now options input output document summary done.2 := by
  dsimp only
  rcases exists_obstacle_or_exported with ⟨e, h⟩ | ⟨document, summary, fs', hrun, h⟩
  · rw [h.run_eq]
    refine ⟨fun e' => ⟨?_, fun h' => ?_⟩, fun _ _ => rfl, nofun⟩
    · rintro ⟨⟩
      exact h
    · rw [← h.run_eq, h'.run_eq]
  · rw [hrun]
    refine ⟨fun e => ⟨nofun, fun h' => ?_⟩, nofun, ?_⟩
    · rw [h'.run_eq] at hrun
      cases hrun
    · rintro _ ⟨⟩
      exact ⟨document, h⟩

end StoryScript.Export

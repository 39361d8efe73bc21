import StoryScript.Export.Build
import StoryScript.Proofs.Story.Errors
/-!
# Strict exports

With strict options and the full check, the stories that are exported are the well-formed ones
(`build_strict`). Any other is rejected with the number of its errors and warnings and with the first
error.
-/

namespace StoryScript.Export

theorem find?_isError {diagnostics : List Diagnostic} :
    (diagnostics.map Diagnostic.issue).find? (·.isError) = none ↔ Harmless diagnostics := by
  rw [List.find?_eq_none, List.forall_mem_map]
  refine forall₂_congr fun d _ => ?_
  rw [Issue.isError, Diagnostic.issue]
  cases d.finding.severity <;> simp

/-- What a strict export with the full check depends on. -/
theorem build_checked (now : String) {options : Options} (source : String)
    (hs : options.strict = true) (hv : options.validated = true) :
    build now options source =
      match Rejection.ofIssues? (check source).issues with
      | some rejection => .error rejection
      | none =>
        .ok (.current now options.shape (check source).issues (check source).story.sections) := by
  rw [build, read, hs, hv]
  rfl

/-- A strict export with the full check succeeds if and only if the source is well formed. Otherwise
it tells how many errors and warnings the check found and which error came first. -/
theorem build_strict (now : String) (options : Options) (source : String)
    (hs : options.strict = true) (hv : options.validated = true) :
    ((∃ document, build now options source = .ok document) ↔ WellFormed source) ∧
      (¬ WellFormed source → ∃ first,
        (check source).issues.find? (·.isError) = some first ∧
        build now options source = .error
          ⟨errorCount (check source).issues, warningCount (check source).issues, first⟩) := by
  rw [build_checked now source hs hv, ← harmless_check, ← find?_isError, ← Checked.issues,
    Rejection.ofIssues?]
  cases hfind : (check source).issues.find? (·.isError) with
  | none => exact ⟨iff_of_true ⟨_, rfl⟩ rfl, fun h => absurd rfl h⟩
  | some first =>
    refine ⟨iff_of_false ?_ nofun, fun _ => ⟨first, rfl, rfl⟩⟩
    rintro ⟨document, h⟩
    cases h

/-- A story whose only goto leads nowhere. -/
theorem build_strict_lost_goto :
    let options : Options := { strict := true, validated := true }
    let source := "== start\n-> nowhere\n"
    options.strict = true ∧ options.validated = true ∧
      ((∃ document, build "" options source = .ok document) ↔ WellFormed source) ∧
      (¬ WellFormed source → ∃ first,
        (check source).issues.find? (·.isError) = some first ∧
        build "" options source = .error
          ⟨errorCount (check source).issues, warningCount (check source).issues, first⟩) :=
  ⟨rfl, rfl, build_strict _ _ _ rfl rfl⟩

end StoryScript.Export

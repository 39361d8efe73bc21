import StoryScript.Proofs.Messages
import StoryScript.Story.Validation
/-!
# Where gotos lead

The check of a story looks at gotos twice: for gotos that lead nowhere, and for sections that none
leads to. Both are reported without omission and without repetition, in reading order, and a goto
leads nowhere exactly if looking its target up finds no section (`references_validate`). This holds
of every story, whether it was read from a source or not.
-/

namespace StoryScript

/-! ## The gotos of a story -/

mutual

/-- The gotos at a statement and in its body, at any depth. -/
def Statement.jumps : Statement → List Goto
  | .goto g => [g]
  | .call _ | .replica _ | .choice _ none => []
  | .choice _ (some body) => jumpsOfAll body

/-- The gotos of statements in a row. -/
def Statement.jumpsOfAll : List Statement → List Goto
  | [] => []
  | s :: ss => jumps s ++ jumpsOfAll ss

end

/-- The gotos of a story, section by section. -/
def Story.jumps (story : Story) : List Goto :=
  story.sections.flatMap fun s => Statement.jumpsOfAll s.statements

mutual

theorem Statement.filterMap_preorder (s : Statement) : s.preorder.filterMap goto? = s.jumps := by
  cases s with
  | goto | call | replica => rfl
  | choice c body =>
    cases body with
    | none => rfl
    | some body =>
      rw [preorder, List.filterMap_cons_none (by rfl), jumps]
      exact filterMap_preorders body

theorem Statement.filterMap_preorders (ss : List Statement) :
    (preorders ss).filterMap goto? = jumpsOfAll ss := by
  cases ss with
  | nil => rfl
  | cons s ss =>
    rw [preorders, List.filterMap_append, filterMap_preorder s, filterMap_preorders ss, jumpsOfAll]

end

theorem Story.gotos_eq (story : Story) : story.gotos = story.jumps := by
  rw [gotos, Story.preorder, List.filterMap_flatMap, jumps]
  exact congrArg (story.sections.flatMap ·)
    (funext fun s => Statement.filterMap_preorders s.statements)

/-! ## Looking a target up -/

/-- No section is found under a name exactly if none bears it, letter case aside. -/
theorem Story.section?_eq_none {story : Story} {name : String} :
    story.section? name = none ↔ Text.lowercase name ∉ story.sections.map Section.key := by
  rw [section?, List.find?_eq_none, List.mem_map]
  simp

theorem unknownTargets_eq (story : Story) :
    unknownTargets story =
      (story.jumps.filter fun g => (story.section? g.target).isNone).map fun g =>
        ⟨.unknownTarget g.target, g.span⟩ := by
  rw [unknownTargets, Story.gotos_eq]
  congr 1
  refine List.filter_congr fun g _ => ?_
  rw [Bool.eq_iff_iff, decide_eq_true_iff, Option.isNone_iff_eq_none, Story.section?_eq_none]

theorem unreferencedSections_eq (story : Story) :
    unreferencedSections story =
      (story.sections.filter fun s => !s.isMain &&
        story.jumps.all fun g => Text.lowercase g.target ≠ Text.lowercase s.name).map fun s =>
        ⟨.unreferencedSection s.name, s.span⟩ := by
  rw [unreferencedSections, Story.gotos_eq]
  congr 1
  refine List.filter_congr fun s _ => ?_
  rw [Bool.eq_iff_iff]
  simp [Section.key]

/-! ## Reports on references -/

/-- Whether a finding is a goto that leads nowhere. -/
def Finding.isUnknownTarget : Finding → Bool
  | .unknownTarget _ => true
  | _ => false

/-- Whether a finding is a section that no goto leads to. -/
def Finding.isUnreferenced : Finding → Bool
  | .unreferencedSection _ => true
  | _ => false

theorem Finding.isKind_unknownTarget : IsKind isUnknownTarget unknownTarget where
  ctorIdx f _ := by cases f <;> rfl
  exists_eq f h := by
    cases f with
    | unknownTarget target => exact ⟨target, rfl⟩
    | _ => cases h

theorem Finding.isKind_unreferenced : IsKind isUnreferenced unreferencedSection where
  ctorIdx f _ := by cases f <;> rfl
  exists_eq f h := by
    cases f with
    | unreferencedSection name => exact ⟨name, rfl⟩
    | _ => cases h

/-- The findings that are about one section or statement alone. -/
def Finding.isLocal (f : Finding) : Bool := !f.isUnknownTarget && !f.isUnreferenced

theorem isLocal_duplicateSections (sections : List Section) :
    ∀ d ∈ duplicateSections sections, d.finding.isLocal := by
  intro d hd
  obtain ⟨g, -, rfl⟩ := List.mem_map.1 hd
  rfl

theorem Choice.isLocal_findings (c : Choice) (inSection : String) (hasBody : Bool) :
    ∀ d ∈ c.findings inSection hasBody, d.finding.isLocal := by
  intro d hd
  rw [findings, List.mem_append, List.mem_append] at hd
  rcases hd with (hd | hd) | hd
  · split at hd
    · rw [List.mem_singleton.1 hd]
      rfl
    · cases hd
  · split at hd
    · cases hd
    · rw [List.mem_singleton.1 hd]
      rfl
  · obtain ⟨t, -, rfl⟩ := List.mem_map.1 hd
    rfl

theorem Statement.isLocal_findings (s : Statement) (inSection : String) :
    ∀ d ∈ s.findings inSection, d.finding.isLocal := by
  cases s with
  | goto g => exact nofun
  | call c | replica c =>
    rw [findings]
    split
    · exact List.forall_mem_singleton.2 rfl
    · exact nofun
  | choice c body => exact c.isLocal_findings inSection _

theorem Section.isLocal_findings (s : Section) : ∀ d ∈ s.findings, d.finding.isLocal := by
  refine List.forall_mem_append.2 ⟨?_, List.forall_mem_flatMap.2 fun u _ => u.isLocal_findings _⟩
  split
  · exact List.forall_mem_singleton.2 rfl
  · exact nofun

/-- What is said before the references are looked at. -/
theorem isLocal_of_mem_validate {story : Story} :
    ∀ d ∈ duplicateSections story.sections ++ story.sections.flatMap Section.findings,
      d.finding.isLocal :=
  List.forall_mem_append.2 ⟨isLocal_duplicateSections _,
    List.forall_mem_flatMap.2 fun s _ => s.isLocal_findings⟩

/-- What is said about references comes last. -/
theorem reports_validate {p : Finding → Bool} (hp : ∀ f : Finding, f.isLocal → p f = false)
    (story : Story) :
    reports p (validate story) =
      reports p (unknownTargets story) ++ reports p (unreferencedSections story) := by
  have hlocal : reports p (duplicateSections story.sections ++
      story.sections.flatMap Section.findings) = [] :=
    reports_eq_nil fun d hd => hp d.finding (isLocal_of_mem_validate d hd)
  rw [validate, reports_append, reports_append, hlocal, List.nil_append]

theorem reports_unknownTarget (story : Story) :
    reports Finding.isUnknownTarget (validate story) = unknownTargets story := by
  have hself : ∀ d ∈ unknownTargets story, d.finding.isUnknownTarget = true :=
    List.forall_mem_map.2 fun _ _ => rfl
  have hother : ∀ d ∈ unreferencedSections story, d.finding.isUnknownTarget = false :=
    List.forall_mem_map.2 fun _ _ => rfl
  rw [reports_validate (by simp_all [Finding.isLocal]), reports_eq_self hself, reports_eq_nil hother,
    List.append_nil]

theorem reports_unreferenced (story : Story) :
    reports Finding.isUnreferenced (validate story) = unreferencedSections story := by
  have hself : ∀ d ∈ unreferencedSections story, d.finding.isUnreferenced = true :=
    List.forall_mem_map.2 fun _ _ => rfl
  have hother : ∀ d ∈ unknownTargets story, d.finding.isUnreferenced = false :=
    List.forall_mem_map.2 fun _ _ => rfl
  rw [reports_validate (by simp_all [Finding.isLocal]), reports_eq_nil hother, reports_eq_self hself,
    List.nil_append]

/-! ## Issues -/

/-- What is said about a goto that leads nowhere. -/
def unknownTargetMessage (target : String) : String := "Goto target not found: '" ++ target ++ "'"

/-- What is said about a section that no goto leads to. -/
def unreferencedMessage (name : String) : String := "Unreferenced section: '" ++ name ++ "'"

open Classical in
/-- The gotos that are reported are those whose target cannot be looked up, in reading order, and the
sections that are reported are those besides the main one that no goto of any section leads to, in
their order. Among sections of one name, a goto leads to all. -/
theorem references_validate (story : Story) :
    ((validate story).map Diagnostic.issue).filter
        (fun i => ∃ target, i.message = unknownTargetMessage target) =
      ((story.jumps.filter fun g => story.section? g.target = none).map fun g =>
        ⟨.error, unknownTargetMessage g.target, some g.span⟩) ∧
    ((validate story).map Diagnostic.issue).filter
        (fun i => ∃ name, i.message = unreferencedMessage name) =
      ((story.sections.filter fun s => ¬s.isMain ∧
        ∀ g ∈ story.jumps, Text.lowercase g.target ≠ Text.lowercase s.name).map fun s =>
        ⟨.warning, unreferencedMessage s.name, some s.span⟩) := by
  constructor
  · refine (filter_messages Finding.isKind_unknownTarget _).trans ?_
    rw [reports_unknownTarget, unknownTargets_eq, List.map_map]
    congr 1
    refine List.filter_congr fun g _ => ?_
    rw [Bool.eq_iff_iff]
    simp
  · refine (filter_messages Finding.isKind_unreferenced _).trans ?_
    rw [reports_unreferenced, unreferencedSections_eq, List.map_map]
    congr 1
    refine List.filter_congr fun s _ => ?_
    rw [Bool.eq_iff_iff]
    simp

end StoryScript

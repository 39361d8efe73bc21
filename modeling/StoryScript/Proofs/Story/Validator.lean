import Mathlib.Data.List.Basic
import Mathlib.Data.List.Forall2
import StoryScript.Proofs.Indexed.Guarded
import StoryScript.Proofs.Story.Duplicates
/-!
# Checking in one pass

A story can be checked with tables in place of searches. One pass over the sections counts names in
a map, one over the statements reports what is wrong with each and collects the gotos, and one over
the gotos reports those that lead nowhere and fills the set of names that are led to. This finds
what `validate` finds, in the same order, and the indices in the map are those of sections
(`Validator.run_eq`).
-/

namespace StoryScript

open Indexed (Guarded)

/-! ## Counting names -/

/-- Where a name came up first, and how often it came up. -/
structure Tally where
  first : Nat
  count : Nat

/-- The tallies of names, and the names in the order in which they came up. -/
structure Tallies where
  order : List String := []
  seen : Std.HashMap String Tally := ∅

namespace Tallies

/-- The name at an index. -/
def add (t : Tallies) (key : String) (i : Nat) : Tallies :=
  match t.seen[key]? with
  | some tally => { t with seen := t.seen.insert key { tally with count := tally.count + 1 } }
  | none => ⟨t.order ++ [key], t.seen.insert key ⟨i, 1⟩⟩

/-- The names of sections. -/
def ofSections (sections : List Section) : Tallies :=
  sections.zipIdx.foldl (fun t (s, i) => t.add s.key i) {}

/-- What the tallies of sections are. -/
structure Of (sections : List Section) (t : Tallies) : Prop where
  order : t.order = (sections.map Section.key).eraseDups
  seen : ∀ key, t.seen[key]? = (sections.findIdx? (·.key == key)).map fun i =>
    ⟨i, sections.countP (·.key == key)⟩

theorem of_nil : Of [] {} := ⟨rfl, fun _ => Std.HashMap.getElem?_empty⟩

theorem Of.add {sections : List Section} {t : Tallies} (h : Of sections t) (s : Section) :
    Of (sections ++ [s]) (t.add s.key sections.length) := by
  have hseen := h.seen s.key
  -- the new section is the first of its name unless there is one before it
  have hfirst (key : String) : (sections ++ [s]).findIdx? (·.key == key) =
      (sections.findIdx? (·.key == key)).or
        (if s.key = key then some sections.length else none) := by
    rw [List.findIdx?_append]
    by_cases hkey : s.key = key <;> simp [hkey]
  unfold Tallies.add
  cases hold : sections.findIdx? (·.key == s.key) with
  | none =>
    have hnew : s.key ∉ sections.map Section.key := by
      simpa using List.findIdx?_eq_none_iff.1 hold
    rw [hold, Option.map_none] at hseen
    rw [hseen]
    refine ⟨?_, fun key => ?_⟩
    · have hadded : [s.key].removeAll (sections.map Section.key) = [s.key] :=
        List.filter_cons_of_pos (by simpa using hnew)
      rw [List.map_append, List.eraseDups_append, List.map_singleton, hadded, ← h.order]
      rfl
    · rw [Std.HashMap.getElem?_insert, h.seen, hfirst, List.countP_append]
      by_cases hkey : s.key = key
      · subst hkey
        have hcount : sections.countP (·.key == s.key) = 0 := by simpa using hnew
        simp [hold, hcount]
      · simp [hkey]
  | some i =>
    have hmem : s.key ∈ sections.map Section.key := by
      obtain ⟨hi, heq, -⟩ := List.findIdx?_eq_some_iff_getElem.1 hold
      exact List.mem_map.2 ⟨sections[i], List.getElem_mem hi, by simpa using heq⟩
    rw [hold, Option.map_some] at hseen
    rw [hseen]
    refine ⟨?_, fun key => ?_⟩
    · have hadded : [s.key].removeAll (sections.map Section.key) = [] :=
        List.filter_cons_of_neg (by simpa using hmem)
      rw [List.map_append, List.eraseDups_append, List.map_singleton, hadded, ← h.order]
      exact (List.append_nil _).symm
    · rw [Std.HashMap.getElem?_insert, h.seen, hfirst, List.countP_append]
      by_cases hkey : s.key = key
      · subst hkey
        simp [hold]
      · simp [hkey]

/-- The tallies of sections that follow others. -/
theorem Of.foldl {before : List Section} {t : Tallies} (h : Of before t) (sections : List Section) :
    Of (before ++ sections)
      ((sections.zipIdx before.length).foldl (fun t (s, i) => t.add s.key i) t) := by
  induction sections generalizing before t with
  | nil => rwa [List.append_nil]
  | cons s sections ih =>
    have hrest := ih (h.add s)
    rwa [List.append_assoc, List.length_append, List.length_singleton] at hrest

theorem of_ofSections (sections : List Section) : Of sections (ofSections sections) :=
  of_nil.foldl sections

end Tallies

/-! ## The validator -/

/-- What has been said, and the targets of the gotos that have been met with their spans. -/
structure Validator where
  said : List Diagnostic := []
  gotos : List (String × Span) := []

namespace Validator

/-- Say something. -/
def report (v : Validator) (finding : Finding) (span : Span) : Validator :=
  { v with said := v.said ++ [⟨finding, span⟩] }

/-- A name that several sections bear. -/
def checkName (t : Tallies) (sections : List Section) (v : Validator) (key : String) :
    Guarded Validator :=
  match t.seen[key]? with
  | none => pure v
  | some tally =>
    if 1 < tally.count then
      match sections[tally.first]? with
      | some s => pure (v.report (.duplicateSection s.name tally.count) s.span)
      | none => throw .index
    else pure v

/-- The names that several sections bear. -/
def checkDuplicateSections (v : Validator) (sections : List Section) : Guarded Validator :=
  let t := Tallies.ofSections sections
  t.order.foldlM (checkName t sections) v

/-- A choice tag, which is reported unless its name is new. -/
def checkChoiceTag (state : Validator × Std.HashSet String) (t : Tag) :
    Validator × Std.HashSet String :=
  let (old, names) := state.2.containsThenInsert (Text.lowercase t.name)
  (if old then state.1.report (.duplicateChoiceTag t.name) t.span else state.1, names)

/-- A choice whose body holds statements or not. -/
def checkChoice (v : Validator) (inSection : String) (hasBody : Bool) (c : Choice) : Validator :=
  let v := if c.inlineText.isSome && c.blockText.isSome then v.report .twoChoiceTexts c.span else v
  let hasText := (c.text?.map (!Text.isBlankText ·)).getD false
  let v := if !hasText && !hasBody then v.report (.emptyChoice inSection) c.span else v
  (c.choiceTags.foldl checkChoiceTag (v, ∅)).1

mutual

/-- A statement of a section and what it holds. -/
def checkStatement (v : Validator) (inSection : String) : Statement → Validator
  | .goto g => { v with gotos := v.gotos ++ [(g.target, g.span)] }
  | .call c => if Text.isBlankText c.name then v.report (.callWithoutName inSection) c.span else v
  | .replica r => if Text.isBlankText r.text then v.report .emptyReplica r.span else v
  | .choice c none => v.checkChoice inSection false c
  | .choice c (some body) =>
    (v.checkChoice inSection (!body.isEmpty) c).checkStatements inSection body

/-- Statements in a row. -/
def checkStatements (v : Validator) (inSection : String) : List Statement → Validator
  | [] => v
  | s :: ss => (v.checkStatement inSection s).checkStatements inSection ss

end

/-- A section. -/
def checkSection (v : Validator) (s : Section) : Validator :=
  let v := if s.statements.isEmpty then v.report (.emptySection s.name) s.span else v
  v.checkStatements s.name s.statements

/-- A goto, which is reported unless its target is known. -/
def resolve (known : Std.HashSet String) (state : Validator × Std.HashSet String)
    (goto : String × Span) : Validator × Std.HashSet String :=
  let key := Text.lowercase goto.1
  if known.contains key then (state.1, state.2.insert key)
  else (state.1.report (.unknownTarget goto.1) goto.2, state.2)

/-- A section that has to be led to. -/
def checkReferenced (referenced : Std.HashSet String) (v : Validator) (s : Section) : Validator :=
  if !s.isMain && !referenced.contains s.key then v.report (.unreferencedSection s.name) s.span
  else v

/-- The gotos that have been met. -/
def resolveGotos (v : Validator) (sections : List Section) : Validator :=
  let known := Std.HashSet.ofList (sections.map Section.key)
  let (v, referenced) := v.gotos.foldl (resolve known) ({ v with gotos := [] }, ∅)
  sections.foldl (checkReferenced referenced) v

/-- What is wrong with a story. -/
def run (story : Story) : Guarded (List Diagnostic) := do
  let v ← checkDuplicateSections {} story.sections
  return ((story.sections.foldl checkSection v).resolveGotos story.sections).said

/-! ## What is said and what is met -/

/-- Say more and meet more gotos. -/
def extend (v : Validator) (said : List Diagnostic) (gotos : List Goto) : Validator :=
  ⟨v.said ++ said, v.gotos ++ gotos.map fun g => (g.target, g.span)⟩

section
variable {v : Validator}

theorem extend_nil : v.extend [] [] = v := by simp [extend]

theorem extend_extend {ds ds' : List Diagnostic} {gs gs' : List Goto} :
    (v.extend ds gs).extend ds' gs' = v.extend (ds ++ ds') (gs ++ gs') := by
  simp [extend]

theorem report_eq (finding : Finding) (span : Span) :
    v.report finding span = v.extend [⟨finding, span⟩] [] := by
  simp [report, extend]

theorem ite_report (p : Prop) [Decidable p] (finding : Finding) (span : Span) :
    (if p then v.report finding span else v) =
      v.extend (if p then [⟨finding, span⟩] else []) [] := by
  split
  · exact report_eq finding span
  · exact extend_nil.symm

theorem foldl_report {α : Type} (p : α → Bool) (say : α → Diagnostic) (as : List α) :
    as.foldl (fun v a => if p a then v.report (say a).finding (say a).span else v) v =
      v.extend ((as.filter p).map say) [] := by
  induction as generalizing v with
  | nil => exact extend_nil.symm
  | cons a as ih =>
    rw [List.foldl_cons, ih, ite_report, extend_extend, List.filter_cons]
    split <;> rfl

/-! ## Names -/

theorem checkName_eq {t : Tallies} {sections : List Section} (h : t.Of sections) {key : String}
    {g : Section × Nat} (hg : IsGroup Section.key sections key g) :
    checkName t sections v key =
      pure (v.extend
        (if 1 < g.2 then [⟨.duplicateSection g.1.name g.2, g.1.span⟩] else []) []) := by
  obtain ⟨hfind, hcount⟩ := hg
  rw [List.find?_eq_bind_findIdx?_getElem?] at hfind
  obtain ⟨i, hfirst, hi⟩ := Option.bind_eq_some_iff.1 hfind
  have hseen : t.seen[key]? = some ⟨i, g.2⟩ := by rw [h.seen, hfirst, hcount, Option.map_some]
  rw [checkName, hseen, ← ite_report]
  dsimp only
  rw [hi]
  split <;> rfl

theorem foldlM_checkName {t : Tallies} {sections : List Section} (h : t.Of sections)
    {keys : List String} {gs : List (Section × Nat)}
    (hgs : List.Forall₂ (IsGroup Section.key sections) keys gs) :
    keys.foldlM (checkName t sections) v =
      pure (v.extend ((gs.filter (1 < ·.2)).map fun (s, n) =>
        ⟨.duplicateSection s.name n, s.span⟩) []) := by
  induction hgs generalizing v with
  | nil => exact congrArg pure extend_nil.symm
  | cons hg _ ih =>
    rw [List.foldlM_cons, checkName_eq h hg, pure_bind, ih, extend_extend, List.filter_cons]
    simp only [decide_eq_true_eq]
    split <;> rfl

theorem checkDuplicateSections_eq (sections : List Section) :
    v.checkDuplicateSections sections = pure (v.extend (duplicateSections sections) []) := by
  have h := Tallies.of_ofSections sections
  have hgroups := forall₂_groups Section.key [] sections
  rw [List.filter_eq_self.2 (by simp)] at hgroups
  rw [checkDuplicateSections, h.order, foldlM_checkName h hgroups, duplicateSections]

/-! ## Statements -/

theorem checkChoiceTag_eq (names : Std.HashSet String) (t : Tag) :
    checkChoiceTag (v, names) t =
      (v.extend (if names.contains (Text.lowercase t.name) then
        [⟨.duplicateChoiceTag t.name, t.span⟩] else []) [],
        names.insert (Text.lowercase t.name)) := by
  rw [← ite_report, ← Std.HashSet.containsThenInsert_fst, ← Std.HashSet.containsThenInsert_snd]
  rfl

theorem foldl_checkChoiceTag {seen : List String} {names : Std.HashSet String}
    (h : ∀ key, names.contains key = true ↔ key ∈ seen) (tags : List Tag) :
    (tags.foldl checkChoiceTag (v, names)).1 =
      v.extend ((repeats (fun t : Tag => Text.lowercase t.name) seen tags).map fun t =>
        ⟨.duplicateChoiceTag t.name, t.span⟩) [] := by
  induction tags generalizing v seen names with
  | nil => exact extend_nil.symm
  | cons t tags ih =>
    rw [List.foldl_cons, checkChoiceTag_eq, repeats]
    by_cases hold : Text.lowercase t.name ∈ seen
    · have hinsert (key : String) :
          (names.insert (Text.lowercase t.name)).contains key = true ↔ key ∈ seen := by
        rw [Std.HashSet.contains_insert, Bool.or_eq_true, h, beq_iff_eq]
        exact or_iff_right_of_imp fun hkey => hkey ▸ hold
      rw [if_pos ((h _).2 hold), if_pos hold, ih hinsert, extend_extend]
      rfl
    · have hinsert (key : String) : (names.insert (Text.lowercase t.name)).contains key = true ↔
          key ∈ Text.lowercase t.name :: seen := by
        rw [Std.HashSet.contains_insert, Bool.or_eq_true, h, beq_iff_eq, List.mem_cons, eq_comm]
      rw [if_neg (mt (h _).1 hold), if_neg hold, ih hinsert, extend_extend]
      rfl

theorem checkChoice_eq (inSection : String) (hasBody : Bool) (c : Choice) :
    v.checkChoice inSection hasBody c = v.extend (c.findings inSection hasBody) [] := by
  have hempty (key : String) : (∅ : Std.HashSet String).contains key = true ↔ key ∈ [] := by simp
  have hblank (hasText : Bool) : (if !hasText && !hasBody then
      [(⟨.emptyChoice inSection, c.span⟩ : Diagnostic)] else []) =
      if hasText || hasBody then [] else [⟨.emptyChoice inSection, c.span⟩] := by
    cases hasText <;> cases hasBody <;> rfl
  simp only [checkChoice, ite_report, foldl_checkChoiceTag hempty, extend_extend, hblank]
  rfl

mutual

theorem checkStatement_eq (v : Validator) (inSection : String) : (s : Statement) →
    v.checkStatement inSection s =
      v.extend (s.preorder.flatMap (Statement.findings inSection))
        (s.preorder.filterMap Statement.goto?)
  | .goto g => by
    rw [checkStatement, Statement.preorder, List.flatMap_singleton, extend]
    exact congrArg (Validator.mk · _) (List.append_nil _).symm
  | .call c => by
    rw [checkStatement, ite_report, Statement.preorder, List.flatMap_singleton]
    rfl
  | .replica r => by
    rw [checkStatement, ite_report, Statement.preorder, List.flatMap_singleton]
    rfl
  | .choice c none => by
    rw [checkStatement, checkChoice_eq, Statement.preorder, List.flatMap_singleton]
    rfl
  | .choice c (some body) => by
    rw [checkStatement, checkChoice_eq, checkStatements_eq _ inSection body, extend_extend,
      Statement.preorder, List.flatMap_cons]
    rfl

theorem checkStatements_eq (v : Validator) (inSection : String) : (ss : List Statement) →
    v.checkStatements inSection ss =
      v.extend ((Statement.preorders ss).flatMap (Statement.findings inSection))
        ((Statement.preorders ss).filterMap Statement.goto?)
  | [] => extend_nil.symm
  | s :: ss => by
    rw [checkStatements, checkStatement_eq v inSection s, checkStatements_eq _ inSection ss,
      extend_extend, Statement.preorders, List.flatMap_append, List.filterMap_append]

end

theorem checkSection_eq (s : Section) :
    v.checkSection s = v.extend s.findings (s.preorder.filterMap Statement.goto?) := by
  rw [checkSection, ite_report, checkStatements_eq, extend_extend]
  rfl

theorem foldl_checkSection (sections : List Section) :
    sections.foldl checkSection v = v.extend (sections.flatMap Section.findings)
      (sections.flatMap fun s => s.preorder.filterMap Statement.goto?) := by
  induction sections generalizing v with
  | nil => exact extend_nil.symm
  | cons s sections ih =>
    rw [List.foldl_cons, ih, checkSection_eq, extend_extend, List.flatMap_cons, List.flatMap_cons]

/-! ## References -/

theorem foldl_resolve (known referenced : Std.HashSet String) (gotos : List Goto) :
    ∃ referenced' : Std.HashSet String,
      (gotos.map fun g => (g.target, g.span)).foldl (resolve known) (v, referenced) =
        (v.extend ((gotos.filter fun g => !known.contains (Text.lowercase g.target)).map fun g =>
          ⟨.unknownTarget g.target, g.span⟩) [], referenced') ∧
      ∀ key, referenced'.contains key = true ↔ referenced.contains key = true ∨
        known.contains key = true ∧ key ∈ gotos.map fun g => Text.lowercase g.target := by
  induction gotos generalizing v referenced with
  | nil => exact ⟨referenced, congrArg (·, referenced) extend_nil.symm, by simp⟩
  | cons g gotos ih =>
    rw [List.map_cons, List.foldl_cons, resolve]
    dsimp only
    by_cases hg : known.contains (Text.lowercase g.target) = true
    · obtain ⟨referenced', hfold, hmem⟩ := ih (v := v) (referenced.insert (Text.lowercase g.target))
      refine ⟨referenced', ?_, fun key => ?_⟩
      · rw [if_pos hg, hfold, List.filter_cons_of_neg (by simp [hg])]
      · rw [hmem, Std.HashSet.contains_insert]
        grind
    · obtain ⟨referenced', hfold, hmem⟩ :=
        ih (v := v.report (.unknownTarget g.target) g.span) referenced
      refine ⟨referenced', ?_, fun key => ?_⟩
      · rw [if_neg hg, hfold, List.filter_cons_of_pos (by simp [hg]), report_eq, extend_extend]
        rfl
      · rw [hmem]
        grind

theorem foldl_checkReferenced (referenced : Std.HashSet String) (sections : List Section) :
    sections.foldl (checkReferenced referenced) v =
      v.extend ((sections.filter fun s => !s.isMain && !referenced.contains s.key).map fun s =>
        ⟨.unreferencedSection s.name, s.span⟩) [] :=
  foldl_report (fun s : Section => !s.isMain && !referenced.contains s.key)
    (fun s : Section => ⟨.unreferencedSection s.name, s.span⟩) sections

/-- The gotos of a story are settled against its sections. -/
theorem said_resolveGotos {story : Story}
    (h : v.gotos = story.gotos.map fun g => (g.target, g.span)) :
    (v.resolveGotos story.sections).said =
      v.said ++ unknownTargets story ++ unreferencedSections story := by
  have hknown (key : String) : (Std.HashSet.ofList (story.sections.map Section.key)).contains key =
      decide (key ∈ story.sections.map Section.key) := by
    rw [Std.HashSet.contains_ofList, List.contains_eq_mem]
  obtain ⟨referenced, hfold, hmem⟩ := foldl_resolve (v := { v with gotos := [] })
    (Std.HashSet.ofList (story.sections.map Section.key)) ∅ story.gotos
  have htargets : (fun g : Goto => !(Std.HashSet.ofList (story.sections.map Section.key)).contains
      (Text.lowercase g.target)) =
      fun g => decide (Text.lowercase g.target ∉ story.sections.map Section.key) := by
    funext g
    rw [hknown, decide_not]
  -- a name that is led to is that of a section and the target of a goto
  have hsections : (story.sections.filter fun s => !s.isMain && !referenced.contains s.key) =
      story.sections.filter fun s =>
        !s.isMain && s.key ∉ story.gotos.map fun g => Text.lowercase g.target := by
    refine List.filter_congr fun s hs => ?_
    have hkey : s.key ∈ story.sections.map Section.key := List.mem_map_of_mem hs
    have hiff := hmem s.key
    rw [hknown] at hiff
    grind
  rw [resolveGotos, h, hfold]
  dsimp only
  rw [foldl_checkReferenced, hsections, htargets, extend_extend, extend, List.append_assoc]
  rfl

end

/-- Checking in one pass finds what `validate` finds, and no section is looked for in vain. -/
theorem run_eq (story : Story) : run story = pure (validate story) := by
  have hgotos : (story.sections.flatMap fun s => s.preorder.filterMap Statement.goto?) =
      story.gotos := by
    rw [Story.gotos, Story.preorder, List.filterMap_flatMap]
  rw [run, checkDuplicateSections_eq, pure_bind, foldl_checkSection, extend_extend, hgotos,
    said_resolveGotos (by simp [extend]), extend, List.nil_append]
  rfl

end Validator

end StoryScript

import Mathlib.Data.Finset.Card
import Mathlib.Data.List.Basic
import Mathlib.Data.List.Forall2
import StoryScript.Proofs.Messages
import StoryScript.Story.Validation
/-!
# Names that occur twice

The check of a story tells of sections that have one name and of choice tags that have one name,
letter case aside. A section name is told once, at the first section that bears it and with how many
do. A choice tag is told whenever an earlier one of its choice has its name, so as often as the
choice has more tags than names (`duplicates_validate`).
-/

namespace StoryScript

/-! ## Keys in a list -/

section
variable {α : Type} {key : α → String}

/-- The keys that are selected come up in the order in which they do among all keys. -/
theorem eraseDups_filter (p : String → Bool) (keys : List String) :
    (keys.filter p).eraseDups = keys.eraseDups.filter p := by
  cases keys with
  | nil => rfl
  | cons k keys =>
    have ih := eraseDups_filter p (keys.filter fun l => !l == k)
    rw [List.eraseDups_cons]
    by_cases hk : p k = true
    · rw [List.filter_cons_of_pos hk, List.filter_cons_of_pos hk, List.eraseDups_cons, ← ih,
        List.filter_filter, List.filter_filter]
      simp only [Bool.and_comm]
    · -- no key that is left is the one left out
      have hrest : (keys.filter fun l => !l == k).filter p = keys.filter p := by
        rw [List.filter_filter]
        refine List.filter_congr fun l _ => ?_
        by_cases hl : l = k <;> simp_all
      rw [List.filter_cons_of_neg hk, List.filter_cons_of_neg hk, ← ih, hrest]
termination_by keys.length
decreasing_by
  have hle := List.length_filter_le (fun l => !l == k) keys
  rw [List.length_cons]
  omega

/-- A key with its group: the first element that bears it, and how many do. -/
def IsGroup (key : α → String) (as : List α) (name : String) (g : α × Nat) : Prop :=
  as.find? (key · == name) = some g.1 ∧ g.2 = as.countP (key · == name)

theorem IsGroup.cons_of_ne {as : List α} {name : String} {g : α × Nat} (h : IsGroup key as name g)
    {a : α} (ha : key a ≠ name) : IsGroup key (a :: as) name g := by
  have hne : (key a == name) = false := by simpa using ha
  refine ⟨?_, ?_⟩
  · rw [List.find?_cons_of_neg (by simp [hne])]
    exact h.1
  · rw [List.countP_cons_of_neg (by simp [hne])]
    exact h.2

/-- The groups are those of the keys that were not seen before, in the order in which these come. -/
theorem forall₂_groups (key : α → String) (seen : List String) (as : List α) :
    List.Forall₂ (IsGroup key as) ((as.map key).eraseDups.filter (· ∉ seen))
      (groups key seen as) := by
  induction as generalizing seen with
  | nil => exact .nil
  | cons a as ih =>
    -- behind the element its key is hidden, whether it was before or not
    have hrest : ∀ hidden, (∀ k, k ∈ hidden ↔ k = key a ∨ k ∈ seen) →
        List.Forall₂ (IsGroup key (a :: as))
          (((as.map key).eraseDups.filter fun k => !k == key a).filter (· ∉ seen))
          (groups key hidden as) := by
      intro hidden hmem
      have hnames : ((as.map key).eraseDups.filter fun k => !k == key a).filter (· ∉ seen) =
          (as.map key).eraseDups.filter (· ∉ hidden) := by
        rw [List.filter_filter]
        refine List.filter_congr fun k _ => ?_
        by_cases hk : k = key a <;> simp [hmem, hk]
      have hne : ∀ k ∈ (as.map key).eraseDups.filter (· ∉ hidden), key a ≠ k := by
        rintro k hk rfl
        simp [hmem] at hk
      have hboth := (List.forall₂_and_left _ _).2 ⟨hne, ih hidden⟩
      rw [hnames]
      exact hboth.imp fun k g hg => hg.2.cons_of_ne hg.1
    rw [List.map_cons, List.eraseDups_cons, eraseDups_filter, groups]
    split
    · next hseen =>
      rw [List.filter_cons_of_neg (by simpa using hseen)]
      exact hrest seen fun k => (or_iff_right_of_imp fun hk => hk ▸ hseen).symm
    · next hseen =>
      rw [List.filter_cons_of_pos (by simpa using hseen)]
      refine .cons ⟨?_, ?_⟩ (hrest (key a :: seen) fun k => List.mem_cons)
      · rw [List.find?_cons_of_pos (by simp)]
      · rw [List.countP_cons_of_pos (by simp), Nat.add_comm]

/-- Whether an element of a list, given with its place, has one before it with the same key. -/
def comesAgain (key : α → String) (as : List α) (x : α × Nat) : Bool :=
  (as.take x.2).any (key · == key x.1)

/-- What repeats is what comes again, when the keys of `front` were seen. -/
theorem repeats_eq {seen : List String} (front : List α)
    (h : ∀ k, k ∈ seen ↔ k ∈ front.map key) (as : List α) :
    repeats key seen as =
      ((as.zipIdx front.length).filter (comesAgain key (front ++ as))).map Prod.fst := by
  induction as generalizing seen front with
  | nil => rfl
  | cons a as ih =>
    have hagain : comesAgain key (front ++ a :: as) (a, front.length) = true ↔ key a ∈ seen := by
      rw [comesAgain, List.take_left, h]
      simp
    -- for the rest, the element is one of those in front
    have hrest : ∀ hidden, (∀ k, k ∈ hidden ↔ k = key a ∨ k ∈ seen) →
        repeats key hidden as = ((as.zipIdx (front.length + 1)).filter
          (comesAgain key (front ++ a :: as))).map Prod.fst := by
      intro hidden hmem
      have hfront : front ++ a :: as = front ++ [a] ++ as := by simp
      have hlength : front.length + 1 = (front ++ [a]).length := by simp
      rw [hfront, hlength]
      refine ih (front ++ [a]) fun k => ?_
      rw [hmem, h, List.map_append, List.mem_append, or_comm, List.map_singleton,
        List.mem_singleton]
    rw [repeats, List.zipIdx_cons]
    split
    · next hseen =>
      rw [List.filter_cons_of_pos (hagain.2 hseen), List.map_cons, hrest seen]
      exact fun k => (or_iff_right_of_imp fun hk => hk ▸ hseen).symm
    · next hseen =>
      rw [List.filter_cons_of_neg (mt hagain.1 hseen)]
      exact hrest (key a :: seen) fun k => List.mem_cons

/-- Each element repeats a key or is the first to bear one that was not seen. -/
theorem length_repeats (key : α → String) (seen : List String) (as : List α) :
    (repeats key seen as).length + ((as.map key).toFinset \ seen.toFinset).card = as.length := by
  induction as generalizing seen with
  | nil => simp [repeats]
  | cons a as ih =>
    rw [repeats, List.map_cons, List.toFinset_cons, List.length_cons]
    split
    · next hseen =>
      have hih := ih seen
      rw [Finset.insert_sdiff_of_mem _ (List.mem_toFinset.2 hseen), List.length_cons]
      omega
    · next hseen =>
      have hih := ih (key a :: seen)
      have hsplit : insert (key a) (as.map key).toFinset \ seen.toFinset =
          insert (key a) ((as.map key).toFinset \ (key a :: seen).toFinset) := by
        ext k
        by_cases hk : k = key a <;> simp [hk, hseen]
      have hnew : key a ∉ (as.map key).toFinset \ (key a :: seen).toFinset := by simp
      rw [hsplit, Finset.card_insert_of_notMem hnew]
      omega

end

/-! ## Names of sections, and the choices of a story -/

namespace Story

/-- How many sections bear a name that is given in lowercase. -/
def bearers (story : Story) (name : String) : Nat :=
  story.sections.countP (Text.lowercase ·.name == name)

/-- The first section to bear a name that is given in lowercase. -/
def firstBearer? (story : Story) (name : String) : Option Section :=
  story.sections.find? (Text.lowercase ·.name == name)

/-- The names that several sections bear, in lowercase, each once, and in the order in which they
come up first. -/
def sharedNames (story : Story) : List String :=
  (story.sections.map (Text.lowercase ·.name)).eraseDups.filter (2 ≤ story.bearers ·)

end Story

/-- The choice that a statement is. -/
def Statement.choice? : Statement → Option Choice
  | .choice c _ => some c
  | _ => none

/-- Every choice of a story at any depth, in reading order. -/
def Story.choices (story : Story) : List Choice := story.preorder.filterMap Statement.choice?

/-- The choice tags whose name an earlier tag of the choice has, letter case aside. -/
def Choice.repeatedTags (c : Choice) : List Tag :=
  (c.choiceTags.zipIdx.filter (comesAgain (Text.lowercase ·.name) c.choiceTags)).map Prod.fst

theorem duplicateChoiceTags_eq (c : Choice) :
    duplicateChoiceTags c = c.repeatedTags.map fun t => ⟨.duplicateChoiceTag t.name, t.span⟩ := by
  rw [duplicateChoiceTags, repeats_eq [] (by simp)]
  rfl

/-- The shared names are those of the groups with several sections. -/
theorem forall₂_sharedNames (story : Story) :
    List.Forall₂ (IsGroup Section.key story.sections) story.sharedNames
      ((groups Section.key [] story.sections).filter (1 < ·.2)) := by
  have h : List.Forall₂ (IsGroup Section.key story.sections)
      (story.sections.map Section.key).eraseDups (groups Section.key [] story.sections) := by
    simpa using forall₂_groups Section.key [] story.sections
  refine List.rel_filter (fun name g hg => ?_) h
  change decide (2 ≤ story.bearers name) = true ↔ decide (1 < g.2) = true
  rw [decide_eq_true_iff, decide_eq_true_iff, hg.2]
  rfl

/-! ## Reports on names that occur twice -/

namespace Finding

/-- Whether a finding is that several sections have one name. -/
def isDuplicateSection : Finding → Bool
  | .duplicateSection .. => true
  | _ => false

/-- Whether a finding is a choice tag that comes again. -/
def isDuplicateChoiceTag : Finding → Bool
  | .duplicateChoiceTag _ => true
  | _ => false

/-- Whether a finding is a name that occurs twice. -/
def isDuplicate (f : Finding) : Bool := f.isDuplicateSection || f.isDuplicateChoiceTag

theorem isKind_duplicateSection :
    IsKind isDuplicateSection fun a : String × Nat => duplicateSection a.1 a.2 where
  ctorIdx f _ := by cases f <;> rfl
  exists_eq f h := by
    cases f with
    | duplicateSection name count => exact ⟨(name, count), rfl⟩
    | _ => cases h

theorem isKind_duplicateChoiceTag : IsKind isDuplicateChoiceTag duplicateChoiceTag where
  ctorIdx f _ := by cases f <;> rfl
  exists_eq f h := by
    cases f with
    | duplicateChoiceTag name => exact ⟨name, rfl⟩
    | _ => cases h

end Finding

section
variable {p : Finding → Bool}

/-- What is said of names that occur twice in a statement is said of the tags of a choice. -/
theorem Statement.reports_findings (hp : ∀ f : Finding, f.isDuplicate = false → p f = false)
    (s : Statement) (inSection : String) :
    reports p (s.findings inSection) =
      s.choice?.toList.flatMap fun c => reports p (duplicateChoiceTags c) := by
  cases s with
  | goto g => rfl
  | call c | replica r => exact reports_ite (reports_singleton (hp _ rfl)) rfl
  | choice c body =>
    have htexts : reports p (if c.inlineText.isSome && c.blockText.isSome then
        [⟨.twoChoiceTexts, c.span⟩] else []) = [] :=
      reports_ite (reports_singleton (hp _ rfl)) rfl
    have hempty : ∀ b : Bool, reports p (if b then [] else
        [⟨.emptyChoice inSection, c.span⟩]) = [] :=
      fun b => reports_ite rfl (reports_singleton (hp _ rfl))
    rw [findings, Choice.findings, reports_append, reports_append, htexts, hempty]
    simp [choice?]

theorem Section.reports_findings (hp : ∀ f : Finding, f.isDuplicate = false → p f = false)
    (s : Section) :
    reports p s.findings =
      (s.preorder.filterMap Statement.choice?).flatMap fun c =>
        reports p (duplicateChoiceTags c) := by
  have hempty : reports p (if s.statements.isEmpty then
      [⟨.emptySection s.name, s.span⟩] else []) = [] :=
    reports_ite (reports_singleton (hp _ rfl)) rfl
  have hstatements : reports p (s.preorder.flatMap (Statement.findings s.name)) =
      s.preorder.flatMap fun u => reports p (u.findings s.name) := List.filter_flatMap
  rw [findings, reports_append, hempty, hstatements, List.filterMap_eq_flatMap_toList,
    List.flatMap_assoc]
  exact congrArg (s.preorder.flatMap ·) (funext fun u => u.reports_findings hp s.name)

/-- Sections come first, then each choice by itself. -/
theorem reports_duplicates (hp : ∀ f : Finding, f.isDuplicate = false → p f = false)
    (story : Story) :
    reports p (validate story) =
      reports p (duplicateSections story.sections) ++
        story.choices.flatMap fun c => reports p (duplicateChoiceTags c) := by
  have htargets : reports p (unknownTargets story) = [] :=
    reports_eq_nil (List.forall_mem_map.2 fun _ _ => hp _ rfl)
  have hunreferenced : reports p (unreferencedSections story) = [] :=
    reports_eq_nil (List.forall_mem_map.2 fun _ _ => hp _ rfl)
  have hsections : reports p (story.sections.flatMap Section.findings) =
      story.sections.flatMap fun s => reports p s.findings := List.filter_flatMap
  rw [validate, reports_append, reports_append, reports_append, htargets, hunreferenced,
    List.append_nil, List.append_nil, hsections, Story.choices, Story.preorder,
    List.filterMap_flatMap, List.flatMap_assoc]
  congr 1
  exact congrArg (story.sections.flatMap ·) (funext fun s => s.reports_findings hp)

end

theorem reports_duplicateSection (story : Story) :
    reports Finding.isDuplicateSection (validate story) = duplicateSections story.sections := by
  have hself : ∀ d ∈ duplicateSections story.sections, d.finding.isDuplicateSection = true :=
    List.forall_mem_map.2 fun _ _ => rfl
  have htags : ∀ c : Choice, reports Finding.isDuplicateSection (duplicateChoiceTags c) = [] :=
    fun c => reports_eq_nil (List.forall_mem_map.2 fun _ _ => rfl)
  rw [reports_duplicates (by simp_all [Finding.isDuplicate]), reports_eq_self hself]
  simp [htags]

theorem reports_duplicateChoiceTag (story : Story) :
    reports Finding.isDuplicateChoiceTag (validate story) =
      story.choices.flatMap duplicateChoiceTags := by
  have hsections : ∀ d ∈ duplicateSections story.sections,
      d.finding.isDuplicateChoiceTag = false := List.forall_mem_map.2 fun _ _ => rfl
  have htags : ∀ c : Choice, reports Finding.isDuplicateChoiceTag (duplicateChoiceTags c) =
      duplicateChoiceTags c := fun c => reports_eq_self (List.forall_mem_map.2 fun _ _ => rfl)
  rw [reports_duplicates (by simp_all [Finding.isDuplicate]), reports_eq_nil hsections,
    List.nil_append]
  simp only [htags]

/-! ## Issues -/

/-- What is said about sections of one name. -/
def duplicateSectionMessage (name : String) (count : Nat) : String :=
  "Duplicate section name: '" ++ name ++ "' is defined " ++ count.repr ++ " times"

/-- What is said about a choice tag that comes again. -/
def duplicateChoiceTagMessage (name : String) : String := "Duplicate choice tag '" ++ name ++ "'"

open Classical in
/-- Each name that several sections bear is reported once, in the order in which these names come
up, at the first section to bear it, as that section spells it and with how many sections bear it.
Of every choice, in reading order, the repeated tags are reported, and they are as many as the
choice has more tags than names. -/
theorem duplicates_validate (story : Story) :
    let issues := (validate story).map Diagnostic.issue
    List.Forall₂ (fun name (i : Issue) => ∃ s, story.firstBearer? name = some s ∧
        i = ⟨.error, duplicateSectionMessage s.name (story.bearers name), some s.span⟩)
      story.sharedNames
      (issues.filter fun i => ∃ name count, i.message = duplicateSectionMessage name count) ∧
    (issues.filter fun i => ∃ name, i.message = duplicateChoiceTagMessage name) =
      (story.choices.flatMap fun c => c.repeatedTags.map fun t =>
        ⟨.error, duplicateChoiceTagMessage t.name, some t.span⟩) ∧
    ∀ c : Choice, c.repeatedTags.length +
      (c.choiceTags.map (Text.lowercase ·.name)).toFinset.card = c.choiceTags.length := by
  intro issues
  refine ⟨?_, ?_, ?_⟩
  · have hfilter : (issues.filter fun i => ∃ name count,
          i.message = duplicateSectionMessage name count) =
        (reports Finding.isDuplicateSection (validate story)).map Diagnostic.issue := by
      rw [← filter_messages Finding.isKind_duplicateSection]
      refine List.filter_congr fun i _ => decide_eq_decide.2 ?_
      constructor
      · rintro ⟨name, count, hi⟩
        exact ⟨(name, count), hi⟩
      · rintro ⟨n, hi⟩
        exact ⟨n.1, n.2, hi⟩
    rw [hfilter, reports_duplicateSection, duplicateSections, List.map_map,
      List.forall₂_map_right_iff]
    refine (forall₂_sharedNames story).imp fun name g hg => ⟨g.1, hg.1, ?_⟩
    obtain ⟨s, n⟩ := g
    obtain rfl : n = story.bearers name := hg.2
    rfl
  · refine (filter_messages Finding.isKind_duplicateChoiceTag _).trans ?_
    rw [reports_duplicateChoiceTag, List.map_flatMap]
    refine congrArg (story.choices.flatMap ·) (funext fun c => ?_)
    rw [duplicateChoiceTags_eq, List.map_map]
    rfl
  · intro c
    have hlength : c.repeatedTags.length = (duplicateChoiceTags c).length := by
      rw [duplicateChoiceTags_eq, List.length_map]
    rw [hlength, duplicateChoiceTags, List.length_map]
    simpa using length_repeats (fun t : Tag => Text.lowercase t.name) [] c.choiceTags

example :
    let bearing (name : String) : Section := ⟨name, [], [], .origin⟩
    let story : Story := ⟨["Room", "Hall", "room", "Attic", "HALL", "ROOM"].map bearing⟩
    (reports Finding.isDuplicateSection (validate story)).map (·.finding.message) =
      ["Duplicate section name: 'Room' is defined 3 times",
        "Duplicate section name: 'Hall' is defined 2 times"] := by
  decide +kernel

end StoryScript

import StoryScript.Issue
import StoryScript.Story
import StoryScript.Token
/-!
# What a story has to keep to

Names of sections are unique, every goto has a target, and nothing is empty. Names are compared by
their lowercase. The statements of a section are looked at in reading order.
-/

namespace StoryScript

/-- The elements that have one before them with the same key, when `seen` are keys of elements
further to the left. -/
def repeats {α : Type} (key : α → String) (seen : List String) : List α → List α
  | [] => []
  | a :: as =>
    if key a ∈ seen then a :: repeats key seen as else repeats key (key a :: seen) as

/-- The elements that have none before them with the same key, each with how many bear the key. -/
def groups {α : Type} (key : α → String) (seen : List String) : List α → List (α × Nat)
  | [] => []
  | a :: as =>
    if key a ∈ seen then groups key seen as
    else (a, 1 + as.countP (key · == key a)) :: groups key (key a :: seen) as

/-- A name that several sections bear is told once, at the first of them. -/
def duplicateSections (sections : List Section) : List Diagnostic :=
  ((groups Section.key [] sections).filter (1 < ·.2)).map fun (s, n) =>
    ⟨.duplicateSection s.name n, s.span⟩

/-- A choice tag that repeats an earlier one of its choice. -/
def duplicateChoiceTags (c : Choice) : List Diagnostic :=
  (repeats (fun t : Tag => Text.lowercase t.name) [] c.choiceTags).map fun t =>
    ⟨.duplicateChoiceTag t.name, t.span⟩

/-- What is wrong with a choice whose body holds statements or not. -/
def Choice.findings (inSection : String) (hasBody : Bool) (c : Choice) : List Diagnostic :=
  let hasText := (c.text?.map (!Text.isBlankText ·)).getD false
  (if c.inlineText.isSome && c.blockText.isSome then [⟨.twoChoiceTexts, c.span⟩] else []) ++
    (if hasText || hasBody then [] else [⟨.emptyChoice inSection, c.span⟩]) ++
    duplicateChoiceTags c

/-- What is wrong with a statement of a section, what it holds aside. -/
def Statement.findings (inSection : String) : Statement → List Diagnostic
  | goto _ => []
  | call c => if Text.isBlankText c.name then [⟨.callWithoutName inSection, c.span⟩] else []
  | replica r => if Text.isBlankText r.text then [⟨.emptyReplica, r.span⟩] else []
  | choice c body => c.findings inSection !(body.getD []).isEmpty

/-- What is wrong inside a section. -/
def Section.findings (s : Section) : List Diagnostic :=
  (if s.statements.isEmpty then [⟨.emptySection s.name, s.span⟩] else []) ++
    s.preorder.flatMap (Statement.findings s.name)

/-- The goto that a statement is. -/
def Statement.goto? : Statement → Option Goto
  | goto g => some g
  | _ => none

/-- Every goto of a story, in reading order. -/
def Story.gotos (story : Story) : List Goto := story.preorder.filterMap Statement.goto?

/-- Gotos whose target is no section. -/
def unknownTargets (story : Story) : List Diagnostic :=
  let known := story.sections.map Section.key
  (story.gotos.filter fun g => Text.lowercase g.target ∉ known).map fun g =>
    ⟨.unknownTarget g.target, g.span⟩

/-- Sections other than the main one that no goto leads to. -/
def unreferencedSections (story : Story) : List Diagnostic :=
  let targets := story.gotos.map fun g => Text.lowercase g.target
  (story.sections.filter fun s => !s.isMain && s.key ∉ targets).map fun s =>
    ⟨.unreferencedSection s.name, s.span⟩

/-- What is wrong with a story. -/
def validate (story : Story) : List Diagnostic :=
  duplicateSections story.sections ++ story.sections.flatMap Section.findings ++
    unknownTargets story ++ unreferencedSections story

/-- What is wrong with tokens: text that is no token. -/
def validateTokens (tokens : List Token) : List Diagnostic :=
  tokens.filterMap fun t =>
    match t.kind with
    | .error text => some ⟨.strayText text, t.span⟩
    | _ => none

end StoryScript

import StoryScript.Proofs.Story.Statements
/-!
# No tag is lost

Tags wait in two lists until a statement, a section or a report takes them. `Woven` says that each
tag goes one of two ways, to its holder or into a report, and that both ways keep the order. The
invariant of a block (`TagsKept`) adds the tags that still wait at its end. `tags_parse` is the
account for a whole list of tokens.
-/

namespace StoryScript

open Token (Kind)

/-! ## Going one of two ways -/

/-- Each element of the last list is in one of the first two, in its order. -/
inductive Woven {α : Type} : List α → List α → List α → Prop where
  | nil : Woven [] [] []
  | left {a : α} {as bs cs : List α} : Woven as bs cs → Woven (a :: as) bs (a :: cs)
  | right {b : α} {as bs cs : List α} : Woven as bs cs → Woven as (b :: bs) (b :: cs)

namespace Woven

variable {α : Type} {as bs cs as' bs' cs' : List α}

theorem append (h : Woven as bs cs) (h' : Woven as' bs' cs') :
    Woven (as ++ as') (bs ++ bs') (cs ++ cs') := by
  induction h with
  | nil => exact h'
  | left _ ih => exact ih.left
  | right _ ih => exact ih.right

theorem all_left (as : List α) : Woven as [] as := by
  induction as with
  | nil => exact .nil
  | cons a as ih => exact ih.left

theorem all_right (bs : List α) : Woven [] bs bs := by
  induction bs with
  | nil => exact .nil
  | cons b bs ih => exact ih.right

end Woven

/-! ## Tags in tokens and in stories -/

/-- The tag at a token that names one, with the value right behind it. -/
def Token.tagNamed (t : Token) (name : String) : List Token → Tag
  | ⟨.tagValue value, span⟩ :: _ => ⟨name, some value, ⟨t.span.start, span.stop⟩⟩
  | _ => ⟨name, none, t.span⟩

/-- The tag at a token when `ts` follows. -/
def Token.tagAt (t : Token) (ts : List Token) : List Tag :=
  match t.kind with
  | .tag name => [t.tagNamed name ts]
  | _ => []

/-- The choice tag at a token when `ts` follows. -/
def Token.choiceTagAt (t : Token) (ts : List Token) : List Tag :=
  match t.kind with
  | .choiceTag name => [t.tagNamed name ts]
  | _ => []

/-- The choice tags of a statement. -/
def Statement.choiceTags : Statement → List Tag
  | .choice c _ => c.choiceTags
  | _ => []

/-- The tags of a section in reading order: its own, and then each statement's. -/
def Section.allTags (s : Section) : List Tag := s.tags ++ s.preorder.flatMap Statement.tags

/-- The choice tags of a section in reading order. -/
def Section.allChoiceTags (s : Section) : List Tag := s.preorder.flatMap Statement.choiceTags

/-- The tags of sections and statements in reading order. -/
def Story.allTags (story : Story) : List Tag := story.sections.flatMap Section.allTags

/-- The choice tags of a story in reading order. -/
def Story.allChoiceTags (story : Story) : List Tag := story.sections.flatMap Section.allChoiceTags

theorem readTag_eq (t : Token) (name : String) (ts : List Token) :
    (readTag t name ts).1 = t.tagNamed name ts := by
  cases ts with
  | nil => rfl
  | cons u ts =>
    obtain ⟨kind, span⟩ := u
    cases kind <;> rfl

theorem tagNamed_append (t : Token) (name : String) (ts : List Token) {rest : List Token}
    (h : Detached rest) : t.tagNamed name (ts ++ rest) = t.tagNamed name ts := by
  cases ts with
  | cons u ts =>
    obtain ⟨kind, span⟩ := u
    cases kind <;> rfl
  | nil =>
    cases rest with
    | nil => rfl
    | cons u rest =>
      obtain ⟨kind, span⟩ := u
      have hk : kind.cuts := h _ rfl
      cases kind <;> first | rfl | cases hk

theorem found_tagAt : FoundAtOpening Token.tagAt where
  nil_of_not_opening := by
    intro t ts h
    unfold Token.tagAt
    cases hk : t.kind <;> simp_all [Kind.isOpening]
  append_detached := by
    intro t ts rest h
    simp only [Token.tagAt, tagNamed_append t _ ts h]

theorem found_choiceTagAt : FoundAtOpening Token.choiceTagAt where
  nil_of_not_opening := by
    intro t ts h
    unfold Token.choiceTagAt
    cases hk : t.kind <;> simp_all [Kind.isOpening]
  append_detached := by
    intro t ts rest h
    simp only [Token.choiceTagAt, tagNamed_append t _ ts h]

/-! ## Items -/

/-- The tag that an item is. -/
def Item.tags : Item → List Tag
  | .tag t => [t]
  | _ => []

/-- The choice tag that an item is. -/
def Item.choiceTags : Item → List Tag
  | .choiceTag t => [t]
  | _ => []

theorem tagAt_readItem (t : Token) (ts : List Token) :
    t.tagAt ts = (readItem t ts).item.tags := by
  unfold Token.tagAt readItem
  cases hk : t.kind with
  | tag name => simp [Item.tags, readTag_eq]
  | goto arrow => cases readTarget ts <;> rfl
  | _ => rfl

theorem choiceTagAt_readItem (t : Token) (ts : List Token) :
    t.choiceTagAt ts = (readItem t ts).item.choiceTags := by
  unfold Token.choiceTagAt readItem
  cases hk : t.kind with
  | choiceTag name => simp [Item.choiceTags, readTag_eq]
  | goto arrow => cases readTarget ts <;> rfl
  | _ => rfl

theorem collect_tagAt (t : Token) (ts : List Token) :
    collect Token.tagAt (t :: ts) = (readItem t ts).item.tags ++
      collect Token.tagAt (readItem t ts).item.inside ++ collect Token.tagAt (readItem t ts).rest := by
  rw [collect_readItem found_tagAt, tagAt_readItem]

theorem collect_choiceTagAt (t : Token) (ts : List Token) :
    collect Token.choiceTagAt (t :: ts) = (readItem t ts).item.choiceTags ++
      collect Token.choiceTagAt (readItem t ts).item.inside ++
      collect Token.choiceTagAt (readItem t ts).rest := by
  rw [collect_readItem found_choiceTagAt, choiceTagAt_readItem]

/-- A statement takes all tags that wait, and is no tag itself. -/
theorem tags_of_statement? {item : Item} {tags choiceTags : List Tag} {body : List Statement}
    {s : Statement} (h : item.statement? tags choiceTags body = some s) :
    s.tags = tags ∧ item.tags = [] := by
  cases item with
  | tag | choiceTag | skipped => cases h
  | goto | call | replica =>
    obtain rfl := Option.some.inj h
    exact ⟨rfl, rfl⟩
  | choice c body =>
    cases body <;>
      obtain rfl := Option.some.inj h <;>
      exact ⟨rfl, rfl⟩

/-- A choice takes the choice tags that wait, and any other statement leaves them all. -/
theorem choiceTags_of_statement? {item : Item} {tags choiceTags : List Tag} {body : List Statement}
    {s : Statement} (h : item.statement? tags choiceTags body = some s) :
    item.choiceTags = [] ∧ Woven s.choiceTags (item.unused choiceTags) choiceTags := by
  cases item with
  | tag | choiceTag | skipped => cases h
  | goto | call | replica =>
    obtain rfl := Option.some.inj h
    exact ⟨rfl, Woven.all_right choiceTags⟩
  | choice c body =>
    cases body <;>
      obtain rfl := Option.some.inj h <;>
      exact ⟨rfl, Woven.all_left choiceTags⟩

/-! ## Reports -/

/-- Whether a finding is about a tag that belongs to nothing. -/
def Finding.isLooseTag : Finding → Bool
  | .looseTag _ => true
  | _ => false

/-- Whether a finding is about a choice tag that no choice follows. -/
def Finding.isLooseChoiceTag : Finding → Bool
  | .looseChoiceTag _ => true
  | _ => false

theorem Finding.isKind_looseTag : IsKind isLooseTag looseTag where
  ctorIdx f _ := by cases f <;> rfl
  exists_eq f h := by
    cases f with
    | looseTag name => exact ⟨name, rfl⟩
    | _ => cases h

theorem Finding.isKind_looseChoiceTag : IsKind isLooseChoiceTag looseChoiceTag where
  ctorIdx f _ := by cases f <;> rfl
  exists_eq f h := by
    cases f with
    | looseChoiceTag name => exact ⟨name, rfl⟩
    | _ => cases h

@[simp] theorem reports_looseTag_looseTags (tags : List Tag) :
    reports Finding.isLooseTag (looseTags tags) = looseTags tags :=
  reports_eq_self (by simp [looseTags, Finding.isLooseTag])

@[simp] theorem reports_looseTag_looseChoiceTags (tags : List Tag) :
    reports Finding.isLooseTag (looseChoiceTags tags) = [] :=
  reports_eq_nil (by simp [looseChoiceTags, Finding.isLooseTag])

@[simp] theorem reports_looseChoiceTag_looseTags (tags : List Tag) :
    reports Finding.isLooseChoiceTag (looseTags tags) = [] :=
  reports_eq_nil (by simp [looseTags, Finding.isLooseChoiceTag])

@[simp] theorem reports_looseChoiceTag_looseChoiceTags (tags : List Tag) :
    reports Finding.isLooseChoiceTag (looseChoiceTags tags) = looseChoiceTags tags :=
  reports_eq_self (by simp [looseChoiceTags, Finding.isLooseChoiceTag])

/-- An item reports neither kind of tag. -/
theorem not_loose_readItem {t : Token} {ts : List Token} {d : Diagnostic}
    (h : d ∈ (readItem t ts).diagnostics) :
    d.finding.isLooseTag = false ∧ d.finding.isLooseChoiceTag = false := by
  obtain ⟨others, hd, ho⟩ := diagnostics_readItem t ts
  rw [hd] at h
  rcases List.mem_append.1 h with h | h
  · obtain ⟨u, -, rfl⟩ := List.mem_map.1 h
    exact ⟨rfl, rfl⟩
  · have := ho d h
    cases hf : d.finding <;> simp_all [Finding.isOfText, Finding.isLooseTag, Finding.isLooseChoiceTag]

@[simp] theorem reports_looseTag_readItem (t : Token) (ts : List Token) :
    reports Finding.isLooseTag (readItem t ts).diagnostics = [] :=
  reports_eq_nil fun _ hd => (not_loose_readItem hd).1

@[simp] theorem reports_looseChoiceTag_readItem (t : Token) (ts : List Token) :
    reports Finding.isLooseChoiceTag (readItem t ts).diagnostics = [] :=
  reports_eq_nil fun _ hd => (not_loose_readItem hd).2

theorem looseTags_append (as bs : List Tag) : looseTags (as ++ bs) = looseTags as ++ looseTags bs :=
  List.map_append

theorem looseChoiceTags_append (as bs : List Tag) :
    looseChoiceTags (as ++ bs) = looseChoiceTags as ++ looseChoiceTags bs := List.map_append

/-! ## Blocks -/

/-- Of the tags that come to a block, those that wait at its end come last, and each of the others
belongs to a statement or is reported. -/
def TagsKept (tags : List Tag) (block : Block) : Prop :=
  ∃ loose settled, tags = settled ++ block.dangling ∧
    Woven ((Statement.preorders block.statements).flatMap Statement.tags) loose settled ∧
    reports Finding.isLooseTag block.diagnostics = looseTags loose

/-- Each of the choice tags that come to a block belongs to a choice or is reported. -/
def ChoiceTagsKept (choiceTags : List Tag) (block : Block) : Prop :=
  ∃ loose, Woven ((Statement.preorders block.statements).flatMap Statement.choiceTags) loose
      choiceTags ∧
    reports Finding.isLooseChoiceTag block.diagnostics = looseChoiceTags loose

theorem tagsKept_parseBlock (tags choiceTags : List Tag) (ts : List Token) :
    TagsKept (tags ++ collect Token.tagAt ts) (parseBlock tags choiceTags ts) := by
  refine parseBlock_induction (motive := fun tags _ ts block =>
    TagsKept (tags ++ collect Token.tagAt ts) block)
    ?nil ?tag ?choiceTag ?skipped ?statement tags choiceTags ts
  case nil =>
    intro tags choiceTags
    exact ⟨[], [], by simp [collect], .nil, reports_looseTag_looseChoiceTags _⟩
  case tag =>
    intro tags choiceTags t ts tag block hi ih
    rw [collect_tagAt, hi]
    simpa [Item.tags, Item.inside, collect] using ih
  case choiceTag =>
    intro tags choiceTags t ts tag block hi ih
    rw [collect_tagAt, hi]
    simpa [Item.tags, Item.inside, collect] using ih
  case skipped =>
    intro tags choiceTags t ts block hi ih
    rw [collect_tagAt, hi]
    obtain ⟨loose, settled, heq, hw, hr⟩ := ih
    exact ⟨loose, settled, by simpa [Item.tags, Item.inside, collect] using heq, hw,
      by simpa using hr⟩
  case statement =>
    intro tags choiceTags t ts s body block hb hs ihbody ih
    subst hb
    obtain ⟨looseB, settledB, heqB, hwB, hrB⟩ := ihbody
    obtain ⟨loose, settled, heq, hw, hr⟩ := ih
    obtain ⟨htags, hitem⟩ := tags_of_statement? hs
    simp only [List.nil_append] at heqB heq
    -- what waits at the end of the body is reported, between the body and what follows
    refine ⟨looseB ++ (parseBlock [] [] (readItem t ts).item.inside).dangling ++ loose,
      tags ++ settledB ++ (parseBlock [] [] (readItem t ts).item.inside).dangling ++ settled, ?_, ?_, ?_⟩
    · rw [collect_tagAt, hitem, heqB, heq]
      simp [Block.push]
    · have h := (((Woven.all_left tags).append hwB).append
        (Woven.all_right (parseBlock [] [] (readItem t ts).item.inside).dangling)).append hw
      simpa [Block.push, Statement.preorders, preorder_of_statement? hs, htags] using h
    · simp [Block.push, statementDiagnostics, looseTags_append, hrB, hr]

theorem choiceTagsKept_parseBlock (tags choiceTags : List Tag) (ts : List Token) :
    ChoiceTagsKept (choiceTags ++ collect Token.choiceTagAt ts) (parseBlock tags choiceTags ts) := by
  refine parseBlock_induction (motive := fun _ choiceTags ts block =>
    ChoiceTagsKept (choiceTags ++ collect Token.choiceTagAt ts) block)
    ?nil ?tag ?choiceTag ?skipped ?statement tags choiceTags ts
  case nil =>
    intro tags choiceTags
    refine ⟨choiceTags, ?_, reports_looseChoiceTag_looseChoiceTags _⟩
    rw [collect, List.append_nil]
    exact Woven.all_right choiceTags
  case tag =>
    intro tags choiceTags t ts tag block hi ih
    rw [collect_choiceTagAt, hi]
    simpa [Item.choiceTags, Item.inside, collect] using ih
  case choiceTag =>
    intro tags choiceTags t ts tag block hi ih
    rw [collect_choiceTagAt, hi]
    simpa [Item.choiceTags, Item.inside, collect] using ih
  case skipped =>
    intro tags choiceTags t ts block hi ih
    rw [collect_choiceTagAt, hi]
    obtain ⟨loose, hw, hr⟩ := ih
    exact ⟨loose, by simpa [Item.choiceTags, Item.inside, collect] using hw, by simpa using hr⟩
  case statement =>
    intro tags choiceTags t ts s body block hb hs ihbody ih
    subst hb
    obtain ⟨looseB, hwB, hrB⟩ := ihbody
    obtain ⟨loose, hw, hr⟩ := ih
    obtain ⟨hitem, hwS⟩ := choiceTags_of_statement? hs
    refine ⟨(readItem t ts).item.unused choiceTags ++ looseB ++ loose, ?_, ?_⟩
    · have h := (hwS.append hwB).append hw
      rw [collect_choiceTagAt, hitem]
      simpa [Block.push, Statement.preorders, preorder_of_statement? hs] using h
    · simp [Block.push, statementDiagnostics, looseChoiceTags_append, hrB, hr]

/-! ## Windows -/

/-- The tags that wait before the first header and those in the windows that are read. -/
theorem woven_tags_parseWindows (tags : List Tag) (ws : List (Token × List Token)) :
    ∃ loose, Woven ((parseWindows tags ws).1.flatMap Section.allTags) loose
        (tags ++ ws.flatMap fun w => if beginsWithName w.2 then collect Token.tagAt w.2 else []) ∧
      reports Finding.isLooseTag (parseWindows tags ws).2 = looseTags loose := by
  induction tags, ws using parseWindows.induct with
  | case1 tags =>
    refine ⟨tags, ?_, reports_looseTag_looseTags tags⟩
    simpa [parseWindows] using Woven.all_right tags
  | case2 tags header name span inside rest block ih =>
    obtain ⟨looseB, settled, heq, hwB, hrB⟩ := tagsKept_parseBlock [] [] inside
    obtain ⟨loose, hw, hr⟩ := ih
    rw [List.nil_append] at heq
    refine ⟨looseB ++ loose, ?_, ?_⟩
    · have h := ((Woven.all_left tags).append hwB).append hw
      rw [parseWindows, List.flatMap_cons, List.flatMap_cons, collect_identifier found_tagAt, heq]
      simpa [Section.allTags, Section.preorder, beginsWithName] using h
    · rw [parseWindows, reports_append, hrB, hr, looseTags_append]
  | case3 tags header ts rest hname ih =>
    obtain ⟨loose, hw, hr⟩ := ih
    rw [parseWindows]
    · refine ⟨tags ++ loose, ?_, ?_⟩
      · have h := (Woven.all_right tags).append hw
        rw [List.flatMap_cons, beginsWithName_eq_false hname]
        simpa using h
      · rw [List.cons_append, ← List.singleton_append, reports_append, reports_append, hr,
          reports_looseTag_looseTags, looseTags_append]
        rfl
    · exact hname

theorem woven_choiceTags_parseWindows (tags : List Tag) (ws : List (Token × List Token)) :
    ∃ loose, Woven ((parseWindows tags ws).1.flatMap Section.allChoiceTags) loose
        (ws.flatMap fun w => if beginsWithName w.2 then collect Token.choiceTagAt w.2 else []) ∧
      reports Finding.isLooseChoiceTag (parseWindows tags ws).2 = looseChoiceTags loose := by
  induction tags, ws using parseWindows.induct with
  | case1 tags => exact ⟨[], .nil, reports_looseChoiceTag_looseTags tags⟩
  | case2 tags header name span inside rest block ih =>
    obtain ⟨looseB, hwB, hrB⟩ := choiceTagsKept_parseBlock [] [] inside
    obtain ⟨loose, hw, hr⟩ := ih
    refine ⟨looseB ++ loose, ?_, ?_⟩
    · rw [parseWindows, List.flatMap_cons, List.flatMap_cons, collect_identifier found_choiceTagAt]
      exact hwB.append hw
    · rw [parseWindows, reports_append, hrB, hr, looseChoiceTags_append]
  | case3 tags header ts rest hname ih =>
    obtain ⟨loose, hw, hr⟩ := ih
    rw [parseWindows]
    · refine ⟨loose, ?_, ?_⟩
      · rw [List.flatMap_cons, beginsWithName_eq_false hname]
        exact hw
      · rw [List.cons_append, ← List.singleton_append, reports_append, reports_append, hr,
          reports_looseChoiceTag_looseTags]
        rfl
    · exact hname

/-! ## Stories -/

theorem woven_tags_parse (tokens : List Token) :
    ∃ loose, Woven (parse tokens).story.allTags loose
        ((heard false tokens).flatMap fun o => o.1.tagAt o.2) ∧
      reports Finding.isLooseTag (parse tokens).diagnostics = looseTags loose := by
  obtain ⟨looseB, settled, heq, hwB, hrB⟩ :=
    tagsKept_parseBlock [] [] (windows (beforeEnd tokens)).1
  obtain ⟨loose, hw, hr⟩ := woven_tags_parseWindows
    (parseBlock [] [] (windows (beforeEnd tokens)).1).dangling (windows (beforeEnd tokens)).2
  refine ⟨looseB ++ loose, ?_, ?_⟩
  · have hs := flatMap_sections_parse Section.allTags
      (fun ss => (Statement.preorders ss).flatMap Statement.tags) (fun _ _ => rfl) rfl tokens
    rw [List.nil_append] at heq
    rw [Story.allTags, hs, collect_heard found_tagAt, if_neg Bool.false_ne_true, heq,
      List.append_assoc]
    exact hwB.append hw
  · rw [diagnostics_parse, reports_append, hrB, hr, looseTags_append]

theorem woven_choiceTags_parse (tokens : List Token) :
    ∃ loose, Woven (parse tokens).story.allChoiceTags loose
        ((heard false tokens).flatMap fun o => o.1.choiceTagAt o.2) ∧
      reports Finding.isLooseChoiceTag (parse tokens).diagnostics = looseChoiceTags loose := by
  obtain ⟨looseB, hwB, hrB⟩ := choiceTagsKept_parseBlock [] [] (windows (beforeEnd tokens)).1
  obtain ⟨loose, hw, hr⟩ := woven_choiceTags_parseWindows
    (parseBlock [] [] (windows (beforeEnd tokens)).1).dangling (windows (beforeEnd tokens)).2
  refine ⟨looseB ++ loose, ?_, ?_⟩
  · have hs := flatMap_sections_parse Section.allChoiceTags
      (fun ss => (Statement.preorders ss).flatMap Statement.choiceTags) (fun _ _ => rfl) rfl tokens
    rw [Story.allChoiceTags, hs, collect_heard found_choiceTagAt, if_neg Bool.false_ne_true]
    exact hwB.append hw
  · rw [diagnostics_parse, reports_append, hrB, hr, looseChoiceTags_append]

/-- What is said about a tag that belongs to nothing. -/
def looseTagMessage (name : String) : String :=
  "Tag '@" ++ name ++ "' is not attached to any statement"

/-- What is said about a choice tag that no choice follows. -/
def looseChoiceTagMessage (name : String) : String :=
  "Choice tag '@" ++ name ++ "' is not followed by a choice"

open Classical in
/-- Every tag that is read belongs to one statement or section or is reported once, every choice tag
that is read belongs to one choice or is reported once, the story holds no other, and all of these
keep the order of the tokens. -/
theorem tags_parse (tokens : List Token) :
    (∃ loose : List Tag,
      Woven (parse tokens).story.allTags loose
        ((heard false tokens).flatMap fun o => o.1.tagAt o.2) ∧
      (parse tokens).issues.filter (fun i => ∃ name, i.message = looseTagMessage name) =
        loose.map fun t => ⟨.warning, looseTagMessage t.name, some t.span⟩) ∧
    ∃ loose : List Tag,
      Woven (parse tokens).story.allChoiceTags loose
        ((heard false tokens).flatMap fun o => o.1.choiceTagAt o.2) ∧
      (parse tokens).issues.filter (fun i => ∃ name, i.message = looseChoiceTagMessage name) =
        loose.map fun t => ⟨.warning, looseChoiceTagMessage t.name, some t.span⟩ := by
  constructor
  · obtain ⟨loose, hw, hr⟩ := woven_tags_parse tokens
    refine ⟨loose, hw, (filter_messages Finding.isKind_looseTag _).trans ?_⟩
    rw [hr, looseTags, List.map_map]
    rfl
  · obtain ⟨loose, hw, hr⟩ := woven_choiceTags_parse tokens
    refine ⟨loose, hw, (filter_messages Finding.isKind_looseChoiceTag _).trans ?_⟩
    rw [hr, looseChoiceTags, List.map_map]
    rfl

end StoryScript

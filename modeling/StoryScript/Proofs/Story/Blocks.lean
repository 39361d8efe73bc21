import StoryScript.Proofs.Story.Items
/-!
# How a block is read

A block is read item by item. An item is a tag that waits, a choice tag that waits, nothing, or a
statement that takes what waits; `parseBlock_induction` is induction over these four, and
`statementRead` says what a statement is read from, kind by kind. A statement is followed in reading
order by the statements of its body (`preorder_of_statement?`).
-/

namespace StoryScript

open Token (Kind)

/-! ## Statements -/

/-- The statement that an item is, with the tags before it and the statements of its body. -/
def Item.statement? (tags choiceTags : List Tag) (body : List Statement) : Item → Option Statement
  | .goto g => some (.goto { g with tags })
  | .call c => some (.call { c with tags })
  | .replica r => some (.replica { r with tags })
  | .choice c none => some (.choice { c with tags, choiceTags } none)
  | .choice c (some _) => some (.choice { c with tags, choiceTags } (some body))
  | .tag _ | .choiceTag _ | .skipped => none

/-- The choice tags that a statement leaves unused. -/
def Item.unused (choiceTags : List Tag) : Item → List Tag
  | .choice _ _ => []
  | _ => choiceTags

/-- What is said around a statement: about the item, the choice tags it leaves, and its body. -/
def statementDiagnostics (r : ItemRead) (choiceTags : List Tag) (body : Block) : List Diagnostic :=
  r.diagnostics ++ looseChoiceTags (r.item.unused choiceTags) ++ body.diagnostics ++
    looseTags body.dangling

@[simp] theorem parseBlock_nil (tags choiceTags : List Tag) :
    parseBlock tags choiceTags [] = ⟨[], tags, looseChoiceTags choiceTags⟩ := by
  rw [parseBlock]

@[simp] theorem looseTags_nil : looseTags [] = [] := rfl

@[simp] theorem looseChoiceTags_nil : looseChoiceTags [] = [] := rfl

variable {tags choiceTags : List Tag} {t : Token} {ts : List Token}

theorem parseBlock_tag {tag : Tag} (h : (readItem t ts).item = .tag tag) :
    parseBlock tags choiceTags (t :: ts) =
      parseBlock (tags ++ [tag]) choiceTags (readItem t ts).rest := by
  rw [parseBlock.eq_2]
  split <;> simp_all

theorem parseBlock_choiceTag {tag : Tag} (h : (readItem t ts).item = .choiceTag tag) :
    parseBlock tags choiceTags (t :: ts) =
      parseBlock tags (choiceTags ++ [tag]) (readItem t ts).rest := by
  rw [parseBlock.eq_2]
  split <;> simp_all

theorem parseBlock_skipped (h : (readItem t ts).item = .skipped) :
    parseBlock tags choiceTags (t :: ts) =
      { parseBlock tags choiceTags (readItem t ts).rest with
        diagnostics := (readItem t ts).diagnostics ++
          (parseBlock tags choiceTags (readItem t ts).rest).diagnostics } := by
  rw [parseBlock.eq_2]
  split <;> simp_all

/-- Reading a statement, whatever its kind. -/
theorem parseBlock_statement {s : Statement}
    (h : (readItem t ts).item.statement? tags choiceTags
      (parseBlock [] [] (readItem t ts).item.inside).statements = some s) :
    parseBlock tags choiceTags (t :: ts) =
      (parseBlock [] [] (readItem t ts).rest).push s
        (statementDiagnostics (readItem t ts) choiceTags
          (parseBlock [] [] (readItem t ts).item.inside)) := by
  rw [parseBlock.eq_2]
  -- a tag or nothing is no statement
  split <;> next hi =>
    simp only [hi, Item.statement?, Item.inside, Option.some.injEq, reduceCtorEq] at h
    try subst h; simp [statementDiagnostics, Item.unused, Item.inside, hi]

variable {motive : List Tag → List Tag → List Token → Block → Prop}

/-- Induction over the items of a block and over the bodies they hold. -/
theorem parseBlock_induction
    (nil : ∀ tags choiceTags, motive tags choiceTags [] ⟨[], tags, looseChoiceTags choiceTags⟩)
    (tag : ∀ tags choiceTags t ts tag block, (readItem t ts).item = .tag tag →
      motive (tags ++ [tag]) choiceTags (readItem t ts).rest block →
      motive tags choiceTags (t :: ts) block)
    (choiceTag : ∀ tags choiceTags t ts tag block, (readItem t ts).item = .choiceTag tag →
      motive tags (choiceTags ++ [tag]) (readItem t ts).rest block →
      motive tags choiceTags (t :: ts) block)
    (skipped : ∀ tags choiceTags t ts block, (readItem t ts).item = .skipped →
      motive tags choiceTags (readItem t ts).rest block →
      motive tags choiceTags (t :: ts)
        { block with diagnostics := (readItem t ts).diagnostics ++ block.diagnostics })
    (statement : ∀ tags choiceTags t ts s body block,
      body = parseBlock [] [] (readItem t ts).item.inside →
      (readItem t ts).item.statement? tags choiceTags body.statements = some s →
      motive [] [] (readItem t ts).item.inside body →
      motive [] [] (readItem t ts).rest block →
      motive tags choiceTags (t :: ts)
        (block.push s (statementDiagnostics (readItem t ts) choiceTags body)))
    (tags choiceTags : List Tag) (ts : List Token) :
    motive tags choiceTags ts (parseBlock tags choiceTags ts) := by
  -- the cases of an item with a statement differ only in what the statement is
  have stmt : ∀ tags choiceTags t ts s,
      (readItem t ts).item.statement? tags choiceTags
        (parseBlock [] [] (readItem t ts).item.inside).statements = some s →
      motive [] [] (readItem t ts).item.inside (parseBlock [] [] (readItem t ts).item.inside) →
      motive [] [] (readItem t ts).rest (parseBlock [] [] (readItem t ts).rest) →
      motive tags choiceTags (t :: ts) (parseBlock tags choiceTags (t :: ts)) := by
    intro tags choiceTags t ts s hs hbody hrest
    rw [parseBlock_statement hs]
    exact statement tags choiceTags t ts s _ _ rfl hs hbody hrest
  have empty : motive [] [] [] (parseBlock [] [] []) := by
    rw [parseBlock_nil]
    exact nil [] []
  induction tags, choiceTags, ts using parseBlock.induct with
  | case1 tags choiceTags =>
    rw [parseBlock_nil]
    exact nil tags choiceTags
  | case2 tags choiceTags t ts r tg hi ih =>
    rw [parseBlock_tag hi]
    exact tag tags choiceTags t ts tg _ hi ih
  | case3 tags choiceTags t ts r tg hi ih =>
    rw [parseBlock_choiceTag hi]
    exact choiceTag tags choiceTags t ts tg _ hi ih
  | case4 tags choiceTags t ts r hi ih =>
    rw [parseBlock_skipped hi]
    exact skipped tags choiceTags t ts _ hi ih
  | case5 tags choiceTags t ts r g hi ih =>
    exact stmt tags choiceTags t ts _ (by rw [hi, Item.statement?]) (by rw [hi]; exact empty) ih
  | case6 tags choiceTags t ts r c hi ih =>
    exact stmt tags choiceTags t ts _ (by rw [hi, Item.statement?]) (by rw [hi]; exact empty) ih
  | case7 tags choiceTags t ts r c hi ih =>
    exact stmt tags choiceTags t ts _ (by rw [hi, Item.statement?]) (by rw [hi]; exact empty) ih
  | case8 tags choiceTags t ts r c hi ih =>
    exact stmt tags choiceTags t ts _ (by rw [hi, Item.statement?]) (by rw [hi]; exact empty) ih
  | case9 tags choiceTags t ts r c inside hi _ ihbody ih =>
    exact stmt tags choiceTags t ts _ (by rw [hi, Item.statement?]) (by rw [hi]; exact ihbody) ih

/-! ## What is said about an item -/

/-- The name that tokens begin with, if it can be a target: not blank, and without blanks around. -/
def targetName : List Token → Option String
  | ⟨.identifier name, _⟩ :: _ => if Text.isBlankText name then none else some (Text.trimmed name)
  | _ => none

/-- An arrow that no target follows. -/
def Token.targetless (t : Token) (ts : List Token) : List Token :=
  match t.kind with
  | .goto _ => if (targetName ts).isSome then [] else [t]
  | _ => []

/-- The reports on arrows without a target. -/
def targetlessReports (ts : List Token) : List Diagnostic :=
  ts.map fun t => ⟨.gotoWithoutTarget, t.span⟩

theorem readTarget_eq (ts : List Token) :
    (readTarget ts).map (·.1) = targetName ts := by
  cases ts with
  | nil => rfl
  | cons t ts =>
    obtain ⟨kind, span⟩ := t
    cases kind with
    | identifier name => by_cases h : Text.isBlankText name <;> simp [readTarget, targetName, h]
    | _ => rfl

/-- The findings in the text or the arguments of one statement. -/
def Finding.isOfText : Finding → Bool
  | .callWithoutArguments _ | .openChoiceText | .openInlineCall => true
  | _ => false

theorem isOfText_segmentsOf (runs : List Run) : ∀ d ∈ (segmentsOf runs).2, d.finding.isOfText := by
  intro d hd
  obtain ⟨n, -, rfl⟩ := List.mem_map.1 hd
  rfl

theorem isOfText_readCall (t : Token) (name : String) (ts : List Token) :
    ∀ d ∈ (readCall t name ts).2.1, d.finding.isOfText := by
  unfold readCall
  dsimp only
  split
  · simp [Finding.isOfText]
  · exact nofun

theorem isOfText_readChoiceText (ts : List Token) :
    ∀ d ∈ (readChoiceText ts).diagnostics, d.finding.isOfText := by
  unfold readChoiceText
  split
  · unfold readInlineText
    split <;> exact nofun
  · unfold readBlockText
    dsimp only
    split
    · exact nofun
    · simp [Finding.isOfText]
  · exact nofun

/-- An item reports an arrow without a target and what is wrong in its own text, nothing else. -/
theorem diagnostics_readItem (t : Token) (ts : List Token) :
    ∃ others, (readItem t ts).diagnostics = targetlessReports (t.targetless ts) ++ others ∧
      ∀ d ∈ others, d.finding.isOfText := by
  unfold Token.targetless readItem
  cases hk : t.kind with
  | goto arrow =>
    refine ⟨[], ?_, nofun⟩
    dsimp only
    rw [← readTarget_eq]
    cases readTarget ts <;> rfl
  | call name => exact ⟨(readCall t name ts).2.1, rfl, isOfText_readCall t name ts⟩
  | replicaBegin => exact ⟨_, rfl, isOfText_segmentsOf _⟩
  | choice =>
    refine ⟨_, rfl, ?_⟩
    intro d hd
    rcases List.mem_append.1 hd with hd | hd
    · exact isOfText_readChoiceText ts d hd
    · exact isOfText_segmentsOf _ d hd
  | _ => exact ⟨[], rfl, nofun⟩

/-! ## Tags among the items -/

theorem kind_of_item_tag {tag : Tag} (h : (readItem t ts).item = .tag tag) :
    ∃ name, t.kind = .tag name ∧ tag = (readTag t name ts).1 := by
  unfold readItem at h
  cases hk : t.kind with
  | tag name =>
    rw [hk] at h
    exact ⟨name, rfl, (Item.tag.inj h).symm⟩
  | goto arrow =>
    rw [hk] at h
    dsimp only at h
    split at h <;> cases h
  | _ =>
    rw [hk] at h
    cases h

theorem kind_of_item_choiceTag {tag : Tag} (h : (readItem t ts).item = .choiceTag tag) :
    ∃ name, t.kind = .choiceTag name ∧ tag = (readTag t name ts).1 := by
  unfold readItem at h
  cases hk : t.kind with
  | choiceTag name =>
    rw [hk] at h
    exact ⟨name, rfl, (Item.choiceTag.inj h).symm⟩
  | goto arrow =>
    rw [hk] at h
    dsimp only at h
    split at h <;> cases h
  | _ =>
    rw [hk] at h
    cases h

/-! ## What a statement is read from -/

/-- The statement is read from a token of its kind and what stands behind it. It has the tags that wait,
and a choice has the choice tags and, if anything is indented under it, the body. -/
inductive StatementRead (t : Token) (ts : List Token) (tags choiceTags : List Tag)
    (body : List Statement) : Statement → Prop where
  | goto {arrow target span rest} (hk : t.kind = .goto arrow)
      (hr : readTarget ts = some (target, span, rest))
      (hitem : readItem t ts = { item := .goto ⟨target, [], t.span.through span⟩, rest := rest }) :
      StatementRead t ts tags choiceTags body (.goto ⟨target, tags, t.span.through span⟩)
  | call {name} (hk : t.kind = .call name)
      (hitem : readItem t ts =
        ⟨.call (readCall t name ts).1, (readCall t name ts).2.1, (readCall t name ts).2.2⟩) :
      StatementRead t ts tags choiceTags body (.call { (readCall t name ts).1 with tags })
  | replica (hk : t.kind = .replicaBegin)
      (hitem : readItem t ts =
        ⟨.replica (readReplica t ts).1, (readReplica t ts).2.1, (readReplica t ts).2.2⟩) :
      StatementRead t ts tags choiceTags body (.replica { (readReplica t ts).1 with tags })
  | choice {c inside} (hk : t.kind = .choice) (hitem : readItem t ts = readChoice t ts)
      (hi : (readChoice t ts).item = .choice c inside) :
      StatementRead t ts tags choiceTags body
        (.choice { c with tags, choiceTags } (inside.map fun _ => body))

theorem statementRead {body : List Statement} {s : Statement}
    (h : (readItem t ts).item.statement? tags choiceTags body = some s) :
    StatementRead t ts tags choiceTags body s := by
  cases hk : t.kind with
  | goto arrow =>
    cases hr : readTarget ts with
    | none => simp [readItem, hk, hr, Item.statement?] at h
    | some r =>
      obtain ⟨target, span, rest⟩ := r
      have hitem : readItem t ts =
          { item := .goto ⟨target, [], t.span.through span⟩, rest := rest } := by
        simp [readItem, hk, hr]
      rw [hitem] at h
      obtain rfl := Option.some.inj h
      exact .goto hk hr hitem
  | call name =>
    have hitem : readItem t ts =
        ⟨.call (readCall t name ts).1, (readCall t name ts).2.1, (readCall t name ts).2.2⟩ := by
      simp [readItem, hk]
    rw [hitem] at h
    obtain rfl := Option.some.inj h
    exact .call hk hitem
  | replicaBegin =>
    have hitem : readItem t ts =
        ⟨.replica (readReplica t ts).1, (readReplica t ts).2.1, (readReplica t ts).2.2⟩ := by
      simp [readItem, hk]
    rw [hitem] at h
    obtain rfl := Option.some.inj h
    exact .replica hk hitem
  | choice =>
    have hitem : readItem t ts = readChoice t ts := by simp [readItem, hk]
    obtain ⟨c, inside, hi⟩ : ∃ c inside, (readChoice t ts).item = .choice c inside := ⟨_, _, rfl⟩
    rw [hitem, hi] at h
    cases inside with
    | none | some inside =>
      obtain rfl := Option.some.inj h
      exact .choice hk hitem hi
  | _ => simp [readItem, hk, Item.statement?] at h

/-! ## Reading order -/

/-- A statement comes right before the statements of its body. -/
theorem preorder_of_statement? {item : Item} {s : Statement}
    (h : item.statement? tags choiceTags (parseBlock [] [] item.inside).statements = some s) :
    s.preorder = s :: Statement.preorders (parseBlock [] [] item.inside).statements := by
  cases item with
  | tag | choiceTag | skipped => cases h
  | goto g =>
    obtain rfl := Option.some.inj h
    simp [Statement.preorder, Item.inside, Statement.preorders]
  | call c =>
    obtain rfl := Option.some.inj h
    simp [Statement.preorder, Item.inside, Statement.preorders]
  | replica r =>
    obtain rfl := Option.some.inj h
    simp [Statement.preorder, Item.inside, Statement.preorders]
  | choice c body =>
    cases body with
    | none =>
      obtain rfl := Option.some.inj h
      simp [Statement.preorder, Item.inside, Statement.preorders]
    | some inside =>
      obtain rfl := Option.some.inj h
      simp [Statement.preorder, Item.inside]

end StoryScript

import StoryScript.Proofs.Indexed.Choices
import StoryScript.Proofs.Indexed.Items
import StoryScript.Proofs.Story.Blocks
/-!
# Blocks by index

A window of tokens is read item by item in a loop with a ceiling on its turns. The body of a choice is
read as a window of its own by the same loop, as deep as choices nest. Each turn takes a token, and the
window of a body is smaller than the one it lies in. So the ceiling is never reached, the nesting is no
deeper than there are tokens, and the block is the one that the tokens of the window hold
(`At.blockAt_eq`).
-/

namespace StoryScript.Indexed

open Token (Kind)

variable {tokens ts : List Token} {t : Token} {i j stop : Nat}

/-! ## Items -/

/-- What begins at an index. A statement still lacks the tags before it. -/
inductive Found where
  | tag (tag : Tag)
  | choiceTag (tag : Tag)
  | statement (s : Statement)
  | nothing

/-- What begins at an index, what is to be said about it, and the index behind it. -/
structure FoundAt where
  found : Found
  said : List Diagnostic := []
  next : Nat

/-- What begins at a token that begins no choice. -/
def leafAt (tokens : List Token) (t : Token) (i stop : Nat) : Guarded FoundAt := do
  match t.kind with
  | .tag _ =>
    let r ← tagAt tokens i stop
    return { found := .tag r.1, next := r.2 }
  | .choiceTag _ =>
    let r ← tagAt tokens i stop
    return { found := .choiceTag r.1, next := r.2 }
  | .goto _ =>
    let r ← gotoAt tokens i stop
    return ⟨(r.1.map fun g => .statement (.goto g)).getD .nothing, r.2.1, r.2.2⟩
  | .call name =>
    let r ← callAt tokens name i stop
    return ⟨.statement (.call r.1), r.2.1, r.2.2⟩
  | .replicaBegin =>
    let r ← replicaAt tokens i stop
    return ⟨.statement (.replica r.1), r.2.1, r.2.2⟩
  | _ => return { found := .nothing, next := i + 1 }

/-- A statement with the tags before it. -/
def tagged (tags choiceTags : List Tag) : Statement → Statement
  | .goto g => .goto { g with tags }
  | .call c => .call { c with tags }
  | .replica r => .replica { r with tags }
  | .choice c body => .choice { c with tags, choiceTags } body

/-- The choice tags that a statement has no use for. -/
def unused (choiceTags : List Tag) : Statement → List Tag
  | .choice _ _ => []
  | _ => choiceTags

/-! ## Blocks -/

/-- A block that is being read: its statements so far, and the tags that wait. -/
structure Unfinished where
  statements : List Statement := []
  tags : List Tag := []
  choiceTags : List Tag := []
  diagnostics : List Diagnostic := []

namespace Unfinished

/-- One more item. A statement takes what waits, and choice tags that it has no use for are told. -/
def add (done : Unfinished) (said : List Diagnostic) : Found → Unfinished
  | .tag tag => { done with tags := done.tags ++ [tag], diagnostics := done.diagnostics ++ said }
  | .choiceTag tag =>
    { done with choiceTags := done.choiceTags ++ [tag], diagnostics := done.diagnostics ++ said }
  | .nothing => { done with diagnostics := done.diagnostics ++ said }
  | .statement s =>
    { statements := done.statements ++ [tagged done.tags done.choiceTags s]
      diagnostics := done.diagnostics ++ (said ++ looseChoiceTags (unused done.choiceTags s)) }

/-- The block when there are no more items. -/
def close (done : Unfinished) : Block :=
  ⟨done.statements, done.tags, done.diagnostics ++ looseChoiceTags done.choiceTags⟩

end Unfinished

/-- The statements of a body, if there is one, what is to be said about them, and the index behind
them. -/
structure BodyAt where
  statements : Option (List Statement) := none
  said : List Diagnostic := []
  next : Nat

section
variable (tokens : List Token) (readWindow : Nat → Nat → Guarded Block)

/-- The body behind an index, if an indent is the first token there that is no trivia. Its window is
read by `readWindow`. -/
def bodyAt (stop j : Nat) : Guarded BodyAt := do
  let k := skipTrivia tokens stop j
  if kindAt tokens k stop = some .indent then
    let bodyStop ← matchingDedent tokens k stop
    let block ← readWindow (k + 1) bodyStop
    return ⟨some block.statements, block.diagnostics ++ looseTags block.dangling,
      min (bodyStop + 1) stop⟩
  else return { next := j }

/-- The choice at an index. -/
def choiceAt (i stop : Nat) : Guarded FoundAt := do
  let text ← choiceTextAt tokens i stop
  let segments ← segmentText text.map
  let body ← bodyAt tokens readWindow stop text.next
  let t ← tokenAt tokens i
  let span := (extentAt tokens i body.next).getD t.span
  let choice := ⟨text.inlineText, text.blockText, segments.1, [], [], span⟩
  return ⟨.statement (.choice choice body.statements),
    text.diagnostics ++ segments.2 ++ body.said, body.next⟩

/-- What begins at a token. -/
def itemAt (t : Token) (i stop : Nat) : Guarded FoundAt :=
  if t.kind = .choice then choiceAt tokens readWindow i stop else leafAt tokens t i stop

/-- The statements from an index on, behind what is done. At most `ceiling` turns are made. -/
def blockFrom (stop ceiling turns i : Nat) (done : Unfinished) : Guarded Block := do
  if i < stop then
    if turns + 1 ≤ ceiling then
      let t ← tokenAt tokens i
      let r ← itemAt tokens readWindow t i stop
      blockFrom stop ceiling (turns + 1) r.next (done.add r.said r.found)
    else throw .ceiling
  else return done.close
termination_by ceiling - turns

end

/-- The statements of a window. A body is a window that is read in its turn, one level deeper, and
`depth` levels are allowed. -/
def blockWithin (tokens : List Token) : (depth : Nat) → (start stop : Nat) → Guarded Block
  | 0, _, _ => throw .depth
  | depth + 1, start, stop => do
    checkWindow tokens start stop
    blockFrom tokens (blockWithin tokens depth) stop (stop - start + 1) 0 start {}

/-- The statements of a window. A level for each token is allowed, and one more. -/
def blockAt (tokens : List Token) (start stop : Nat) : Guarded Block :=
  blockWithin tokens (tokens.length + 1) start stop

/-! ## Items are read alike -/

/-- An item, when the statements of its body are known. -/
def found (body : List Statement) : Item → Found
  | .tag tag => .tag tag
  | .choiceTag tag => .choiceTag tag
  | .goto g => .statement (.goto g)
  | .call c => .statement (.call c)
  | .replica r => .statement (.replica r)
  | .choice c inside => .statement (.choice c (inside.map fun _ => body))
  | .skipped => .nothing

/-- What was found is what was read from a list, and the next index is that of the tokens left. -/
def ReadsItem (tokens : List Token) (stop : Nat) (x : Guarded FoundAt) (r : ItemRead) : Prop :=
  ∃ next, x = pure ⟨found (parseBlock [] [] r.item.inside).statements r.item,
      r.diagnostics ++ ((parseBlock [] [] r.item.inside).diagnostics ++
        looseTags (parseBlock [] [] r.item.inside).dangling), next⟩ ∧
    At tokens next stop r.rest

theorem readsItem_leaf {x : Guarded FoundAt} {r : ItemRead} (hinside : r.item.inside = [])
    {next : Nat} (hx : x = pure ⟨found [] r.item, r.diagnostics, next⟩)
    (hat : At tokens next stop r.rest) : ReadsItem tokens stop x r := by
  refine ⟨next, ?_, hat⟩
  rw [hx, hinside, parseBlock_nil, looseTags_nil, looseChoiceTags_nil, List.append_nil,
    List.append_nil]

theorem At.leafAt_eq (h : At tokens i stop (t :: ts)) (hkind : t.kind ≠ .choice) :
    ReadsItem tokens stop (leafAt tokens t i stop) (readItem t ts) := by
  obtain ⟨kind, span⟩ := t
  cases kind with
  | tag name =>
    obtain ⟨next, hx, hat⟩ := h.tagAt_eq rfl
    refine readsItem_leaf rfl ?_ hat
    rw [leafAt, hx]
    rfl
  | choiceTag name =>
    obtain ⟨next, hx, hat⟩ := h.tagAt_eq rfl
    refine readsItem_leaf rfl ?_ hat
    rw [leafAt, hx]
    rfl
  | goto arrow =>
    have hgoto := h.gotoAt_eq
    rw [readItem]
    dsimp only at hgoto ⊢
    cases htarget : readTarget ts with
    | none =>
      rw [htarget] at hgoto
      refine readsItem_leaf rfl ?_ h.tail
      rw [leafAt, hgoto]
      rfl
    | some target =>
      rw [htarget] at hgoto
      obtain ⟨hx, hat⟩ := hgoto
      refine readsItem_leaf rfl ?_ hat
      rw [leafAt, hx]
      rfl
  | call name =>
    obtain ⟨next, hx, hat⟩ := h.callAt_eq name
    refine readsItem_leaf rfl ?_ hat
    dsimp only [leafAt]
    rw [hx]
    rfl
  | replicaBegin =>
    obtain ⟨next, hx, hat⟩ := h.replicaAt_eq
    refine readsItem_leaf rfl ?_ hat
    rw [leafAt, hx]
    rfl
  | choice => exact absurd rfl hkind
  | _ => exact readsItem_leaf rfl rfl h.tail

/-- The tokens of a body, or none. -/
def insideOf (ts : List Token) : List Token := ((readIndented ts).map (·.1)).getD []

/-- The tokens behind a body, or all. -/
def behindOf (ts : List Token) : List Token := ((readIndented ts).map (·.2)).getD ts

/-- An indent behind trivia begins a body. -/
theorem readIndented_cases (ts : List Token) :
    (∃ span rest, ts.dropWhile (·.isTrivia) = ⟨.indent, span⟩ :: rest ∧
        readIndented ts = some (readBody 1 rest)) ∨
      (ts.dropWhile (·.isTrivia)).head?.map Token.kind ≠ some .indent ∧ readIndented ts = none := by
  rw [readIndented]
  split
  · next span rest hdrop => exact .inl ⟨span, rest, hdrop, rfl⟩
  · next hdrop =>
    refine .inr ⟨fun hkind => ?_, rfl⟩
    cases htokens : ts.dropWhile (·.isTrivia) with
    | nil => rw [htokens] at hkind; cases hkind
    | cons u us =>
      rw [htokens] at hkind
      obtain ⟨kind, span⟩ := u
      obtain rfl : kind = .indent := Option.some.inj hkind
      exact hdrop span us htokens

theorem filter_isSolid_trivia (ts : List Token) :
    (ts.takeWhile (·.isTrivia)).filter Token.isSolid = [] := by
  rw [List.filter_eq_nil_iff]
  intro u hu
  have htrivia : u.isTrivia = true := List.all_eq_true.1 List.all_takeWhile u hu
  rw [Token.isTrivia] at htrivia
  simp [Token.isSolid, htrivia]

/-- A body is all that is solid of what is read up to its end. -/
theorem exists_append_behindOf (ts : List Token) :
    ∃ read, ts = read ++ behindOf ts ∧
      read.filter Token.isSolid = (insideOf ts).filter Token.isSolid := by
  rcases readIndented_cases ts with ⟨span, rest, hdrop, hbody⟩ | ⟨-, hbody⟩
  · have htrivia := filter_isSolid_trivia ts
    have hts : ts = ts.takeWhile (·.isTrivia) ++ ⟨.indent, span⟩ :: rest := by
      rw [← hdrop, List.takeWhile_append_dropWhile]
    generalize ts.takeWhile (·.isTrivia) = trivia at htrivia hts
    rw [behindOf, insideOf, hbody, Option.map_some, Option.map_some, Option.getD_some,
      Option.getD_some]
    rcases readBody_append 1 rest with ⟨hinside, hbehind⟩ | ⟨span', hsplit⟩
    · refine ⟨ts, by rw [hbehind, List.append_nil], ?_⟩
      rw [hts, ← hinside, List.filter_append, htrivia]
      rfl
    · refine ⟨trivia ++ ⟨.indent, span⟩ :: (readBody 1 rest).1 ++ [⟨.dedent, span'⟩], ?_, ?_⟩
      · conv_lhs => rw [hts, hsplit]
        simp
      · rw [List.filter_append, List.filter_append, htrivia]
        exact List.append_nil _
  · rw [behindOf, insideOf, hbody]
    exact ⟨[], rfl, rfl⟩

/-- Windows that hold these tokens are read as their block. -/
def ReadsWindows (tokens : List Token) (readWindow : Nat → Nat → Guarded Block)
    (ts : List Token) : Prop :=
  ∀ start stop, At tokens start stop ts → readWindow start stop = pure (parseBlock [] [] ts)

section
variable {readWindow : Nat → Nat → Guarded Block}

theorem At.bodyAt_eq (h : At tokens j stop ts)
    (hwindow : ReadsWindows tokens readWindow (insideOf ts)) :
    ∃ next, bodyAt tokens readWindow stop j = pure
        ⟨(readIndented ts).map fun _ => (parseBlock [] [] (insideOf ts)).statements,
          (parseBlock [] [] (insideOf ts)).diagnostics ++
            looseTags (parseBlock [] [] (insideOf ts)).dangling, next⟩ ∧
      At tokens next stop (behindOf ts) := by
  have hat := h.behindTrivia
  rw [bodyAt, hat.kindAt_eq]
  generalize skipTrivia tokens stop j = k at hat ⊢
  rcases readIndented_cases ts with ⟨span, rest, hdrop, hbody⟩ | ⟨hkind, hbody⟩
  · rw [hdrop] at hat
    obtain ⟨hinside, hbehind⟩ := hat.tail.body
    have hblock := hwindow (k + 1) (k + 1 + (readBody 1 rest).1.length)
      (by rw [insideOf, hbody]; exact hinside)
    rw [hdrop, List.head?_cons, Option.map_some, if_pos rfl, hat.matchingDedent_eq, pure_bind,
      hblock, pure_bind, hbody]
    refine ⟨_, rfl, ?_⟩
    rw [behindOf, hbody]
    exact hbehind
  · have hinside : insideOf ts = [] := by
      rw [insideOf, hbody]
      rfl
    rw [if_neg hkind, hinside, parseBlock_nil, behindOf, hbody]
    exact ⟨j, rfl, h⟩

theorem extent_congr {as bs : List Token}
    (h : as.filter Token.isSolid = bs.filter Token.isSolid) : Token.extent as = Token.extent bs := by
  unfold Token.extent
  rw [h]

theorem inside_readChoice (t : Token) (ts : List Token) :
    (readChoice t ts).item.inside = insideOf (readChoiceText ts).rest := by
  rw [insideOf, readChoice]
  dsimp only
  cases readIndented (readChoiceText ts).rest <;> rfl

/-- A choice is read once the window of its body is. -/
theorem At.choiceAt_eq (h : At tokens i stop (t :: ts)) (hkind : t.kind = .choice)
    (hwindow : ReadsWindows tokens readWindow (readItem t ts).item.inside) :
    ReadsItem tokens stop (choiceAt tokens readWindow i stop) (readItem t ts) := by
  have hitem : readItem t ts = readChoice t ts := by rw [readItem, hkind]
  rw [hitem] at hwindow ⊢
  rw [inside_readChoice] at hwindow
  obtain ⟨m, j, htext, hmaps, hat⟩ := h.choiceTextAt_eq
  obtain ⟨next, hbody, hnext⟩ := hat.bodyAt_eq hwindow
  -- from the choice up to the end of its body the same tokens are solid
  obtain ⟨read, hread, hsolid⟩ := exists_append_behindOf (readChoiceText ts).rest
  have hall : At tokens i stop
      (t :: (readChoiceText ts).taken ++ read ++ behindOf (readChoiceText ts).rest) := by
    rwa [List.append_assoc, ← hread, List.cons_append, ← (reads_readChoiceText ts).append]
  have hextent : extentAt tokens i next =
      Token.extent (t :: (readChoiceText ts).taken ++ insideOf (readChoiceText ts).rest) := by
    rw [hall.of_right hnext, hall.of_append_left.extentAt_eq]
    exact extent_congr (by rw [List.filter_append, List.filter_append, hsolid])
  refine ⟨next, ?_, hnext⟩
  rw [choiceAt, htext, pure_bind]
  dsimp only
  rw [hmaps.segmentText_eq, pure_bind, hbody, pure_bind, h.tokenAt_eq, pure_bind]
  dsimp only
  rw [hextent, inside_readChoice, readChoice]
  dsimp only [found]
  rw [Option.map_map]
  rfl

/-! ## Blocks are read alike -/

/-- A block behind what is done. -/
def Unfinished.join (done : Unfinished) (block : Block) : Block :=
  ⟨done.statements ++ block.statements, block.dangling, done.diagnostics ++ block.diagnostics⟩

theorem Unfinished.join_statement (done : Unfinished) {s : Statement} {said : List Diagnostic}
    (hs : (readItem t ts).item.statement? done.tags done.choiceTags
      (parseBlock [] [] (readItem t ts).item.inside).statements =
        some (tagged done.tags done.choiceTags s))
    (hsaid : statementDiagnostics (readItem t ts) done.choiceTags
      (parseBlock [] [] (readItem t ts).item.inside) =
        said ++ looseChoiceTags (unused done.choiceTags s)) :
    (done.add said (.statement s)).join (parseBlock [] [] (readItem t ts).rest) =
      done.join (parseBlock done.tags done.choiceTags (t :: ts)) := by
  rw [parseBlock_statement hs, hsaid, add, join, join, Block.push, List.append_assoc,
    List.append_assoc]
  rfl

/-- One turn: what is done takes an item as a block does. -/
theorem Unfinished.join_add (done : Unfinished) (t : Token) (ts : List Token) :
    let r := readItem t ts
    let body := parseBlock [] [] r.item.inside
    let next := done.add (r.diagnostics ++ (body.diagnostics ++ looseTags body.dangling))
      (found body.statements r.item)
    next.join (parseBlock next.tags next.choiceTags r.rest) =
      done.join (parseBlock done.tags done.choiceTags (t :: ts)) := by
  dsimp only
  cases hitem : (readItem t ts).item with
  | tag tag =>
    obtain ⟨name, hkind, -⟩ := kind_of_item_tag hitem
    have hsaid : (readItem t ts).diagnostics = [] := by rw [readItem, hkind]
    rw [parseBlock_tag hitem, hsaid]
    simp [add, join, found, Item.inside]
  | choiceTag tag =>
    obtain ⟨name, hkind, -⟩ := kind_of_item_choiceTag hitem
    have hsaid : (readItem t ts).diagnostics = [] := by rw [readItem, hkind]
    rw [parseBlock_choiceTag hitem, hsaid]
    simp [add, join, found, Item.inside]
  | skipped =>
    rw [parseBlock_skipped hitem]
    simp [add, join, found, Item.inside]
  | goto g | call c | replica r =>
    exact done.join_statement (by rw [hitem]; rfl)
      (by simp [statementDiagnostics, hitem, Item.unused, Item.inside, unused])
  | choice c inside =>
    cases inside <;>
      exact done.join_statement (by rw [hitem]; rfl)
        (by simp [statementDiagnostics, hitem, Item.unused, Item.inside, unused])

theorem At.itemAt_eq (h : At tokens i stop (t :: ts))
    (hwindow : ReadsWindows tokens readWindow (readItem t ts).item.inside) :
    ReadsItem tokens stop (itemAt tokens readWindow t i stop) (readItem t ts) := by
  rw [itemAt]
  by_cases hkind : t.kind = .choice
  · rw [if_pos hkind]
    exact h.choiceAt_eq hkind hwindow
  · rw [if_neg hkind]
    exact h.leafAt_eq hkind

/-- More turns are left than there are tokens, and each turn takes a token. -/
theorem At.blockFrom_eq {n : Nat}
    (hwindow : ∀ us : List Token, us.length < n → ReadsWindows tokens readWindow us)
    (h : At tokens i stop ts) (hn : ts.length ≤ n) {ceiling turns : Nat}
    (hturns : turns + ts.length < ceiling) (done : Unfinished) :
    blockFrom tokens readWindow stop ceiling turns i done =
      pure (done.join (parseBlock done.tags done.choiceTags ts)) := by
  induction hlength : ts.length using Nat.strongRecOn generalizing ts i turns done with
  | ind length ih =>
    subst hlength
    cases ts with
    | nil =>
      rw [blockFrom, if_neg h.not_lt, parseBlock_nil, Unfinished.join, List.append_nil]
      rfl
    | cons t ts =>
      have hinside := (sublist_readItem t ts).1.length_le
      have hrest := length_readItem_le t ts
      rw [List.length_cons] at hn hturns
      obtain ⟨next, hx, hat⟩ := h.itemAt_eq (hwindow _ (by omega))
      rw [blockFrom, if_pos h.lt, if_pos (by omega), h.tokenAt_eq, pure_bind, hx, pure_bind,
        ih _ (Nat.lt_succ_of_le hrest) hat (by omega) (by omega) _ rfl]
      exact congrArg pure (done.join_add t ts)

end

/-- The window of a body is smaller than the one it lies in, so the depth is never used up. -/
theorem At.blockWithin_eq {depth : Nat} (h : At tokens i stop ts) (hdepth : ts.length < depth) :
    blockWithin tokens depth i stop = pure (parseBlock [] [] ts) := by
  induction depth generalizing ts i stop with
  | zero => omega
  | succ depth ih =>
    have hlength := h.add_length
    have hwindow : ∀ us : List Token, us.length < depth →
        ReadsWindows tokens (blockWithin tokens depth) us := fun us hus start stop hat => ih hat hus
    rw [blockWithin, h.checkWindow_eq, pure_bind,
      h.blockFrom_eq hwindow (Nat.le_of_lt_succ hdepth) (by omega) {}]
    rfl

/-- The block of a window is that of its tokens. -/
theorem At.blockAt_eq (h : At tokens i stop ts) :
    blockAt tokens i stop = pure (parseBlock [] [] ts) :=
  h.blockWithin_eq (Nat.lt_succ_of_le h.length_le)

end StoryScript.Indexed

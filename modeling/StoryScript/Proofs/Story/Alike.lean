import Mathlib.Data.List.Forall2
import StoryScript.Proofs.Story.Blocks
import StoryScript.Proofs.Story.Spans
/-!
# Tokens that tell the same story

The parser decides by kinds and texts and hands spans on. So two lists of tokens tell the same story up
to a change of spans if the items at their heads are the same up to the change and what stands inside
and behind these items tells the same again (`TellsAlike`). `parse_alike` says so for whole stories,
whatever it is that relates the lists.
-/

namespace StoryScript

open Token (Kind)

/-! ## Other spans -/

section
variable (f : Span → Span)

/-- An item with other spans, without the tokens of its body. -/
def Item.mapSpans : Item → Item
  | .tag t => .tag (t.mapSpan f)
  | .choiceTag t => .choiceTag (t.mapSpan f)
  | .goto g => .goto (g.mapSpans f)
  | .call c => .call (c.mapSpans f)
  | .replica r => .replica (r.mapSpans f)
  | .choice c body => .choice (c.mapSpans f) (body.map fun _ => [])
  | .skipped => .skipped

/-- A block with other spans. -/
def Block.mapSpans (b : Block) : Block :=
  ⟨Statement.mapAllSpans f b.statements, b.dangling.map (Tag.mapSpan f),
    b.diagnostics.map (Diagnostic.mapSpan f)⟩

/-- A story and what is said about it, with other spans. -/
def Parsed.mapSpans (r : Parsed) : Parsed :=
  ⟨r.story.mapSpans f, r.diagnostics.map (Diagnostic.mapSpan f)⟩

theorem looseTags_mapSpan (tags : List Tag) :
    (looseTags tags).map (Diagnostic.mapSpan f) = looseTags (tags.map (Tag.mapSpan f)) := by
  rw [looseTags, looseTags, List.map_map, List.map_map]
  rfl

theorem looseChoiceTags_mapSpan (tags : List Tag) :
    (looseChoiceTags tags).map (Diagnostic.mapSpan f) =
      looseChoiceTags (tags.map (Tag.mapSpan f)) := by
  rw [looseChoiceTags, looseChoiceTags, List.map_map, List.map_map]
  rfl

theorem Item.unused_mapSpans (i : Item) (tags : List Tag) :
    (i.unused tags).map (Tag.mapSpan f) = (i.mapSpans f).unused (tags.map (Tag.mapSpan f)) := by
  cases i <;> rfl

theorem Item.statement?_mapSpans (i : Item) (tags choiceTags : List Tag) (body : List Statement) :
    (i.statement? tags choiceTags body).map (Statement.mapSpans f) =
      (i.mapSpans f).statement? (tags.map (Tag.mapSpan f)) (choiceTags.map (Tag.mapSpan f))
        (Statement.mapAllSpans f body) := by
  cases i with
  | choice c inside => cases inside <;> rfl
  | _ => rfl

end

section
variable {f : Span → Span} {item : Item}

theorem eq_tag_of_mapSpans {tag : Tag} (h : item.mapSpans f = .tag tag) :
    ∃ tag', item = .tag tag' ∧ tag'.mapSpan f = tag := by
  cases item with
  | tag tag' => exact ⟨tag', rfl, Item.tag.inj h⟩
  | _ => cases h

theorem eq_choiceTag_of_mapSpans {tag : Tag} (h : item.mapSpans f = .choiceTag tag) :
    ∃ tag', item = .choiceTag tag' ∧ tag'.mapSpan f = tag := by
  cases item with
  | choiceTag tag' => exact ⟨tag', rfl, Item.choiceTag.inj h⟩
  | _ => cases h

theorem eq_skipped_of_mapSpans (h : item.mapSpans f = .skipped) : item = .skipped := by
  cases item with
  | skipped => rfl
  | _ => cases h

/-- There is always a section. -/
theorem orMain_mapSpans {as bs : List Section}
    (hs : bs.map (Section.mapSpans f) = as.map (Section.mapSpans f)) :
    (if bs.isEmpty then [mainSection [] []] else bs).map (Section.mapSpans f) =
      (if as.isEmpty then [mainSection [] []] else as).map (Section.mapSpans f) := by
  have hempty := congrArg List.isEmpty hs
  rw [List.isEmpty_map, List.isEmpty_map] at hempty
  rw [hempty]
  split
  · rfl
  · exact hs

end

/-! ## Blocks -/

/-- Items that are the same up to spans, with related tokens inside and behind them. -/
structure ItemRead.Alike (f : Span → Span) (R : List Token → List Token → Prop) (a b : ItemRead) :
    Prop where
  item : b.item.mapSpans f = a.item.mapSpans f
  inside : R a.item.inside b.item.inside
  diagnostics : b.diagnostics.map (Diagnostic.mapSpan f) = a.diagnostics.map (Diagnostic.mapSpan f)
  rest : R a.rest b.rest

/-- Related lists begin with the same items up to spans; in the second list, trivia may stand before
them. -/
structure TellsAlike (f : Span → Span) (R : List Token → List Token → Prop) : Prop where
  nil : ∀ {us}, R [] us → ∀ v ∈ us, v.isTrivia = true
  cons : ∀ {t ts us}, R (t :: ts) us → ∃ front u us', us = front ++ u :: us' ∧
    (∀ v ∈ front, v.isTrivia = true) ∧ (readItem t ts).Alike f R (readItem u us')

theorem parseBlock_trivia {front : List Token} (hf : ∀ v ∈ front, v.isTrivia = true)
    (tags choiceTags : List Tag) (us : List Token) :
    parseBlock tags choiceTags (front ++ us) = parseBlock tags choiceTags us := by
  induction front with
  | nil => rfl
  | cons v front ih =>
    have hread : readItem v (front ++ us) = { item := .skipped, rest := front ++ us } := by
      have hv := hf v (by simp)
      unfold Token.isTrivia at hv
      unfold readItem
      cases hk : v.kind <;> simp_all [Kind.isTrivia]
    rw [List.cons_append, parseBlock_skipped (by rw [hread]), hread]
    exact ih fun w hw => hf w (by simp [hw])

section
variable {f : Span → Span} {R : List Token → List Token → Prop} (h : TellsAlike f R)
  {ts us : List Token}
include h

/-- The items at the heads of related lists, behind the trivia. -/
theorem alike_front {t : Token} {tags choiceTags : List Tag} (hr : R (t :: ts) us) :
    ∃ u us', (readItem t ts).Alike f R (readItem u us') ∧
      parseBlock tags choiceTags us = parseBlock tags choiceTags (u :: us') := by
  obtain ⟨front, u, us', rfl, hfront, halike⟩ := h.cons hr
  exact ⟨u, us', halike, parseBlock_trivia hfront _ _ _⟩

/-- From related lists the same is read up to spans. -/
theorem parseBlock_alike {tags tags' choiceTags choiceTags' : List Tag}
    (ht : tags'.map (Tag.mapSpan f) = tags.map (Tag.mapSpan f))
    (hc : choiceTags'.map (Tag.mapSpan f) = choiceTags.map (Tag.mapSpan f)) (hr : R ts us) :
    (parseBlock tags' choiceTags' us).mapSpans f = (parseBlock tags choiceTags ts).mapSpans f := by
  -- the induction is on one block, whatever tags and tokens the other is read from
  refine parseBlock_induction (motive := fun tags choiceTags ts block =>
    ∀ (tags' choiceTags' : List Tag) (us : List Token),
      tags'.map (Tag.mapSpan f) = tags.map (Tag.mapSpan f) →
      choiceTags'.map (Tag.mapSpan f) = choiceTags.map (Tag.mapSpan f) → R ts us →
      (parseBlock tags' choiceTags' us).mapSpans f = block.mapSpans f)
    ?nil ?tag ?choiceTag ?skipped ?statement tags choiceTags ts tags' choiceTags' us ht hc hr
  case nil =>
    intro tags choiceTags tags' choiceTags' us ht hc hr
    have htrivia := parseBlock_trivia (h.nil hr) tags' choiceTags' []
    rw [List.append_nil] at htrivia
    rw [htrivia, parseBlock_nil, Block.mapSpans, Block.mapSpans, looseChoiceTags_mapSpan,
      looseChoiceTags_mapSpan, ht, hc]
  case tag =>
    intro tags choiceTags t ts tag block hi ih tags' choiceTags' us ht hc hr
    obtain ⟨u, us', halike, hus⟩ := alike_front h hr
    have hitem := halike.item
    rw [hi] at hitem
    obtain ⟨tag', hi', htag⟩ := eq_tag_of_mapSpans hitem
    rw [hus, parseBlock_tag hi']
    refine ih _ _ _ ?_ hc halike.rest
    rw [List.map_append, List.map_append, ht, List.map_singleton, htag, List.map_singleton]
  case choiceTag =>
    intro tags choiceTags t ts tag block hi ih tags' choiceTags' us ht hc hr
    obtain ⟨u, us', halike, hus⟩ := alike_front h hr
    have hitem := halike.item
    rw [hi] at hitem
    obtain ⟨tag', hi', htag⟩ := eq_choiceTag_of_mapSpans hitem
    rw [hus, parseBlock_choiceTag hi']
    refine ih _ _ _ ht ?_ halike.rest
    rw [List.map_append, List.map_append, hc, List.map_singleton, htag, List.map_singleton]
  case skipped =>
    intro tags choiceTags t ts block hi ih tags' choiceTags' us ht hc hr
    obtain ⟨u, us', halike, hus⟩ := alike_front h hr
    have hitem := halike.item
    rw [hi] at hitem
    have hblock := ih _ _ _ ht hc halike.rest
    rw [hus, parseBlock_skipped (eq_skipped_of_mapSpans hitem)]
    simp_all [Block.mapSpans, halike.diagnostics]
  case statement =>
    intro tags choiceTags t ts s body block hb hs ihbody ih tags' choiceTags' us ht hc hr
    obtain ⟨u, us', halike, hus⟩ := alike_front h hr
    have hunused : ((readItem u us').item.unused choiceTags').map (Tag.mapSpan f) =
        ((readItem t ts).item.unused choiceTags).map (Tag.mapSpan f) := by
      rw [Item.unused_mapSpans, Item.unused_mapSpans, halike.item, hc]
    have hbody := ihbody [] [] _ rfl rfl halike.inside
    have hblock := ih [] [] _ rfl rfl halike.rest
    simp only [Block.mapSpans, Block.mk.injEq] at hbody hblock
    have hstatement := congrArg (Option.map (Statement.mapSpans f)) hs
    rw [Item.statement?_mapSpans, ← halike.item, ← ht, ← hc, ← hbody.1, ← Item.statement?_mapSpans]
      at hstatement
    obtain ⟨s', hs', hmap⟩ := Option.map_eq_some_iff.1 hstatement
    rw [hus, parseBlock_statement hs']
    simp only [Block.mapSpans, Block.push, statementDiagnostics, Statement.mapAllSpans,
      List.map_append, looseTags_mapSpan, looseChoiceTags_mapSpan, hmap, halike.diagnostics, hunused,
      hbody, hblock]

/-! ## Windows -/

/-- Windows under a name in both, with one extent up to spans, or under no name in both. -/
inductive WindowAlike (f : Span → Span) (R : List Token → List Token → Prop) :
    Token × List Token → Token × List Token → Prop where
  | named {header header' name span span' inside inside'} (hinside : R inside inside')
      (hextent :
        f ((Token.extent (header' :: ⟨.identifier name, span'⟩ :: inside')).getD header'.span) =
          f ((Token.extent (header :: ⟨.identifier name, span⟩ :: inside)).getD header.span)) :
      WindowAlike f R (header, ⟨.identifier name, span⟩ :: inside)
        (header', ⟨.identifier name, span'⟩ :: inside')
  | nameless {header header' ts us}
      (hname : ∀ name span inside, ts = ⟨.identifier name, span⟩ :: inside → False)
      (hname' : ∀ name span inside, us = ⟨.identifier name, span⟩ :: inside → False)
      (hspan : f header'.span = f header.span) : WindowAlike f R (header, ts) (header', us)

theorem parseWindows_alike {tags tags' : List Tag}
    (ht : tags'.map (Tag.mapSpan f) = tags.map (Tag.mapSpan f)) {ws vs : List (Token × List Token)}
    (hw : List.Forall₂ (WindowAlike f R) ws vs) :
    (parseWindows tags' vs).1.map (Section.mapSpans f) =
        (parseWindows tags ws).1.map (Section.mapSpans f) ∧
      (parseWindows tags' vs).2.map (Diagnostic.mapSpan f) =
        (parseWindows tags ws).2.map (Diagnostic.mapSpan f) := by
  induction hw generalizing tags tags' with
  | nil =>
    rw [parseWindows, parseWindows, looseTags_mapSpan, looseTags_mapSpan, ht]
    exact ⟨rfl, rfl⟩
  | cons hw _ ih =>
    cases hw with
    | @named header header' name span span' inside inside' hinside hextent =>
      have hblock : (parseBlock [] [] inside').mapSpans f = (parseBlock [] [] inside).mapSpans f :=
        parseBlock_alike h rfl rfl hinside
      obtain ⟨hlater, hsaid⟩ := ih (congrArg Block.dangling hblock)
      simp only [Block.mapSpans, Block.mk.injEq] at hblock
      rw [parseWindows, parseWindows]
      constructor
      · simp only [List.map_cons, Section.mapSpans, hblock, hlater, hextent, ht]
      · rw [List.map_append, List.map_append, hblock.2.2, hsaid]
    | nameless hname hname' hspan =>
      obtain ⟨hlater, hsaid⟩ := @ih [] [] rfl
      rw [parseWindows, parseWindows]
      · refine ⟨hlater, ?_⟩
        simp only [List.map_append, List.map_cons, looseTags_mapSpan, ht, hsaid, Diagnostic.mapSpan,
          hspan]
      · exact hname
      · exact hname'

/-! ## Stories -/

/-- From tokens whose windows are alike one story is read up to spans, and the same is said about it. -/
theorem parse_alike {before before' : List Token} {ws vs : List (Token × List Token)}
    (hts : windows (ts.takeWhile (·.kind ≠ .eof)) = (before, ws))
    (hus : windows (us.takeWhile (·.kind ≠ .eof)) = (before', vs)) (hbefore : R before before')
    (hcontent : before'.any Token.isContent = before.any Token.isContent)
    (hextent : f ((Token.extent before').getD Span.origin) =
      f ((Token.extent before).getD Span.origin)) (hw : List.Forall₂ (WindowAlike f R) ws vs) :
    (parse us).mapSpans f = (parse ts).mapSpans f := by
  have hblock : (parseBlock [] [] before').mapSpans f = (parseBlock [] [] before).mapSpans f :=
    parseBlock_alike h rfl rfl hbefore
  obtain ⟨hnamed, hsaid⟩ := parseWindows_alike h (congrArg Block.dangling hblock) hw
  have hempty : vs.isEmpty = ws.isEmpty := by
    cases hw with
    | nil => rfl
    | cons => rfl
  simp only [Block.mapSpans, Block.mk.injEq] at hblock
  have hmain : (mainSection (parseBlock [] [] before').statements before').mapSpans f =
      (mainSection (parseBlock [] [] before).statements before).mapSpans f := by
    simp only [mainSection, Section.mapSpans, hblock, hextent]
  have hsections : (if before.any Token.isContent then
        [mainSection (parseBlock [] [] before').statements before'] else []).map
          (Section.mapSpans f) =
      (if before.any Token.isContent then
        [mainSection (parseBlock [] [] before).statements before] else []).map
          (Section.mapSpans f) := by
    split
    · rw [List.map_singleton, List.map_singleton, hmain]
    · rfl
  unfold parse
  rw [hts, hus]
  dsimp only
  rw [hcontent, hempty]
  split
  · simp only [Parsed.mapSpans, Story.mapSpans, List.map_singleton, hmain, List.map_append,
      looseTags_mapSpan, hblock]
  · rw [Parsed.mapSpans, Parsed.mapSpans, Story.mapSpans, Story.mapSpans]
    congr 1
    · congr 1
      refine orMain_mapSpans ?_
      rw [List.map_append, List.map_append, hnamed, hsections]
    · rw [List.map_append, List.map_append, hblock.2.2, hsaid]

end

end StoryScript

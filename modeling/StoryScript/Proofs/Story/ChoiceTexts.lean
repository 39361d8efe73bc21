import StoryScript.Proofs.Story.Slices
import StoryScript.Proofs.Token.ChoiceTexts
/-!
# Texts of choices in the source

A choice keeps its text as the source has it (`choiceTexts_parseSource`). What stands between bounds
it keeps to the last space, comments included; only the ends of lines are written anew, each as a
line feed. What stands on its line it keeps up to a comment, without the blanks at the end.
-/

namespace StoryScript

open Token (Kind)

/-! ## What a choice shows -/

/-- The text is what stands behind the bound that opens it, up to the bound that closes it. A text
that is never closed goes on up to the end of the source, and then its first bound is reported. -/
structure Choice.Bounded (source : String) (c : Choice) (text : String) (plus opening : Token)
    (inside others : List Token) (before raw after : List Char) : Prop where
  tokens_eq : ∃ front, tokenize source = front ++ plus :: opening :: (inside ++ others)
  plus_kind : plus.kind = .choice
  plus_start : plus.span.start = c.span.start
  opening_kind : opening.kind = .choiceBound false
  inside_kind : ∀ t ∈ inside, t.kind ≠ .choiceBound false
  source_eq : source.toList = before ++ (raw ++ after)
  opens : opening.span.stop = Position.origin.advance before
  closes : (∃ closing rest, others = closing :: rest ∧ closing.kind = .choiceBound false ∧
      closing.span.start = Position.origin.advance (before ++ raw)) ∨
    (∀ t ∈ others, t.kind ≠ .choiceBound false) ∧ after = [] ∧
      ⟨.warning, "Unterminated choice text block (missing closing ```)", some opening.span⟩ ∈
        (parseSource source).issues
  text_eq : text.toList = lineFeeds raw

/-- The text is what stands behind the sign of the choice, up to the end of the line or to the first
comment that begins outside of inline calls, without the blanks at the end. It is not blank. -/
structure Choice.OnLine (source : String) (c : Choice) (text : String)
    (before raw after : List Char) : Prop where
  source_eq : source.toList = before ++ '+' :: (raw ++ after)
  start : c.span.start = Position.origin.advance before
  stops : UpToEnd (Lookbehind.past {} (before ++ ['+'])) raw after
  text_eq : text.toList = Text.trimEnd raw
  not_blank : Text.isBlankText text = false

/-! ## Reading the text of a choice -/

/-- What stands between bounds adds its letters to the text. -/
theorem blockRun?_eq {t : Token} (h : t.kind.isInChoiceText) :
    t.blockRun? = some ⟨t.kind.letters, t.span.start⟩ := by
  obtain ⟨kind, span⟩ := t
  cases kind <;> first | rfl | cases h

theorem blockRun?_of_not_inChoiceText {t : Token} (h : t.kind.isInChoiceText = false) :
    t.blockRun? = none := by
  obtain ⟨kind, span⟩ := t
  cases kind <;> first | rfl | cases h

theorem glued_inChoiceText {ts : List Token} (h : ∀ t ∈ ts, t.kind.isInChoiceText) :
    Run.glued (ts.filterMap Token.blockRun?) = (ts.map Token.kind).flatMap Kind.letters := by
  induction ts with
  | nil => rfl
  | cons t ts ih =>
    obtain ⟨ht, hts⟩ := List.forall_mem_cons.1 h
    rw [List.filterMap_cons, blockRun?_eq ht, List.map_cons, List.flatMap_cons, ← ih hts]
    rfl

theorem readChoiceText_none {ts : List Token} (h : ∀ t ∈ ts.head?, t.kind.isOfChoiceText = false) :
    (readChoiceText ts).inlineText = none ∧ (readChoiceText ts).blockText = none := by
  unfold readChoiceText
  split
  · cases h _ rfl
  · cases h _ rfl
  · exact ⟨rfl, rfl⟩

/-- The text between bounds, and the report that it is not closed. -/
theorem readChoiceText_block {opening : Token} (ho : opening.kind = .choiceBound false)
    {inside others : List Token} (hi : ∀ t ∈ inside, t.kind.isInChoiceText)
    (hothers : ∀ t ∈ others.head?, t.kind.isInChoiceText = false) :
    (readChoiceText (opening :: (inside ++ others))).inlineText = none ∧
      (readChoiceText (opening :: (inside ++ others))).blockText =
        some (String.ofList ((inside.map Token.kind).flatMap Kind.letters)) ∧
      ((∀ t ∈ others.head?, t.kind ≠ .choiceBound false) →
        (readChoiceText (opening :: (inside ++ others))).diagnostics =
          [⟨.openChoiceText, opening.span⟩]) := by
  obtain ⟨kind, span⟩ := opening
  obtain rfl : kind = .choiceBound false := ho
  have hall : ∀ t ∈ inside, (fun t : Token => t.blockRun?.isSome) t := by
    intro t ht
    simp [blockRun?_eq (hi t ht)]
  have hcut : others.takeWhile (fun t : Token => t.blockRun?.isSome) = [] ∧
      others.dropWhile (fun t : Token => t.blockRun?.isSome) = others := by
    cases others with
    | nil => exact ⟨rfl, rfl⟩
    | cons t others => simp [blockRun?_of_not_inChoiceText (hothers t rfl)]
  simp only [readChoiceText, readBlockText]
  rw [List.takeWhile_append_of_pos hall, List.dropWhile_append_of_pos hall, hcut.1, hcut.2,
    List.append_nil, glued_inChoiceText hi]
  split
  · exact ⟨rfl, rfl, fun h => absurd rfl (h _ rfl)⟩
  · exact ⟨rfl, rfl, fun _ => rfl⟩

/-- Tokens that cut nothing stand before the place where tokens are cut. -/
theorem exists_of_append_cut {ts back front rest : List Token} (h : ts ++ back = front ++ rest)
    (hb : ∀ t ∈ back.head?, t.kind.cuts) (hf : ∀ t ∈ front, t.kind.cuts = false) :
    ∃ more, ts = front ++ more ∧ rest = more ++ back := by
  rcases List.append_eq_append_iff.1 h with ⟨more, rfl, rfl⟩ | ⟨more, rfl, rfl⟩
  · cases more with
    | nil => exact ⟨[], by simp, rfl⟩
    | cons t more =>
      have hcut := hb t rfl
      rw [hf t (by simp)] at hcut
      cases hcut
  · exact ⟨more, rfl, rfl⟩

theorem Token.Kind.cuts_of_isInChoiceText {k : Kind} (h : k.isInChoiceText) : k.cuts = false := by
  cases k <;> first | rfl | cases h

/-- A choice is read from its sign and what stands behind it. -/
theorem choice_of_statement? {t : Token} {ts : List Token} {tags choiceTags : List Tag}
    {body : List Statement} {c : Choice} {inside : Option (List Statement)}
    (h : (readItem t ts).item.statement? tags choiceTags body = some (.choice c inside)) :
    t.kind = .choice ∧ c.span.start = t.span.start ∧
      c.inlineText = (readChoiceText ts).inlineText ∧
      c.blockText = (readChoiceText ts).blockText ∧
      (readChoiceText ts).diagnostics ⊆ (readItem t ts).diagnostics := by
  generalize hs : Statement.choice c inside = s at h
  cases statementRead h with
  | choice hk hitem hi =>
    obtain ⟨rfl, -⟩ := Item.choice.inj hi
    obtain ⟨rfl, -⟩ := Statement.choice.inj hs
    have hsolid : t.isSolid := by simp [Token.isSolid, hk, Kind.isTrivia, Kind.isLevel]
    rw [hitem]
    exact ⟨hk, start_extent hsolid _ _, rfl, rfl, List.subset_append_left _ _⟩
  | _ => cases hs

/-- Behind a choice stand the same tokens, however it is found. -/
theorem tokens_behind_choice {source : String} {t : Token} {front front' ts ts' : List Token}
    (h : tokenize source = front ++ t :: ts) (h' : tokenize source = front' ++ t :: ts')
    (hk : t.kind = .choice) : ts = ts' := by
  have hlies : t.Lies Position.origin source.toList := lies_of_mem_tokenize (by simp [h])
  have hlt := lt_of_opensText hlies (by rw [hk]; rfl)
  have hpair := (inOrder_tokenize source).pairwise
  rw [h, List.pairwise_append, List.pairwise_cons] at hpair
  obtain ⟨-, ⟨hlater, -⟩, hearlier⟩ := hpair
  have hself : ¬t.EndsBefore t := by
    intro hends
    have hle := (Position.le_iff.1 (hends.stop_le_start (by rw [hk]; rfl))).1
    omega
  rw [h, List.append_cons_inj_of_notMem] at h'
  · exact h'.2.2
  · exact fun hmem => hself (hearlier t hmem t (by simp))
  · exact fun hmem => hself (hlater t hmem)

/-! ## Stories -/

section
variable {source : String} {c : Choice} {t : Token} {before rest : List Char}
  (hsource : source.toList = before ++ '+' :: rest)
  (hspan : t.span = Span.ofText (Position.origin.advance before) ['+'])
  (hstart : c.span.start = t.span.start)
include hsource hspan hstart

theorem Choice.onLine {raw after : List Char} (hcs : rest = raw ++ after)
    (hb : Text.allBlank raw = false) (hend : UpToEnd ⟨false, false⟩ raw after) :
    c.OnLine source (String.ofList (Text.trimEnd raw)) before raw after where
  source_eq := by rw [hsource, hcs]
  start := by rw [hstart, hspan]; rfl
  stops := by
    rw [Lookbehind.past_append, Lookbehind.past_cons, Lookbehind.next_plus]
    exact hend
  text_eq := String.toList_ofList
  not_blank := by
    rw [Text.isBlankText, String.toList_ofList]
    exact Text.not_allBlank_trimEnd hb

theorem Choice.bounded {front inside others : List Token} {opening : Token}
    {spacers raw after : List Char}
    (htokens : tokenize source = front ++ t :: opening :: (inside ++ others))
    (hk : t.kind = .choice) (hcs : rest = spacers ++ (boundMark ++ (raw ++ after)))
    (ho : opening.kind = .choiceBound false)
    (hopens : opening.span.stop = t.span.stop.advance (spacers ++ boundMark))
    (hi : ∀ u ∈ inside, u.kind.isInChoiceText)
    (hraw : (inside.map Token.kind).flatMap Kind.letters = lineFeeds raw)
    (hend : (∃ closing rest, others = closing :: rest ∧ closing.kind = .choiceBound false ∧
        closing.span.start = t.span.stop.advance (spacers ++ (boundMark ++ raw))) ∨
      ∃ n, after = [] ∧ others.map Token.kind = endingKinds n)
    (hreport : (∀ u ∈ others, u.kind ≠ .choiceBound false) →
      ⟨.openChoiceText, opening.span⟩ ∈ (parseSource source).diagnostics) :
    c.Bounded source (String.ofList ((inside.map Token.kind).flatMap Kind.letters)) t opening inside
      others (before ++ '+' :: (spacers ++ boundMark)) raw after := by
  have hadvance : ∀ text, t.span.stop.advance text =
      Position.origin.advance (before ++ '+' :: text) := by
    intro text
    rw [hspan, Position.advance_append]
    rfl
  exact {
    tokens_eq := ⟨front, htokens⟩
    plus_kind := hk
    plus_start := hstart.symm
    opening_kind := ho
    inside_kind := fun u hu hkind => by
      have hin := hi u hu
      rw [hkind] at hin
      cases hin
    source_eq := by rw [hsource, hcs]; simp
    opens := by rw [hopens, hadvance]
    closes := by
      rcases hend with ⟨closing, rest, rfl, hclosing, hat⟩ | ⟨n, rfl, hkinds⟩
      · refine .inl ⟨closing, rest, rfl, hclosing, ?_⟩
        rw [hat, hadvance]
        simp
      · have hbounds : ∀ u ∈ others, u.kind ≠ .choiceBound false := by
          intro u hu hkind
          have hfree := forall_endingKinds (p := Kind.isOfChoiceText) rfl rfl n u.kind
            (hkinds ▸ List.mem_map_of_mem hu)
          rw [hkind] at hfree
          cases hfree
        exact .inr ⟨hbounds, rfl, List.mem_map_of_mem (f := Diagnostic.issue) (hreport hbounds)⟩
    text_eq := by rw [String.toList_ofList, hraw] }

end

/-- The text of a choice at any depth is what the source has between its bounds or on its line. -/
theorem choiceTexts_parseSource (source : String) (c : Choice) (body : Option (List Statement))
    (h : .choice c body ∈ (parseSource source).story.preorder) :
    (∀ text, c.blockText = some text → ∃ plus opening inside others before raw after,
      c.Bounded source text plus opening inside others before raw after) ∧
    ∀ text, c.inlineText = some text → ∃ before raw after,
      c.OnLine source text before raw after := by
  obtain ⟨t, ts, tags, choiceTags, statements, ⟨front, back, htokens, hb⟩, hitem, hsaid⟩ :=
    readIn_preorder_parse _ h
  obtain ⟨hk, hstart, hinline, hblock, hreport⟩ := choice_of_statement? hitem
  have hmem : t ∈ tokenize source := by simp [htokens]
  obtain ⟨front', us, before, rest, htokens', hsource, hspan, hchosen⟩ :=
    chosen_of_mem_tokenize hmem hk
  have hus : ts ++ back = us := tokens_behind_choice htokens htokens' hk
  cases hchosen with
  | none hhead =>
    obtain ⟨hnoline, hnoblock⟩ := @readChoiceText_none ts fun u hu =>
      hhead u (by rw [← hus, List.head?_append, Option.mem_def.1 hu]; rfl)
    rw [hinline, hblock, hnoline, hnoblock]
    exact ⟨nofun, nofun⟩
  | @line raw after others hcs hblank hend =>
    obtain ⟨more, rfl, -⟩ := exists_of_append_cut
      (show ts ++ back = [_, _] ++ others from hus) hb (by simp [Kind.cuts])
    refine ⟨fun text htext => ?_, fun text htext => ⟨before, raw, after, ?_⟩⟩
    · rw [hblock] at htext
      cases htext
    · rw [hinline] at htext
      obtain rfl := Option.some.inj htext
      exact Choice.onLine hsource hspan hstart hcs hblank hend
  | @block spacers raw after opening inside others hcs ho hopens hi hraw hend =>
    have hcuts : ∀ u ∈ opening :: inside, u.kind.cuts = false :=
      List.forall_mem_cons.2 ⟨by rw [ho]; rfl, fun u hu => Kind.cuts_of_isInChoiceText (hi u hu)⟩
    obtain ⟨more, rfl, rfl⟩ := exists_of_append_cut
      (show ts ++ back = (opening :: inside) ++ others from hus) hb hcuts
    have hmore : ∀ u ∈ more.head?, u ∈ (more ++ back).head? := by
      intro u hu
      rw [List.head?_append, Option.mem_def.1 hu]
      rfl
    have hhead : ∀ u ∈ more.head?, u.kind.isInChoiceText = false := by
      intro u hu
      have hfirst := hmore u hu
      rcases hend with ⟨closing, rest, hclosing, hkind, -⟩ | ⟨n, -, hkinds⟩
      · rw [hclosing] at hfirst
        obtain rfl := Option.some.inj hfirst
        rw [hkind]
        rfl
      · exact forall_endingKinds rfl rfl n u.kind
          (hkinds ▸ List.mem_map_of_mem (List.mem_of_mem_head? hfirst))
    obtain ⟨hnoline, htext, hopen⟩ := readChoiceText_block ho hi hhead
    refine ⟨fun text htext' => ⟨t, opening, inside, more ++ back,
      before ++ '+' :: (spacers ++ boundMark), raw, after, ?_⟩, fun text htext' => ?_⟩
    · rw [hblock] at htext'
      obtain rfl := Option.some.inj (htext.symm.trans htext')
      refine Choice.bounded hsource hspan hstart htokens' hk hcs ho hopens hi hraw hend
        fun hbounds => hsaid (hreport ?_)
      rw [List.cons_append, hopen fun u hu => hbounds u (List.mem_of_mem_head? (hmore u hu))]
      exact List.mem_singleton_self _
    · rw [hinline] at htext'
      cases hnoline.symm.trans htext'

/-- The text of a choice between bounds and the text on its line. -/
def Statement.choiceTexts : Statement → Option String × Option String
  | .choice c _ => (c.blockText, c.inlineText)
  | _ => (none, none)

/-- A comment between bounds is text, and so is a sign inside a call on the line of a choice. -/
theorem choiceTexts_with_comments :
    let source := "+ ```\r\n  a # b\r\n```\n  + c{call:f(#)} # d\n"
    (∃ c body, .choice c body ∈ (parseSource source).story.preorder ∧
      c.blockText = some "\n  a # b\n" ∧ ∃ plus opening inside others before raw after,
        c.Bounded source "\n  a # b\n" plus opening inside others before raw after) ∧
    ∃ c body, .choice c body ∈ (parseSource source).story.preorder ∧
      c.inlineText = some " c{call:f(#)}" ∧ ∃ before raw after,
        c.OnLine source " c{call:f(#)}" before raw after := by
  intro source
  have htexts :
      (some "\n  a # b\n", none) ∈ (parseSource source).story.preorder.map (·.choiceTexts) ∧
      (none, some " c{call:f(#)}") ∈ (parseSource source).story.preorder.map (·.choiceTexts) := by
    decide +kernel
  constructor
  · obtain ⟨s, hs, htext⟩ := List.mem_map.1 htexts.1
    cases s with
    | choice c body =>
      obtain ⟨hblock, -⟩ := Prod.mk.inj htext
      exact ⟨c, body, hs, hblock, (choiceTexts_parseSource source c body hs).1 _ hblock⟩
    | _ => cases htext
  · obtain ⟨s, hs, htext⟩ := List.mem_map.1 htexts.2
    cases s with
    | choice c body =>
      obtain ⟨-, hline⟩ := Prod.mk.inj htext
      exact ⟨c, body, hs, hline, (choiceTexts_parseSource source c body hs).2 _ hline⟩
    | _ => cases htext

end StoryScript

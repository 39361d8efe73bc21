import StoryScript.Proofs.Canonical.Tokens
import StoryScript.Proofs.Story.Blocks
/-!
# Reading back labels and leaves

Tokens of the right kinds are read as the labels and leaves they were written for, wherever they
stand; only the lines of a replica have to be on different lines.
-/

namespace StoryScript.Canonical

open Token (Kind)

variable {tags choiceTags : List Tag} {t : Token} {ts rest : List Token}

theorem parseBlock_newline (h : t.kind = .newline) :
    parseBlock tags choiceTags (t :: ts) = parseBlock tags choiceTags ts := by
  have hread : readItem t ts = { item := .skipped, rest := ts } := by
    unfold readItem
    rw [h]
  rw [parseBlock_skipped (by rw [hread]), hread]
  rfl

/-! ## Labels -/

/-- The tag that tokens of a mark's value follow, and what they leave. -/
theorem readTag_mark {m : Mark} {name : String} (h : ts.map Token.kind = m.valueKinds ++ [.newline]) :
    ∃ tag u, u.kind = .newline ∧ tag.unplaced = ⟨name, m.value?, Span.origin⟩ ∧
      ∀ rest, readTag t name (ts ++ rest) = (tag, u :: rest) := by
  obtain ⟨name', value⟩ := m
  cases value with
  | none =>
    obtain ⟨u, us, rfl, hu, hus⟩ := List.map_eq_cons_iff.1 h
    obtain rfl := List.map_eq_nil_iff.1 hus
    obtain ⟨_, span⟩ := u
    obtain rfl : _ = Kind.newline := hu
    exact ⟨_, _, rfl, rfl, fun rest => rfl⟩
  | some w =>
    obtain ⟨v, vs, rfl, hv, hvs⟩ := List.map_eq_cons_iff.1 h
    obtain ⟨u, us, rfl, hu, hus⟩ := List.map_eq_cons_iff.1 hvs
    obtain rfl := List.map_eq_nil_iff.1 hus
    obtain ⟨_, span⟩ := v
    obtain rfl : _ = Kind.tagValue _ := hv
    exact ⟨_, u, hu, rfl, fun rest => rfl⟩

/-- A label waits for its statement. -/
theorem parseBlock_label {l : Label} (h : ts.map Token.kind = l.kinds ++ [.newline]) :
    ∃ newTags newChoiceTags, newTags.map Tag.unplaced = l.tag?.toList ∧
      newChoiceTags.map Tag.unplaced = l.choiceTag?.toList ∧
      ∀ tags choiceTags rest, parseBlock tags choiceTags (ts ++ rest) =
        parseBlock (tags ++ newTags) (choiceTags ++ newChoiceTags) rest := by
  cases l with
  | tag m =>
    obtain ⟨t, ts, rfl, ht, hts⟩ := List.map_eq_cons_iff.1 h
    obtain ⟨tag, u, hu, htag, hread⟩ := @readTag_mark t ts m m.name.text hts
    refine ⟨[tag], [], by rw [List.map_singleton, htag]; rfl, rfl, ?_⟩
    intro tags choiceTags rest
    have hitem : readItem t (ts ++ rest) = { item := .tag tag, rest := u :: rest } := by
      unfold readItem
      rw [ht]
      simp only [hread]
    rw [List.cons_append, parseBlock_tag (by rw [hitem]), hitem, parseBlock_newline hu,
      List.append_nil]
  | choiceTag m =>
    obtain ⟨t, ts, rfl, ht, hts⟩ := List.map_eq_cons_iff.1 h
    obtain ⟨tag, u, hu, htag, hread⟩ :=
      @readTag_mark t ts m (String.ofList ('@' :: m.name.chars)) hts
    refine ⟨[], [tag], rfl, by rw [List.map_singleton, htag]; rfl, ?_⟩
    intro tags choiceTags rest
    have hitem : readItem t (ts ++ rest) = { item := .choiceTag tag, rest := u :: rest } := by
      unfold readItem
      rw [ht]
      simp only [hread]
    rw [List.cons_append, parseBlock_choiceTag (by rw [hitem]), hitem, parseBlock_newline hu,
      List.append_nil]

theorem parseBlock_labels {labels : List Label} (h : ts.map Token.kind = labelsKinds labels) :
    ∃ newTags newChoiceTags, newTags.map Tag.unplaced = labels.filterMap Label.tag? ∧
      newChoiceTags.map Tag.unplaced = labels.filterMap Label.choiceTag? ∧
      ∀ tags choiceTags rest, parseBlock tags choiceTags (ts ++ rest) =
        parseBlock (tags ++ newTags) (choiceTags ++ newChoiceTags) rest := by
  induction labels generalizing ts with
  | nil =>
    obtain rfl := List.map_eq_nil_iff.1 h
    exact ⟨[], [], rfl, rfl, fun tags choiceTags rest => by simp⟩
  | cons l labels ih =>
    rw [labelsKinds, List.flatMap_cons] at h
    obtain ⟨ts, us, rfl, hts, hus⟩ := List.map_eq_append_iff.1 h
    obtain ⟨newTags, newChoiceTags, htags, hchoiceTags, hlabel⟩ := parseBlock_label hts
    obtain ⟨moreTags, moreChoiceTags, hmore, hmoreChoice, hlabels⟩ := ih hus
    refine ⟨newTags ++ moreTags, newChoiceTags ++ moreChoiceTags, ?_, ?_, ?_⟩
    · rw [List.map_append, htags, hmore]
      cases l <;> rfl
    · rw [List.map_append, hchoiceTags, hmoreChoice]
      cases l <;> rfl
    · intro tags choiceTags rest
      rw [List.append_assoc, hlabel, hlabels, List.append_assoc, List.append_assoc]

/-! ## Gotos and calls -/

/-- A statement about which nothing is said, nor about its body. -/
theorem parseBlock_item {item : Item} {s : StoryScript.Statement}
    {body : List StoryScript.Statement} (hread : readItem t ts = { item := item, rest := rest })
    (hbody : parseBlock [] [] item.inside = ⟨body, [], []⟩)
    (hs : item.statement? tags choiceTags body = some s) (hunused : item.unused choiceTags = []) :
    parseBlock tags choiceTags (t :: ts) = (parseBlock [] [] rest).push s [] := by
  have hinside : parseBlock [] [] (readItem t ts).item.inside = ⟨body, [], []⟩ := by
    rw [hread]
    exact hbody
  rw [parseBlock_statement (by rw [hinside, hread]; exact hs), hinside, hread]
  simp [statementDiagnostics, hunused]

theorem parseBlock_goto {w : Word} (h : ts.map Token.kind = (Leaf.goto w).kinds ++ [.newline])
    (tags : List Tag) (rest : List Token) :
    ∃ s, s.unplaced = (Leaf.goto w).tree (tags.map Tag.unplaced) ∧
      parseBlock tags [] (ts ++ rest) = (parseBlock [] [] rest).push s [] := by
  obtain ⟨t, us, rfl, ht, hus⟩ := List.map_eq_cons_iff.1 h
  obtain ⟨u, vs, rfl, hu, hvs⟩ := List.map_eq_cons_iff.1 hus
  obtain ⟨v, xs, rfl, hv, hxs⟩ := List.map_eq_cons_iff.1 hvs
  obtain rfl := List.map_eq_nil_iff.1 hxs
  have hblank : Text.isBlankText w.text = false := by
    rw [Text.isBlankText, Word.text, String.toList_ofList]
    exact w.not_allBlank []
  have htrim : Text.trimmed w.text = w.text := by
    rw [Text.trimmed, Word.text, String.toList_ofList, w.trim_eq]
  have hread : readItem t (u :: v :: rest) =
      { item := .goto ⟨w.text, [], t.span.through u.span⟩, rest := v :: rest } := by
    obtain ⟨_, span⟩ := u
    obtain rfl : _ = Kind.identifier _ := hu
    unfold readItem readTarget
    rw [ht]
    simp [hblank, htrim]
  refine ⟨.goto ⟨w.text, tags, t.span.through u.span⟩, rfl, ?_⟩
  rw [← @parseBlock_newline [] [] v rest hv]
  exact parseBlock_item hread (parseBlock_nil [] []) rfl rfl

theorem arguments_eq {args : List String} (h : ts.map Token.kind = args.map .argument) :
    (∀ t ∈ ts, t.argument?.isSome = true) ∧ ts.filterMap Token.argument? = args := by
  induction args generalizing ts with
  | nil =>
    obtain rfl := List.map_eq_nil_iff.1 h
    exact ⟨nofun, rfl⟩
  | cons arg args ih =>
    obtain ⟨⟨_, span⟩, ts, rfl, ht, hts⟩ := List.map_eq_cons_iff.1 h
    obtain rfl : _ = Kind.argument _ := ht
    obtain ⟨hall, heq⟩ := ih hts
    refine ⟨?_, ?_⟩
    · intro t ht
      rcases List.mem_cons.1 ht with rfl | ht
      · rfl
      · exact hall t ht
    · rw [← heq]
      rfl

theorem parseBlock_call {name first : Word} {others : List Word}
    (h : ts.map Token.kind = (Leaf.call name first others).kinds ++ [.newline])
    (tags : List Tag) (rest : List Token) :
    ∃ s, s.unplaced = (Leaf.call name first others).tree (tags.map Tag.unplaced) ∧
      parseBlock tags [] (ts ++ rest) = (parseBlock [] [] rest).push s [] := by
  obtain ⟨us, vs, rfl, hus, hvs⟩ := List.map_eq_append_iff.1 h
  obtain ⟨t, args, rfl, ht, hargs⟩ := List.map_eq_cons_iff.1 hus
  obtain ⟨v, xs, rfl, hv, hxs⟩ := List.map_eq_cons_iff.1 hvs
  obtain rfl := List.map_eq_nil_iff.1 hxs
  obtain ⟨hall, htexts⟩ := @arguments_eq args ((first :: others).map Word.text)
    (hargs.trans (List.map_map ..).symm)
  have hne : args.isEmpty = false := by
    cases args with
    | nil => simp at hargs
    | cons a args => rfl
  have hstop : v.argument?.isSome = false := by
    obtain ⟨_, span⟩ := v
    obtain rfl : _ = Kind.newline := hv
    rfl
  have hspan := @span_append Token (·.argument?.isSome) args rest v hall hstop
  have hread : readItem t (args ++ v :: rest) =
      { item := .call ⟨name.text, (first :: others).map Word.text, [], t.spanTo args⟩
        rest := v :: rest } := by
    unfold readItem
    rw [ht]
    simp only [readCall, hspan, htexts, hne]
    rfl
  refine ⟨.call ⟨name.text, (first :: others).map Word.text, tags, t.spanTo args⟩, rfl, ?_⟩
  rw [← @parseBlock_newline [] [] v rest hv, List.append_assoc]
  exact parseBlock_item hread (parseBlock_nil [] []) rfl rfl

/-! ## Texts -/

theorem findInlineStart_eq_none {n : Nat} {cs : List Char} (h : '{' ∉ cs) :
    findInlineStart n cs = none := by
  induction cs generalizing n with
  | nil => rfl
  | cons c cs ih =>
    have hc : c ≠ '{' := fun hc => h (by rw [hc]; simp)
    have hp : inlineCallMark.isPrefixOf (c :: cs) = false := not_isPrefixOf _ hc
    rw [findInlineStart, if_neg (by simp [hp]), ih fun hm => h (by simp [hm])]
    rfl

theorem cutInlineCalls_eq {n : Nat} {text : List Char} (h : '{' ∉ text) :
    cutInlineCalls n text = ⟨Fragment.ofPlain text, none⟩ := by
  rw [cutInlineCalls]
  split
  · rfl
  · next hs =>
    rw [findInlineStart_eq_none h] at hs
    cases hs

theorem segmentsOf_nil : segmentsOf [] = ([], []) := by
  have hcut : cutInlineCalls 0 (Run.glued []) = ⟨[], none⟩ := cutInlineCalls_eq List.not_mem_nil
  unfold segmentsOf
  rw [hcut]
  rfl

/-- A text without a brace is one segment. -/
theorem segmentsOf_eq {runs : List Run} (hne : Run.glued runs ≠ []) (h : '{' ∉ Run.glued runs) :
    ∃ span, segmentsOf runs = ([.text (String.ofList (Run.glued runs)) span], []) := by
  have hplain : Fragment.ofPlain (Run.glued runs) = [.plain (Run.glued runs)] := by
    simp [Fragment.ofPlain, hne]
  unfold segmentsOf
  rw [cutInlineCalls_eq h, hplain]
  exact ⟨_, rfl⟩

theorem brace_not_mem_phrase (p : Phrase) : '{' ∉ p.chars :=
  fun h => absurd (p.isCalm_of_mem _ h) (by decide)

theorem brace_not_mem_replicaText (p : Phrase) (ps : List Phrase) : '{' ∉ replicaText p ps := by
  simp [replicaText, brace_not_mem_phrase]

theorem phrase_ne_nil (p : Phrase) : p.chars ≠ [] := by
  obtain ⟨c, cs, hp, -⟩ := p.exists_cons
  simp [hp]

/-! ## Replicas -/

/-- The tokens of a replica's lines are speeches and trivia, and the speeches put together are its
text. -/
theorem glueSpeeches_eq {p : Phrase} {ps : List Phrase}
    (h : ts.map Token.kind = speechKinds p ps) (ho : Token.Ordered ts) :
    (∀ t ∈ ts, (t.speech?.isSome || t.isTrivia) = true) ∧
      Run.glued (glueSpeeches (ts.filter (·.speech?.isSome))) = replicaText p ps := by
  induction ps generalizing p ts with
  | nil =>
    obtain ⟨⟨_, span⟩, us, rfl, ht, hus⟩ := List.map_eq_cons_iff.1 h
    obtain rfl := List.map_eq_nil_iff.1 hus
    obtain rfl : _ = Kind.speech _ := ht
    refine ⟨by simp [Token.speech?], ?_⟩
    simp [glueSpeeches, Token.speech?, Run.glued, replicaText]
  | cons q qs ih =>
    obtain ⟨⟨_, span⟩, us, rfl, ht, hus⟩ := List.map_eq_cons_iff.1 h
    obtain ⟨v, xs, rfl, hv, hxs⟩ := List.map_eq_cons_iff.1 hus
    obtain rfl : _ = Kind.speech _ := ht
    obtain ⟨hall, hglue⟩ := ih hxs ho.tail.tail
    obtain ⟨u, us, rfl, hu, -⟩ := List.map_eq_cons_iff.1 hxs
    -- the line end between two speeches puts them on different lines, so a line feed joins them
    have hline : span.stop.line ≠ u.span.start.line := by
      obtain ⟨hfirst, hrest⟩ := List.pairwise_cons.1 ho.pairwise
      have h1 : span.stop.line ≤ v.span.start.line := hfirst v (by simp) (.inr hv)
      have h2 : v.span.start.line < v.span.stop.line := ho.newline v (by simp) hv
      have h3 : v.span.stop.line ≤ u.span.start.line :=
        (List.pairwise_cons.1 hrest).1 u (by simp) (.inl hv)
      omega
    have hvs : v.speech?.isSome = false := by simp [Token.speech?, hv]
    have hus : u.speech?.isSome = true := by simp [Token.speech?, hu]
    have hvt : v.isTrivia = true := by simp [Token.isTrivia, Kind.isTrivia, hv]
    refine ⟨?_, ?_⟩
    · intro t ht
      rcases List.mem_cons.1 ht with rfl | ht
      · rfl
      rcases List.mem_cons.1 ht with rfl | ht
      · simp [hvt]
      · exact hall t ht
    · have hfilter : (u :: us).filter (·.speech?.isSome) = u :: us.filter (·.speech?.isSome) := by
        simp [hus]
      have hstart : (⟨.speech (String.ofList p.chars), span⟩ :: v :: u :: us).filter
          (·.speech?.isSome) = ⟨.speech (String.ofList p.chars), span⟩ ::
            u :: us.filter (·.speech?.isSome) := by
        rw [List.filter_cons_of_pos rfl, List.filter_cons_of_neg (by simp [hvs]), hfilter]
      rw [hfilter] at hglue
      rw [hstart, glueSpeeches, if_neg hline]
      simp only [Run.glued, List.flatMap_append] at hglue ⊢
      rw [hglue]
      simp [Token.speech?, replicaText]

theorem parseBlock_replica {first : Phrase} {others : List Phrase}
    (h : ts.map Token.kind = (Leaf.replica first others).kinds ++ [.newline])
    (ho : Token.Ordered ts) (tags : List Tag) (rest : List Token) :
    ∃ s, s.unplaced = (Leaf.replica first others).tree (tags.map Tag.unplaced) ∧
      parseBlock tags [] (ts ++ rest) = (parseBlock [] [] rest).push s [] := by
  obtain ⟨us, vs, rfl, hus, hvs⟩ := List.map_eq_append_iff.1 h
  obtain ⟨v, xs, rfl, hv, hxs⟩ := List.map_eq_cons_iff.1 hvs
  obtain rfl := List.map_eq_nil_iff.1 hxs
  obtain ⟨bs, es, rfl, hbs, hes⟩ := List.map_eq_append_iff.1 hus
  obtain ⟨⟨_, last⟩, xs, rfl, he, hxs⟩ := List.map_eq_cons_iff.1 hes
  obtain rfl := List.map_eq_nil_iff.1 hxs
  obtain rfl : _ = Kind.replicaEnd := he
  obtain ⟨t, inside, rfl, ht, hinside⟩ := List.map_eq_cons_iff.1 hbs
  obtain ⟨hall, hglue⟩ := glueSpeeches_eq hinside ho.left.left.tail
  have hspan := @span_append Token (fun u => u.speech?.isSome || u.isTrivia) inside (v :: rest)
    ⟨.replicaEnd, last⟩ hall rfl
  obtain ⟨span, hsegments⟩ : ∃ span, segmentsOf (glueSpeeches (inside.filter (·.speech?.isSome))) =
      ([.text (String.ofList (replicaText first others)) span], []) := by
    rw [← hglue]
    refine segmentsOf_eq ?_ ?_
    · rw [hglue, replicaText]
      simp [phrase_ne_nil]
    · rw [hglue]
      exact brace_not_mem_replicaText first others
  have hread : readItem t (inside ++ ⟨.replicaEnd, last⟩ :: v :: rest) =
      { item := .replica ⟨String.ofList (replicaText first others),
          [.text (String.ofList (replicaText first others)) span], [], t.span.through last⟩
        rest := v :: rest } := by
    unfold readItem
    rw [ht]
    simp only [readReplica, hspan, hsegments]
    simp [plainText, Segment.text?, String.join]
  refine ⟨.replica ⟨String.ofList (replicaText first others),
    [.text (String.ofList (replicaText first others)) span], tags, t.span.through last⟩, rfl, ?_⟩
  rw [← @parseBlock_newline [] [] v rest hv, List.append_assoc, List.append_assoc]
  exact parseBlock_item hread (parseBlock_nil [] []) rfl rfl

/-- A leaf takes the tags that wait and is read back. -/
theorem parseBlock_leaf {l : Leaf} (h : ts.map Token.kind = l.kinds ++ [.newline])
    (ho : Token.Ordered ts) (tags : List Tag) (rest : List Token) :
    ∃ s, s.unplaced = l.tree (tags.map Tag.unplaced) ∧
      parseBlock tags [] (ts ++ rest) = (parseBlock [] [] rest).push s [] := by
  cases l with
  | goto target => exact parseBlock_goto h tags rest
  | call name first others => exact parseBlock_call h tags rest
  | replica first others => exact parseBlock_replica h ho tags rest

end StoryScript.Canonical

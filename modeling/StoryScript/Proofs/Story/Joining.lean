import StoryScript.Proofs.Story.Blocks
/-!
# Tokens in front of a section

A window is read without a look at the next one. So tokens in front of a header with a name are read
as if the source ended there, and the section behind is read as if the source began there: only the
tags that wait at the end of the front go over to it (`parse_join`).
-/

namespace StoryScript

open Token (Kind)

/-! ## Windows -/

theorem windows_fst (ts : List Token) : (windows ts).1 = ts.takeWhile (·.kind ≠ .header) := by
  induction ts with
  | nil => rfl
  | cons t ts ih =>
    rw [windows]
    by_cases h : t.kind = .header
    · simp [h]
    · simp [h, ih]

/-- What stands before a header goes on in no window behind it. -/
theorem windows_join (xs : List Token) {header : Token} (h : header.kind = .header)
    (ys : List Token) :
    windows (xs ++ header :: ys) =
      ((windows xs).1, (windows xs).2 ++ (header, (windows ys).1) :: (windows ys).2) := by
  induction xs with
  | nil => simp [windows, h]
  | cons x xs ih =>
    rw [List.cons_append, windows, ih, windows]
    split <;> rfl

/-- The window of a header with a name begins with the name. -/
theorem windows_named {header : Token} (h : header.kind = .header) (name : String) (span : Span)
    (ts : List Token) :
    windows (header :: ⟨.identifier name, span⟩ :: ts) =
      ([], (header, ⟨.identifier name, span⟩ :: (windows ts).1) :: (windows ts).2) := by
  rw [windows, if_pos h, windows, if_neg (by simp)]

/-! ## Tags that wait -/

/-- The tags at the end of a window. The window of a header without a name is not read. -/
def windowTags : Token × List Token → List Tag
  | (_, ⟨.identifier _, _⟩ :: inside) => (parseBlock [] [] inside).dangling
  | _ => []

/-- The tags that wait behind windows: those at the end of the last one, or those that stood before
the first header if there is none. -/
def waiting (tags : List Tag) (ws : List (Token × List Token)) : List Tag :=
  (ws.getLast?.map windowTags).getD tags

/-- The tags that wait at the end of tokens. -/
def waitingTags (ts : List Token) : List Tag :=
  waiting (parseBlock [] [] (windows ts).1).dangling (windows ts).2

@[simp] theorem waiting_nil (tags : List Tag) : waiting tags [] = tags := rfl

@[simp] theorem waiting_cons (tags : List Tag) (w : Token × List Token)
    (ws : List (Token × List Token)) : waiting tags (w :: ws) = waiting (windowTags w) ws := by
  cases ws with
  | nil => rfl
  | cons v ws =>
    rw [waiting, waiting, List.getLast?_cons_cons, List.getLast?_cons]
    rfl

/-- Windows in front say the same whatever follows, but for the tags that wait behind them. -/
theorem parseWindows_append (tags : List Tag) (ws : List (Token × List Token)) :
    ∃ said, (parseWindows tags ws).2 = said ++ looseTags (waiting tags ws) ∧
      ∀ vs, parseWindows tags (ws ++ vs) =
        ((parseWindows tags ws).1 ++ (parseWindows (waiting tags ws) vs).1,
          said ++ (parseWindows (waiting tags ws) vs).2) := by
  fun_induction parseWindows tags ws with
  | case1 tags => exact ⟨[], rfl, fun vs => rfl⟩
  | case2 tags header name span inside rest block later extent ih =>
    obtain ⟨said, hsaid, happ⟩ := ih
    have hwait : waiting tags ((header, ⟨.identifier name, span⟩ :: inside) :: rest) =
        waiting block.dangling rest := waiting_cons _ _ _
    refine ⟨block.diagnostics ++ said, ?_, fun vs => ?_⟩
    · rw [hwait, List.append_assoc, ← hsaid]
    · rw [List.cons_append, parseWindows, happ, hwait]
      simp only [List.cons_append, List.append_assoc]
      rfl
  | case3 tags header inside rest hname later ih =>
    obtain ⟨said, hsaid, happ⟩ := ih
    have hwait : waiting tags ((header, inside) :: rest) = waiting [] rest := by
      rw [waiting_cons]
      congr 1
      unfold windowTags
      split
      · next heq => exact absurd (Prod.mk.inj heq).2 (hname _ _ _)
      · rfl
    refine ⟨⟨.headerWithoutName, header.span⟩ :: looseTags tags ++ said, ?_, fun vs => ?_⟩
    · rw [hwait, List.append_assoc, ← hsaid]
    · rw [List.cons_append, parseWindows, happ, hwait]
      · simp only [List.append_assoc]
        rfl
      · exact hname

/-! ## Where a section is sure to come from -/

/-- Tokens that hold a section: a header with a name, or content under no header. -/
def HoldsSection (ts : List Token) : Prop :=
  (∃ before header name span after, header.kind = .header ∧
    ts = before ++ header :: ⟨.identifier name, span⟩ :: after) ∨
  ∃ t ∈ ts.takeWhile (·.kind ≠ .header), t.isContent

/-- Windows of which one begins with a name give a section. -/
theorem parseWindows_ne_nil {tags : List Tag} {ws : List (Token × List Token)}
    (h : ∃ w ∈ ws, beginsWithName w.2 = true) : (parseWindows tags ws).1 ≠ [] := by
  fun_induction parseWindows tags ws with
  | case1 => exact absurd h nofun
  | case2 => exact List.cons_ne_nil _ _
  | case3 tags header inside rest hname later ih =>
    obtain ⟨w, hw, hb⟩ := h
    rcases List.mem_cons.1 hw with rfl | hw
    · unfold beginsWithName at hb
      split at hb
      · next heq => exact absurd heq (hname _ _ _)
      · cases hb
    · exact ih ⟨w, hw, hb⟩

theorem HoldsSection.windows {ts : List Token} (h : HoldsSection ts) :
    (windows ts).1.any Token.isContent = true ∨ ∃ w ∈ (windows ts).2, beginsWithName w.2 = true := by
  rcases h with ⟨before, header, name, span, after, hheader, rfl⟩ | ⟨t, ht, hc⟩
  · refine .inr ⟨(header, ⟨.identifier name, span⟩ :: (StoryScript.windows after).1), ?_, rfl⟩
    rw [windows_join before hheader]
    simp [StoryScript.windows]
  · refine .inl ?_
    rw [windows_fst, List.any_eq_true]
    exact ⟨t, ht, hc⟩

/-! ## Stories -/

theorem beforeEnd_eq {ts : List Token} (h : ∀ t ∈ ts, t.kind ≠ .eof) :
    ts.takeWhile (·.kind ≠ .eof) = ts := by
  induction ts with
  | nil => rfl
  | cons t ts ih =>
    rw [List.takeWhile_cons, if_pos (by simpa using h t (by simp)), ih fun u hu => h u (by simp [hu])]

/-- What stands under no header, as a section if there is content. -/
def mainSections (ts : List Token) : List Section :=
  if ts.any Token.isContent then [mainSection (parseBlock [] [] ts).statements ts] else []

/-- Where a section is sure, there is no need for an empty one, and the sections are those of the
windows. -/
theorem parse_of_holdsSection {ts : List Token} (he : ∀ t ∈ ts, t.kind ≠ .eof)
    (hs : HoldsSection ts) :
    let block := parseBlock [] [] (windows ts).1
    let named := parseWindows block.dangling (windows ts).2
    parse ts = ⟨⟨mainSections (windows ts).1 ++ named.1⟩, block.diagnostics ++ named.2⟩ := by
  have hsure := hs.windows
  unfold parse
  rw [beforeEnd_eq he]
  generalize windows ts = w at hsure ⊢
  obtain ⟨before, rest⟩ := w
  dsimp only at hsure ⊢
  cases rest with
  | nil =>
    have hc : before.any Token.isContent = true := by simpa using hsure
    rw [mainSections, if_pos hc]
    rfl
  | cons w ws =>
    have hne : mainSections before ++
        (parseWindows (parseBlock [] [] before).dangling (w :: ws)).1 ≠ [] := by
      intro hnil
      obtain ⟨hmain, hnamed⟩ := List.append_eq_nil_iff.1 hnil
      rcases hsure with hc | hw
      · rw [mainSections, if_pos hc] at hmain
        cases hmain
      · exact parseWindows_ne_nil hw hnamed
    rw [if_neg (by simp)]
    exact congrArg (fun sections => Parsed.mk ⟨sections⟩ _)
      (if_neg fun h => hne (List.isEmpty_iff.1 h))

/-- The issue about a tag that belongs to nothing. -/
def Tag.looseIssue (t : Tag) : Issue :=
  ⟨.warning, "Tag '@" ++ t.name ++ "' is not attached to any statement", some t.span⟩

theorem issues_looseTags (tags : List Tag) :
    (looseTags tags).map Diagnostic.issue = tags.map Tag.looseIssue := by
  rw [looseTags, List.map_map]
  rfl

/-- What is read in front of a header with a name, and what is read from it on when tags wait before
it. -/
theorem parse_split {X inside : List Token} {header : Token} (name : String) (span : Span)
    (hX : ∀ t ∈ X, t.kind ≠ .eof) (hs : HoldsSection X) (hheader : header.kind = .header)
    (hinside : ∀ t ∈ inside, t.kind ≠ .eof) :
    let ws := (header, ⟨.identifier name, span⟩ :: (windows inside).1) :: (windows inside).2
    ∃ said, (parse X).diagnostics = said ++ looseTags (waitingTags X) ∧
      parse (X ++ header :: ⟨.identifier name, span⟩ :: inside) =
        ⟨⟨(parse X).story.sections ++ (parseWindows (waitingTags X) ws).1⟩,
          said ++ (parseWindows (waitingTags X) ws).2⟩ := by
  intro ws
  have hXY : ∀ t ∈ X ++ header :: ⟨.identifier name, span⟩ :: inside, t.kind ≠ .eof := by
    simp only [List.mem_append, List.mem_cons]
    rintro t (ht | rfl | rfl | ht)
    · exact hX t ht
    · simp [hheader]
    · simp
    · exact hinside t ht
  have hfront := parse_of_holdsSection hX hs
  have hboth := parse_of_holdsSection hXY (.inl ⟨X, header, name, span, inside, hheader, rfl⟩)
  obtain ⟨said, hsaid, happ⟩ :=
    parseWindows_append (parseBlock [] [] (windows X).1).dangling (windows X).2
  have hwindows : windows (X ++ header :: ⟨.identifier name, span⟩ :: inside) =
      ((windows X).1, (windows X).2 ++ ws) := by
    rw [windows_join X hheader, windows, if_neg (by simp)]
  dsimp only at hfront hboth
  rw [hwindows] at hboth
  dsimp only at hboth
  rw [happ] at hboth
  refine ⟨(parseBlock [] [] (windows X).1).diagnostics ++ said, ?_, ?_⟩
  · rw [hfront, hsaid, List.append_assoc]
    rfl
  · rw [hboth, hfront, List.append_assoc, List.append_assoc]
    rfl

/-- Tokens in front of a header with a name and the tokens from that header on are read apart. Only
the tags that wait at the end of the front are not said to belong to nothing: they are the tags of
the section behind. -/
theorem parse_join (X inside : List Token) (header : Token) (name : String) (span : Span)
    (hX : ∀ t ∈ X, t.kind ≠ .eof) (hs : HoldsSection X) (hheader : header.kind = .header)
    (hinside : ∀ t ∈ inside, t.kind ≠ .eof) :
    let Y := header :: ⟨.identifier name, span⟩ :: inside
    ∃ (first : Section) (others : List Section) (said : List Issue),
      (parse Y).story.sections = first :: others ∧
      (parse (X ++ Y)).story.sections =
        (parse X).story.sections ++ { first with tags := waitingTags X } :: others ∧
      (parse X).issues = said ++ (waitingTags X).map Tag.looseIssue ∧
      (parse (X ++ Y)).issues = said ++ (parse Y).issues := by
  intro Y
  have hY : ∀ t ∈ Y, t.kind ≠ .eof := by
    simp only [Y, List.mem_cons]
    rintro t (rfl | rfl | ht)
    · simp [hheader]
    · nofun
    · exact hinside t ht
  have hback := parse_of_holdsSection hY (.inl ⟨[], header, name, span, inside, hheader, rfl⟩)
  -- nothing stands before the header
  simp only [Y, windows_named hheader, mainSections, List.any_nil, Bool.false_eq_true, if_false,
    parseBlock_nil, looseChoiceTags_nil, List.nil_append] at hback
  obtain ⟨said, hsaid, hboth⟩ := parse_split name span hX hs hheader hinside
  refine ⟨_, _, said.map Diagnostic.issue, congrArg (fun p => p.story.sections) hback, ?_, ?_, ?_⟩
  · rw [hboth]
    rfl
  · rw [Parsed.issues, hsaid, List.map_append, issues_looseTags]
  · rw [Parsed.issues, Parsed.issues, hboth, hback, List.map_append]
    rfl

/-- A tag behind the last statement of a section, in front of a section with a lost goto. -/
theorem parse_join_last_tag :
    let span (n : Nat) : Span := ⟨⟨n, 1, n + 1⟩, ⟨n + 1, 1, n + 2⟩⟩
    let X : List Token := [⟨.header, span 0⟩, ⟨.identifier "one", span 1⟩, ⟨.replicaBegin, span 2⟩,
      ⟨.replicaEnd, span 3⟩, ⟨.tag "t", span 4⟩]
    let header : Token := ⟨.header, span 5⟩
    let inside : List Token := [⟨.goto "->", span 7⟩, ⟨.tag "u", span 8⟩]
    let Y := header :: ⟨.identifier "two", span 6⟩ :: inside
    (∀ t ∈ X, t.kind ≠ .eof) ∧ HoldsSection X ∧ header.kind = .header ∧
      (∀ t ∈ inside, t.kind ≠ .eof) ∧ waitingTags X = [⟨"t", none, span 4⟩] ∧
      ∃ (first : Section) (others : List Section) (said : List Issue),
        (parse Y).story.sections = first :: others ∧
        (parse (X ++ Y)).story.sections =
          (parse X).story.sections ++ { first with tags := waitingTags X } :: others ∧
        (parse X).issues = said ++ (waitingTags X).map Tag.looseIssue ∧
        (parse (X ++ Y)).issues = said ++ (parse Y).issues := by
  intro span X header inside Y
  have hX : ∀ t ∈ X, t.kind ≠ .eof := by decide
  have hs : HoldsSection X := .inl ⟨[], ⟨.header, span 0⟩, "one", span 1, _, rfl, rfl⟩
  have hinside : ∀ t ∈ inside, t.kind ≠ .eof := by decide
  have hwaiting : waitingTags X = [⟨"t", none, span 4⟩] := by decide +kernel
  exact ⟨hX, hs, rfl, hinside, hwaiting,
    parse_join X inside header "two" (span 6) hX hs rfl hinside⟩

end StoryScript

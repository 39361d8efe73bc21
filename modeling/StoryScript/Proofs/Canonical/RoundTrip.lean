import StoryScript.Check
import StoryScript.Proofs.Canonical.Items
/-!
# Canonical stories are read back

The tokens of a body stand between brackets, so `readBody` finds its end at any depth, and the
statements inside are read on their own. `parseSource_render` puts the lexer's side and the parser's
side together: what was written is what is read, and nothing is said about it.
-/

namespace StoryScript.Canonical

open Token (Kind)

/-! ## Kinds in a body -/

/-- Kinds that neither change the level nor end a section. -/
def isPlain : Kind → Bool
  | .indent | .dedent | .header | .eof | .error _ => false
  | _ => true

theorem isPlain_labels (labels : List Label) : ∀ k ∈ labelsKinds labels, isPlain k = true := by
  have hlabel : ∀ l : Label, ∀ k ∈ l.kinds, isPlain k = true := by
    intro l
    rcases l with ⟨name, - | w⟩ | ⟨name, - | w⟩
    all_goals simp [Label.kinds, Mark.valueKinds, Mark.value?, isPlain]
  intro k hk
  obtain ⟨l, -, hk⟩ := List.mem_flatMap.1 hk
  rcases List.mem_append.1 hk with hk | hk
  · exact hlabel l k hk
  · rw [List.mem_singleton.1 hk]
    rfl

theorem isPlain_leaf (l : Leaf) : ∀ k ∈ l.kinds, isPlain k = true := by
  cases l with
  | goto target => simp [Leaf.kinds, isPlain]
  | call name first others => simp [Leaf.kinds, isPlain]
  | replica first others =>
    intro k hk
    simp only [Leaf.kinds, speechKinds, List.mem_cons, List.mem_append, List.mem_flatMap] at hk
    grind [isPlain]

theorem isPlain_choice (text : Option Phrase) : ∀ k ∈ choiceKinds text, isPlain k = true := by
  cases text with
  | none => simp [choiceKinds, choiceTextKinds, isPlain]
  | some p => simp [choiceKinds, choiceTextKinds, isPlain]

theorem isPlain_line {ks ks' : List Kind} (h : ∀ k ∈ ks, isPlain k = true)
    (h' : ∀ k ∈ ks', isPlain k = true) : ∀ k ∈ ks ++ ks' ++ [.newline], isPlain k = true := by
  intro k hk
  simp only [List.mem_append, List.mem_singleton] at hk
  rcases hk with (hk | hk) | rfl
  · exact h k hk
  · exact h' k hk
  · rfl

theorem isPlain_or_isLevel (ss : List Statement) :
    ∀ k ∈ Statement.kindsOf ss, isPlain k = true ∨ k.isLevel = true := by
  induction ss using Statement.induction with
  | nil => exact nofun
  | leaf tags l ss ih =>
    intro k hk
    rcases List.mem_append.1 hk with hk | hk
    · exact .inl (isPlain_line (isPlain_labels _) (isPlain_leaf l) k hk)
    · exact ih k hk
  | choice labels text body ss ihbody ih =>
    intro k hk
    rcases List.mem_append.1 hk with hk | hk
    · rcases List.mem_append.1 hk with hk | hk
      · exact .inl (isPlain_line (isPlain_labels _) (isPlain_choice text) k hk)
      · split at hk
        · cases hk
        · rw [List.cons_append, List.mem_cons, List.mem_append, List.mem_singleton] at hk
          rcases hk with rfl | hk | rfl
          · exact .inr rfl
          · exact ihbody k hk
          · exact .inr rfl
    · exact ih k hk

/-! ## Where a body ends -/

variable {t : Token} {ts rest : List Token}

theorem readBody_indent (h : t.kind = .indent) (depth : Nat) :
    readBody depth (t :: ts) = (t :: (readBody (depth + 1) ts).1, (readBody (depth + 1) ts).2) := by
  rw [readBody, h]

theorem readBody_dedent (h : t.kind = .dedent) (depth : Nat) :
    readBody (depth + 2) (t :: ts) =
      (t :: (readBody (depth + 1) ts).1, (readBody (depth + 1) ts).2) := by
  rw [readBody, h]
  rfl

/-- Tokens that do not change the level stay in the body. -/
theorem readBody_plain (h : ∀ k ∈ ts.map Token.kind, isPlain k = true) (depth : Nat) :
    readBody depth (ts ++ rest) = (ts ++ (readBody depth rest).1, (readBody depth rest).2) := by
  induction ts with
  | nil => rfl
  | cons t ts ih =>
    rw [List.map_cons, List.forall_mem_cons] at h
    rw [List.cons_append, readBody, ih h.2]
    split
    · next hk => rw [hk] at h; cases h.1
    · next hk => rw [hk] at h; cases h.1
    · rfl

theorem exists_brackets {ks : List Kind}
    (h : ts.map Token.kind = .indent :: ks ++ [.dedent]) :
    ∃ i inside d, ts = i :: inside ++ [d] ∧ i.kind = .indent ∧ inside.map Token.kind = ks ∧
      d.kind = .dedent := by
  obtain ⟨us, vs, rfl, hus, hvs⟩ := List.map_eq_append_iff.1 h
  obtain ⟨i, inside, rfl, hi, hinside⟩ := List.map_eq_cons_iff.1 hus
  obtain ⟨d, xs, rfl, hd, hxs⟩ := List.map_eq_cons_iff.1 hvs
  obtain rfl := List.map_eq_nil_iff.1 hxs
  exact ⟨i, inside, d, rfl, hi, hinside, hd⟩

/-- Statements stay in the body around them. -/
theorem readBody_statements {ss : List Statement}
    (h : ts.map Token.kind = Statement.kindsOf ss) (depth : Nat) :
    readBody (depth + 1) (ts ++ rest) =
      (ts ++ (readBody (depth + 1) rest).1, (readBody (depth + 1) rest).2) := by
  induction ss using Statement.induction generalizing ts rest depth with
  | nil =>
    obtain rfl := List.map_eq_nil_iff.1 h
    rfl
  | leaf tags l ss ih =>
    obtain ⟨us, vs, rfl, hus, hvs⟩ := List.map_eq_append_iff.1 h
    have hplain : ∀ k ∈ us.map Token.kind, isPlain k = true :=
      hus ▸ isPlain_line (isPlain_labels _) (isPlain_leaf l)
    rw [List.append_assoc, readBody_plain hplain, ih hvs, List.append_assoc]
  | choice labels text body ss ihbody ih =>
    obtain ⟨us, vs, rfl, hus, hvs⟩ := List.map_eq_append_iff.1 h
    obtain ⟨us, bs, rfl, hus, hbs⟩ := List.map_eq_append_iff.1 hus
    have hplain : ∀ k ∈ us.map Token.kind, isPlain k = true :=
      hus ▸ isPlain_line (isPlain_labels _) (isPlain_choice text)
    rw [List.append_assoc, List.append_assoc, readBody_plain hplain]
    by_cases hbody : body.isEmpty = true
    · rw [if_pos hbody] at hbs
      obtain rfl := List.map_eq_nil_iff.1 hbs
      rw [List.nil_append, ih hvs]
      simp
    · rw [if_neg hbody] at hbs
      obtain ⟨i, inside, d, rfl, hi, hinside, hd⟩ := exists_brackets hbs
      -- one level in and out again
      have hinner : readBody (depth + 1) (i :: inside ++ [d] ++ (vs ++ rest)) =
          (i :: inside ++ [d] ++ (readBody (depth + 1) (vs ++ rest)).1,
            (readBody (depth + 1) (vs ++ rest)).2) := by
        rw [List.append_assoc, List.cons_append, readBody_indent hi, ihbody hinside,
          List.singleton_append, readBody_dedent hd]
        simp
      rw [hinner, ih hvs]
      simp

/-- The body of a choice ends where its level is left. -/
theorem readIndented_body {ss : List Statement} {v i d : Token} (hv : v.kind = .newline)
    (hi : i.kind = .indent) (hd : d.kind = .dedent)
    (h : ts.map Token.kind = Statement.kindsOf ss) :
    readIndented (v :: (i :: ts ++ [d] ++ rest)) = some (ts, rest) := by
  obtain ⟨_, span⟩ := i
  obtain rfl : _ = Kind.indent := hi
  have hdrop : (v :: (⟨.indent, span⟩ :: ts ++ [d] ++ rest)).dropWhile (·.isTrivia) =
      ⟨.indent, span⟩ :: (ts ++ d :: rest) := by
    have hspan := @span_append Token (·.isTrivia) [v] (ts ++ d :: rest) ⟨.indent, span⟩
      (by simp [Token.isTrivia, Kind.isTrivia, hv]) rfl
    simpa using hspan.2
  unfold readIndented
  rw [hdrop]
  simp only
  rw [readBody_statements h, readBody, hd]
  simp

/-- Tokens that cannot be the body of what stands before them. -/
def Unindented (ts : List Token) : Prop :=
  ∀ t ∈ ts.head?, t.kind ≠ .indent ∧ t.isTrivia = false

theorem readIndented_none {v : Token} (hv : v.kind = .newline) (h : Unindented rest) :
    readIndented (v :: rest) = none := by
  have htrivia : v.isTrivia = true := by simp [Token.isTrivia, Kind.isTrivia, hv]
  unfold readIndented
  rw [List.dropWhile_cons_of_pos htrivia]
  cases rest with
  | nil => rfl
  | cons t ts =>
    obtain ⟨hindent, hsolid⟩ := h t rfl
    rw [List.dropWhile_cons_of_neg (by simp [hsolid])]
    split
    · next heq => exact absurd (congrArg Token.kind (List.cons.inj heq).1) hindent
    · rfl

/-! ## Choices -/

theorem readChoiceText_eq {text : Option Phrase} {us : List Token} {v : Token}
    (hus : us.map Token.kind = choiceTextKinds text) (hv : v.kind = .newline)
    (after : List Token) :
    ∃ runs segments, segmentsOf runs = (segments, []) ∧
      segments.map Segment.unplaced = (choiceTree [] text).segments ∧
      readChoiceText (us ++ v :: after) =
        { inlineText := (choiceTree [] text).inlineText, runs := runs, taken := us
          rest := v :: after } := by
  cases text with
  | none =>
    obtain rfl := List.map_eq_nil_iff.1 hus
    obtain ⟨_, span⟩ := v
    obtain rfl : _ = Kind.newline := hv
    exact ⟨[], [], segmentsOf_nil, rfl, rfl⟩
  | some p =>
    obtain ⟨⟨_, s1⟩, us, rfl, h1, hus⟩ := List.map_eq_cons_iff.1 hus
    obtain ⟨⟨_, s2⟩, us, rfl, h2, hus⟩ := List.map_eq_cons_iff.1 hus
    obtain ⟨⟨_, s3⟩, us, rfl, h3, hus⟩ := List.map_eq_cons_iff.1 hus
    obtain rfl := List.map_eq_nil_iff.1 hus
    obtain rfl : _ = Kind.choiceBound _ := h1
    obtain rfl : _ = Kind.choiceText _ := h2
    obtain rfl : _ = Kind.choiceBound _ := h3
    obtain ⟨span, hsegments⟩ := @segmentsOf_eq [⟨' ' :: p.chars, s2.start⟩] (by simp [Run.glued])
      (by simp [Run.glued, brace_not_mem_phrase])
    refine ⟨_, _, hsegments, ?_, ?_⟩
    · simp [Run.glued, Segment.unplaced, choiceTree, plainSegments]
    · simp [readChoiceText, readInlineText, readSilentBound, choiceTree]

/-- A choice and the tokens of its body, if one is indented under it. -/
theorem readItem_choice {text : Option Phrase}
    (h : ts.map Token.kind = choiceKinds text ++ [.newline]) :
    ∃ t us v, ts = t :: us ++ [v] ∧ v.kind = .newline ∧ ∀ after, ∃ c : Choice,
      c.unplaced = choiceTree [] text ∧
        readItem t (us ++ v :: after) =
          { item := .choice c ((readIndented (v :: after)).map (·.1))
            rest := ((readIndented (v :: after)).map (·.2)).getD (v :: after) } := by
  obtain ⟨cs, vs, rfl, hcs, hvs⟩ := List.map_eq_append_iff.1 h
  obtain ⟨v, xs, rfl, hv, hxs⟩ := List.map_eq_cons_iff.1 hvs
  obtain rfl := List.map_eq_nil_iff.1 hxs
  obtain ⟨t, us, rfl, ht, hus⟩ := List.map_eq_cons_iff.1 hcs
  refine ⟨t, us, v, rfl, hv, ?_⟩
  intro after
  obtain ⟨runs, segments, hsegments, hunplaced, htext⟩ := readChoiceText_eq hus hv after
  obtain ⟨span, hread⟩ : ∃ span, readItem t (us ++ v :: after) =
      { item := .choice ⟨(choiceTree [] text).inlineText, none, segments, [], [], span⟩
          ((readIndented (v :: after)).map (·.1))
        rest := ((readIndented (v :: after)).map (·.2)).getD (v :: after) } := by
    unfold readItem
    rw [ht]
    simp only [readChoice, htext, hsegments]
    exact ⟨_, rfl⟩
  refine ⟨_, ?_, hread⟩
  simp [Choice.unplaced, hunplaced, choiceTree]

/-! ## Statements -/

theorem filterMap_tag? (tags : List Mark) :
    (tags.map Label.tag).filterMap Label.tag? = tags.map Mark.tag := by
  rw [List.filterMap_map]
  exact congrFun List.filterMap_eq_map tags

theorem filterMap_choiceTag? (tags : List Mark) :
    (tags.map Label.tag).filterMap Label.choiceTag? = [] := by
  rw [List.filterMap_map, List.filterMap_eq_nil_iff]
  exact fun m _ => rfl

/-- The tags before a statement or a header wait for it. -/
theorem parseBlock_tags {marks : List Mark}
    (h : ts.map Token.kind = labelsKinds (marks.map .tag)) :
    ∃ tags, tags.map Tag.unplaced = marks.map Mark.tag ∧
      ∀ rest, parseBlock [] [] (ts ++ rest) = parseBlock tags [] rest := by
  obtain ⟨tags, choiceTags, htags, hchoiceTags, hlabels⟩ := parseBlock_labels h
  rw [filterMap_tag?] at htags
  rw [filterMap_choiceTag?, List.map_eq_nil_iff] at hchoiceTags
  subst hchoiceTags
  exact ⟨tags, htags, fun rest => hlabels [] [] rest⟩

theorem parseBlock_leafStatement {marks : List Mark} {l : Leaf}
    (h : ts.map Token.kind = (Statement.leaf marks l).kinds) (ho : Token.Ordered ts)
    (rest : List Token) :
    ∃ s, s.unplaced = (Statement.leaf marks l).tree ∧
      parseBlock [] [] (ts ++ rest) = (parseBlock [] [] rest).push s [] := by
  rw [Statement.kinds, List.append_assoc] at h
  obtain ⟨ms, ls, rfl, hms, hls⟩ := List.map_eq_append_iff.1 h
  obtain ⟨tags, htags, hwait⟩ := parseBlock_tags hms
  obtain ⟨s, hs, hleaf⟩ := parseBlock_leaf hls ho.right tags rest
  refine ⟨s, ?_, ?_⟩
  · rw [hs, htags, Statement.tree]
  · rw [List.append_assoc, hwait, hleaf]

/-- A choice is read back when its body is. -/
theorem parseBlock_choiceStatement {labels : List Label} {text : Option Phrase}
    {body : List Statement} (h : ts.map Token.kind = (Statement.choice labels text body).kinds)
    (ho : Token.Ordered ts) (hrest : Unindented rest)
    (hbody : ∀ us : List Token, us.map Token.kind = Statement.kindsOf body → Token.Ordered us →
      ∃ parsed, StoryScript.Statement.unplacedAll parsed = Statement.trees body ∧
        parseBlock [] [] us = ⟨parsed, [], []⟩) :
    ∃ s, s.unplaced = (Statement.choice labels text body).tree ∧
      parseBlock [] [] (ts ++ rest) = (parseBlock [] [] rest).push s [] := by
  rw [Statement.kinds, List.append_assoc, List.append_assoc, ← List.append_assoc (choiceKinds text)] at h
  obtain ⟨ms, us, rfl, hms, hus⟩ := List.map_eq_append_iff.1 h
  obtain ⟨cs, bs, rfl, hcs, hbs⟩ := List.map_eq_append_iff.1 hus
  obtain ⟨tags, choiceTags, htags, hchoiceTags, hwait⟩ := parseBlock_labels hms
  obtain ⟨t, us, v, rfl, hv, hchoice⟩ := readItem_choice hcs
  obtain ⟨c, hc, hread⟩ := hchoice (bs ++ rest)
  have hlabelled : ({ c with tags, choiceTags } : Choice).unplaced = choiceTree labels text := by
    simp only [Choice.unplaced, choiceTree, Choice.mk.injEq] at hc ⊢
    exact ⟨hc.1, hc.2.1, hc.2.2.1, htags, hchoiceTags, trivial⟩
  have hsource : ms ++ (t :: us ++ [v] ++ bs) ++ rest = ms ++ (t :: (us ++ v :: (bs ++ rest))) := by
    simp
  rw [hsource, hwait, List.nil_append, List.nil_append, Statement.tree]
  by_cases hempty : body.isEmpty = true
  · -- what follows could only be taken for a body if it were indented
    rw [if_pos hempty] at hbs ⊢
    obtain rfl := List.map_eq_nil_iff.1 hbs
    rw [List.nil_append, readIndented_none hv hrest] at hread
    refine ⟨.choice { c with tags, choiceTags } none, ?_, ?_⟩
    · rw [StoryScript.Statement.unplaced, hlabelled]
    · rw [← @parseBlock_newline [] [] v rest hv]
      exact parseBlock_item hread (parseBlock_nil [] []) rfl rfl
  · rw [if_neg hempty] at hbs ⊢
    obtain ⟨i, inside, d, rfl, hi, hinside, hd⟩ := exists_brackets hbs
    obtain ⟨parsed, hparsed, hblock⟩ := hbody inside hinside ho.right.right.left.tail
    rw [readIndented_body hv hi hd hinside] at hread
    refine ⟨.choice { c with tags, choiceTags } (some parsed), ?_, ?_⟩
    · rw [StoryScript.Statement.unplaced, hlabelled, hparsed]
    · exact parseBlock_item hread hblock rfl rfl

/-- A statement begins with none of its body and no line end. -/
theorem kinds_cons (s : Statement) :
    ∃ k ks, s.kinds = k :: ks ∧ k ≠ .indent ∧ k.isTrivia = false := by
  rcases s with ⟨- | ⟨m, marks⟩, target | ⟨name, first, others⟩ | ⟨first, others⟩⟩ |
    ⟨- | ⟨m | m, labels⟩, text, body⟩
  all_goals exact ⟨_, _, rfl, nofun, rfl⟩

theorem unindented_cons (hk : t.kind ≠ .indent) (ht : t.kind.isTrivia = false) :
    Unindented (t :: ts) := by
  intro u hu
  obtain rfl := Option.some.inj hu
  exact ⟨hk, ht⟩

theorem unindented_statements {ss : List Statement} (h : ts.map Token.kind = Statement.kindsOf ss)
    (hrest : Unindented rest) : Unindented (ts ++ rest) := by
  cases ss with
  | nil =>
    obtain rfl := List.map_eq_nil_iff.1 h
    exact hrest
  | cons s ss =>
    obtain ⟨k, ks, hs, hk, htrivia⟩ := kinds_cons s
    rw [Statement.kindsOf, hs] at h
    obtain ⟨t, ts, rfl, rfl, -⟩ := List.map_eq_cons_iff.1 h
    exact unindented_cons hk htrivia

theorem unindented_labels {labels : List Label} (h : ts.map Token.kind = labelsKinds labels) :
    Unindented ts := by
  rcases labels with - | ⟨m | m, labels⟩
  · obtain rfl := List.map_eq_nil_iff.1 h
    exact nofun
  all_goals
    obtain ⟨t, ts, rfl, ht, -⟩ := List.map_eq_cons_iff.1 h
    refine unindented_cons ?_ ?_
    · rw [ht]
      exact nofun
    · rw [ht]
      rfl

/-- Statements are read back one by one, and what follows them is read as it would be alone. -/
theorem parseBlock_statements {ss : List Statement}
    (h : ts.map Token.kind = Statement.kindsOf ss) (ho : Token.Ordered ts) (hrest : Unindented rest) :
    ∃ parsed, StoryScript.Statement.unplacedAll parsed = Statement.trees ss ∧
      parseBlock [] [] (ts ++ rest) =
        ⟨parsed ++ (parseBlock [] [] rest).statements, (parseBlock [] [] rest).dangling,
          (parseBlock [] [] rest).diagnostics⟩ := by
  induction ss using Statement.induction generalizing ts rest with
  | nil =>
    obtain rfl := List.map_eq_nil_iff.1 h
    exact ⟨[], rfl, rfl⟩
  | leaf marks l ss ih =>
    obtain ⟨us, later, rfl, hus, hlater⟩ := List.map_eq_append_iff.1 h
    obtain ⟨s, hs, hfirst⟩ := parseBlock_leafStatement hus ho.left (later ++ rest)
    obtain ⟨parsed, hparsed, hothers⟩ := ih hlater ho.right hrest
    refine ⟨s :: parsed, ?_, ?_⟩
    · rw [StoryScript.Statement.unplacedAll, hs, hparsed, Statement.trees]
    · rw [List.append_assoc, hfirst, hothers]
      rfl
  | choice labels text body ss ihbody ih =>
    obtain ⟨us, later, rfl, hus, hlater⟩ := List.map_eq_append_iff.1 h
    have hbody : ∀ us : List Token, us.map Token.kind = Statement.kindsOf body → Token.Ordered us →
        ∃ parsed, StoryScript.Statement.unplacedAll parsed = Statement.trees body ∧
          parseBlock [] [] us = ⟨parsed, [], []⟩ := by
      intro us hus ho
      obtain ⟨parsed, hparsed, hblock⟩ := @ihbody us [] hus ho (by rintro _ ⟨⟩)
      refine ⟨parsed, hparsed, ?_⟩
      simpa using hblock
    obtain ⟨s, hs, hfirst⟩ := parseBlock_choiceStatement hus ho.left
      (unindented_statements hlater hrest) hbody
    obtain ⟨parsed, hparsed, hothers⟩ := ih hlater ho.right hrest
    refine ⟨s :: parsed, ?_, ?_⟩
    · rw [StoryScript.Statement.unplacedAll, hs, hparsed, Statement.trees]
    · rw [List.append_assoc, hfirst, hothers]
      rfl

/-! ## Sections -/

theorem windows_append_inner (h : ∀ t ∈ ts, t.kind ≠ .header) (rest : List Token) :
    windows (ts ++ rest) = (ts ++ (windows rest).1, (windows rest).2) := by
  induction ts with
  | nil => rfl
  | cons t ts ih =>
    rw [List.cons_append, windows, if_neg (h t (by simp)), ih fun u hu => h u (by simp [hu])]
    rfl

theorem not_header_of_isPlain {k : Kind} (h : isPlain k = true ∨ k.isLevel = true) :
    k ≠ .header := by
  rintro rfl
  rcases h with h | h <;> cases h

/-- The tokens of a section: its tags, its header and its statements. -/
theorem exists_section {s : Section} {ks : List Kind} (h : ts.map Token.kind = s.kinds ++ ks) :
    ∃ ms header name v ss later, ts = ms ++ header :: name :: v :: (ss ++ later) ∧
      ms.map Token.kind = labelsKinds (s.tags.map .tag) ∧ header.kind = .header ∧
      name.kind = .identifier s.name.text ∧ v.kind = .newline ∧
      ss.map Token.kind = Statement.kindsOf s.statements ∧ later.map Token.kind = ks := by
  simp only [Section.kinds, List.append_assoc, List.cons_append, List.nil_append,
    List.map_eq_append_iff, List.map_eq_cons_iff] at h
  obtain ⟨ms, -, rfl, hms, header, -, rfl, hheader, name, -, rfl, hname, v, -, rfl, hv, ss, later,
    rfl, hss, hlater⟩ := h
  exact ⟨ms, header, name, v, ss, later, rfl, hms, hheader, hname, hv, hss, hlater⟩

theorem not_isContent {marks : List Mark} (h : ts.map Token.kind = labelsKinds (marks.map .tag)) :
    ts.any Token.isContent = false := by
  rw [List.any_eq_false]
  intro t ht
  have hk : t.kind ∈ labelsKinds (marks.map .tag) := h ▸ List.mem_map_of_mem ht
  obtain ⟨l, hl, hk⟩ := List.mem_flatMap.1 hk
  obtain ⟨⟨name, value⟩, -, rfl⟩ := List.mem_map.1 hl
  have hkinds : (∃ name, t.kind = .tag name) ∨ (∃ text, t.kind = .tagValue text) ∨
      t.kind = .newline := by
    cases value with
    | none =>
      simp only [Label.kinds, Mark.valueKinds, Mark.value?, List.mem_append, List.mem_singleton] at hk
      grind
    | some w =>
      simp only [Label.kinds, Mark.valueKinds, Mark.value?, List.mem_append, List.mem_singleton] at hk
      grind
  rcases hkinds with ⟨name, hk⟩ | ⟨text, hk⟩ | hk
  all_goals simp [Token.isContent, Token.isSolid, Kind.isTrivia, Kind.isLevel, hk]

/-- Sections are read back, the tags before the first of them aside, which wait for it. -/
theorem parseWindows_sections {sections : List Section}
    (h : ts.map Token.kind = sections.flatMap Section.kinds) (ho : Token.Ordered ts) :
    ∃ tags, parseBlock [] [] (windows ts).1 = ⟨[], tags, []⟩ ∧ Unindented (windows ts).1 ∧
      (windows ts).1.any Token.isContent = false ∧
      (parseWindows tags (windows ts).2).1.map Section.unplaced = sections.map Section.tree ∧
      (parseWindows tags (windows ts).2).2 = [] := by
  induction sections generalizing ts with
  | nil =>
    obtain rfl := List.map_eq_nil_iff.1 h
    exact ⟨[], parseBlock_nil [] [], nofun, rfl, rfl, rfl⟩
  | cons s sections ih =>
    obtain ⟨ms, header, ⟨_, span⟩, v, ss, later, rfl, hms, hheader, hname, hv, hss, hlater⟩ :=
      exists_section h
    obtain rfl : _ = Kind.identifier _ := hname
    have holater : Token.Ordered (ss ++ later) := ho.right.tail.tail.tail
    obtain ⟨laterTags, hbefore, hunindented, -, hsections, hsilent⟩ := ih hlater holater.right
    obtain ⟨tags, htags, hwait⟩ := parseBlock_tags hms
    obtain ⟨parsed, hparsed, hblock⟩ := parseBlock_statements hss holater.left hunindented
    -- the tags of the next section stand at the end of the window of this one, and dangle there
    rw [hbefore, ← @parseBlock_newline [] [] v _ hv, List.append_nil] at hblock
    have hms' : ∀ t ∈ ms, t.kind ≠ .header := by
      intro t ht
      refine not_header_of_isPlain (.inl (isPlain_labels (s.tags.map .tag) t.kind ?_))
      exact hms ▸ List.mem_map_of_mem ht
    have hinside : ∀ t ∈ ⟨.identifier s.name.text, span⟩ :: v :: ss, t.kind ≠ .header := by
      intro t ht
      rcases List.mem_cons.1 ht with rfl | ht
      · exact nofun
      rcases List.mem_cons.1 ht with rfl | ht
      · rw [hv]
        exact nofun
      · refine not_header_of_isPlain (isPlain_or_isLevel s.statements t.kind ?_)
        exact hss ▸ List.mem_map_of_mem ht
    have hwindows : windows (ms ++ header :: ⟨.identifier s.name.text, span⟩ :: v :: (ss ++ later)) =
        (ms, (header, ⟨.identifier s.name.text, span⟩ :: v :: (ss ++ (windows later).1)) ::
          (windows later).2) := by
      have hsection := windows_append_inner hinside later
      rw [List.cons_append, List.cons_append] at hsection
      rw [windows_append_inner hms', windows, if_pos hheader, hsection]
      simp
    rw [hwindows]
    refine ⟨tags, ?_, unindented_labels hms, not_isContent hms, ?_, ?_⟩
    · have hms := hwait []
      rwa [List.append_nil, parseBlock_nil] at hms
    · simp only [parseWindows, hblock, List.map_cons, hsections]
      rw [Section.unplaced, hparsed, htags]
      rfl
    · simp only [parseWindows, hblock, hsilent]
      rfl

/-! ## The whole story -/

theorem kinds_section (s : Section) : ∀ k ∈ s.kinds, k ≠ .eof ∧ ∀ text, k ≠ .error text := by
  have hinner : ∀ k : Kind, isPlain k = true ∨ k.isLevel = true →
      k ≠ .eof ∧ ∀ text, k ≠ .error text := by
    rintro k hk
    refine ⟨?_, ?_⟩
    · rintro rfl
      rcases hk with hk | hk <;> cases hk
    · rintro text rfl
      rcases hk with hk | hk <;> cases hk
  intro k hk
  rw [Section.kinds, List.mem_append, List.mem_append] at hk
  rcases hk with (hk | hk) | hk
  · exact hinner k (.inl (isPlain_labels _ k hk))
  · simp only [List.mem_cons, List.not_mem_nil, or_false] at hk
    rcases hk with rfl | rfl | rfl <;> simp
  · exact hinner k (isPlain_or_isLevel _ k hk)

/-- What sections that are read back alone make of a whole story. -/
theorem parse_sections {sections : List Section} {e : Token} (hne : sections ≠ [])
    (h : ts.map Token.kind = sections.flatMap Section.kinds) (ho : Token.Ordered ts)
    (hends : ∀ t ∈ ts, t.kind ≠ .eof) (he : e.kind = .eof) :
    (parse (ts ++ [e])).story.sections.map Section.unplaced = sections.map Section.tree ∧
      (parse (ts ++ [e])).diagnostics = [] := by
  obtain ⟨tags, hbefore, -, hcontent, hsections, hsilent⟩ := parseWindows_sections h ho
  have hend : (ts ++ [e]).takeWhile (fun t => decide (t.kind ≠ .eof)) = ts :=
    (span_append (fun t ht => by simpa using hends t ht) (by simpa using he)).1
  have hnamed : (parseWindows tags (windows ts).2).1.isEmpty = false := by
    have hlength := congrArg List.length hsections
    rw [List.length_map, List.length_map] at hlength
    rw [List.isEmpty_eq_false_iff, ← List.length_pos_iff, hlength, List.length_pos_iff]
    exact hne
  have hwindows : (windows ts).2.isEmpty = false := by
    cases hw : (windows ts).2 with
    | nil => rw [hw] at hnamed; cases hnamed
    | cons w ws => rfl
  have hparse : parse (ts ++ [e]) = ⟨⟨(parseWindows tags (windows ts).2).1⟩, []⟩ := by
    unfold parse
    rw [hend]
    simp only [hbefore, hwindows, hcontent, Bool.false_eq_true, if_false, List.nil_append, hnamed,
      hsilent]
  rw [hparse]
  exact ⟨hsections, rfl⟩

/-- A canonical story that is written down is read back as it was meant, and nothing is said about
its tokens or about how they are put together. -/
theorem parseSource_render (story : Story) :
    (parseSource story.render).story.unplaced = story.tree ∧
      (parseSource story.render).diagnostics = [] ∧
      validateTokens (tokenize story.render) = [] := by
  have hkinds := kinds_tokenize_render story
  have ho := ordered_tokenize_render story
  rw [parseSource]
  generalize tokenize story.render = tokens at hkinds ho
  obtain ⟨ts, es, rfl, hts, hes⟩ := List.map_eq_append_iff.1 hkinds
  obtain ⟨e, xs, rfl, he, hxs⟩ := List.map_eq_cons_iff.1 hes
  obtain rfl := List.map_eq_nil_iff.1 hxs
  have hinner : ∀ t ∈ ts, t.kind ≠ .eof ∧ ∀ text, t.kind ≠ .error text := by
    intro t ht
    have hk : t.kind ∈ story.sections.flatMap Section.kinds := hts ▸ List.mem_map_of_mem ht
    obtain ⟨s, -, hk⟩ := List.mem_flatMap.1 hk
    exact kinds_section s t.kind hk
  obtain ⟨hsections, hsilent⟩ := parse_sections (List.cons_ne_nil story.first story.others) hts
    ho.left (fun t ht => (hinner t ht).1) he
  refine ⟨?_, hsilent, ?_⟩
  · rw [StoryScript.Story.unplaced, hsections]
    rfl
  · rw [validateTokens, List.filterMap_eq_nil_iff]
    intro t ht
    split
    · next text hk =>
      rcases List.mem_append.1 ht with ht | ht
      · exact absurd hk ((hinner t ht).2 text)
      · rw [List.mem_singleton.1 ht, he] at hk
        cases hk
    · rfl

end StoryScript.Canonical

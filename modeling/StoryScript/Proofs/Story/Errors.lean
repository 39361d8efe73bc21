import Mathlib.Data.List.TakeWhile
import StoryScript.Check
import StoryScript.Proofs.Story.Statements
import StoryScript.Proofs.Token.Names
/-!
# Which stories have errors

Everything that is said about a source is an error or a warning. For each part of the check this
module says when it is silent about errors: for the tokens, for how they are put together, and for
the story they tell (`harmless_check`). That a choice has two texts is an error no source can make
(`oneText_parse`).
-/

namespace StoryScript

open Token (Kind)

/-- Nothing among the diagnostics is an error. -/
def Harmless (diagnostics : List Diagnostic) : Prop :=
  ∀ d ∈ diagnostics, d.finding.severity = .warning

@[simp] theorem harmless_nil : Harmless [] := nofun

@[simp] theorem harmless_singleton (d : Diagnostic) :
    Harmless [d] ↔ d.finding.severity = .warning := List.forall_mem_singleton

@[simp] theorem harmless_append (as bs : List Diagnostic) :
    Harmless (as ++ bs) ↔ Harmless as ∧ Harmless bs := List.forall_mem_append

theorem harmless_flatMap {α : Type} (f : α → List Diagnostic) (as : List α) :
    Harmless (as.flatMap f) ↔ ∀ a ∈ as, Harmless (f a) := List.forall_mem_flatMap

/-- Diagnostics of one kind of error are harmless only if there are none. -/
theorem harmless_map_error {α : Type} {f : α → Diagnostic}
    (hf : ∀ a, (f a).finding.severity = .error) (as : List α) : Harmless (as.map f) ↔ as = [] := by
  cases as with
  | nil => simp
  | cons a as =>
    refine ⟨fun h => ?_, nofun⟩
    have ha := h (f a) (by simp)
    rw [hf a] at ha
    cases ha

theorem harmless_map_warning {α : Type} {f : α → Diagnostic}
    (hf : ∀ a, (f a).finding.severity = .warning) (as : List α) : Harmless (as.map f) := by
  intro d hd
  obtain ⟨a, -, rfl⟩ := List.mem_map.1 hd
  exact hf a

/-! ## Tokens in a list -/

/-- Every token is followed right away by a name if its kind asks for one. -/
def NamesFollow (asks : Kind → Bool) (tokens : List Token) : Prop :=
  ∀ before t after, tokens = before ++ t :: after → asks t.kind → beginsWithName after

section
variable {P : Token → List Token → Prop} {t : Token} {ts : List Token}

theorem forall_split_cons :
    (∀ before u after, t :: ts = before ++ u :: after → P u after) ↔
      P t ts ∧ ∀ before u after, ts = before ++ u :: after → P u after := by
  constructor
  · intro h
    exact ⟨h [] t ts rfl, fun before u after hs => h (t :: before) u after (by rw [hs]; rfl)⟩
  · rintro ⟨ht, hts⟩ before u after h
    cases before with
    | nil =>
      obtain ⟨rfl, rfl⟩ := List.cons.inj h
      exact ht
    | cons b before => exact hts before u after (List.cons.inj h).2

theorem forall_split_concat {e : Token} :
    (∀ before u after, ts ++ [e] = before ++ u :: after → P u after) ↔
      (∀ before u after, ts = before ++ u :: after → P u (after ++ [e])) ∧ P e [] := by
  induction ts with
  | nil =>
    rw [List.nil_append, forall_split_cons]
    simp
  | cons t ts ih =>
    rw [List.cons_append, forall_split_cons, ih, forall_split_cons (P := fun u us => P u (us ++ [e])),
      and_assoc]

end

theorem namesFollow_cons {asks : Kind → Bool} {t : Token} {ts : List Token} :
    NamesFollow asks (t :: ts) ↔ (asks t.kind → beginsWithName ts) ∧ NamesFollow asks ts :=
  forall_split_cons (P := fun t ts => asks t.kind → beginsWithName ts)

/-- The end of the source asks for no name and is none. -/
theorem namesFollow_concat {asks : Kind → Bool} {e : Token} {ts : List Token} (he : e.kind = .eof)
    (ha : asks .eof = false) : NamesFollow asks (ts ++ [e]) ↔ NamesFollow asks ts := by
  have hname : ∀ us, beginsWithName (us ++ [e]) = beginsWithName us := by
    intro us
    cases us with
    | nil =>
      obtain ⟨kind, span⟩ := e
      obtain rfl : kind = .eof := he
      rfl
    | cons u us => cases u with | mk kind span => cases kind <;> rfl
  refine (forall_split_concat (P := fun t ts => asks t.kind → beginsWithName ts)).trans ?_
  simp [hname, he, ha, NamesFollow]

theorem collect_eq_nil {α : Type} {f : Token → List Token → List α} {ts : List Token} :
    collect f ts = [] ↔ ∀ before t after, ts = before ++ t :: after → f t after = [] := by
  induction ts with
  | nil => simp [collect]
  | cons t ts ih =>
    rw [collect, List.append_eq_nil_iff, ih, forall_split_cons (P := fun t ts => f t ts = [])]

/-! ## How the tokens are put together -/

theorem harmless_looseTags (tags : List Tag) : Harmless (looseTags tags) :=
  harmless_map_warning (fun _ => rfl) tags

theorem harmless_iff_reports (diagnostics : List Diagnostic) :
    Harmless diagnostics ↔ reports (fun f => f.severity ≠ .warning) diagnostics = [] := by
  rw [reports, List.filter_eq_nil_iff]
  exact forall₂_congr fun d _ => by simp

/-- The only error that is made of items is an arrow without a target. -/
theorem harmless_parseBlock (tags choiceTags : List Tag) (ts : List Token) :
    Harmless (parseBlock tags choiceTags ts).diagnostics ↔ collect Token.targetless ts = [] := by
  have hitems : ReportsItems (fun f => f.severity ≠ .warning)
      fun t ts => targetlessReports (t.targetless ts) := by
    refine reportsItems_targetless rfl (fun f hf => ?_) (fun _ => rfl) fun _ => rfl
    cases f <;> first | rfl | cases hf
  rw [harmless_iff_reports, reports_parseBlock hitems, collect_targetlessReports, targetlessReports,
    List.map_eq_nil_iff]

theorem harmless_parseWindows (tags : List Tag) (ws : List (Token × List Token)) :
    Harmless (parseWindows tags ws).2 ↔
      ∀ w ∈ ws, beginsWithName w.2 ∧ collect Token.targetless w.2 = [] := by
  induction tags, ws using parseWindows.induct with
  | case1 tags => exact iff_of_true (harmless_looseTags tags) (by simp)
  | case2 tags header name span inside rest block ih =>
    rw [parseWindows, harmless_append, ih, harmless_parseBlock, List.forall_mem_cons,
      collect_identifier found_targetless]
    simp [beginsWithName]
  | case3 tags header ts rest hname ih =>
    rw [parseWindows, List.forall_mem_cons, beginsWithName_eq_false hname]
    · refine iff_of_false (fun h => ?_) (by simp)
      cases h ⟨.headerWithoutName, header.span⟩ (by simp)
    · exact hname

/-- The windows are silent if every header has its name and no window holds anything. -/
theorem windows_silent {α : Type} {f : Token → List Token → List α} (hf : FoundAtOpening f)
    {ts : List Token} (he : ∀ t ∈ ts, t.kind ≠ .eof) :
    (collect f (windows ts).1 = [] ∧
        ∀ w ∈ (windows ts).2, beginsWithName w.2 ∧ collect f w.2 = []) ↔
      NamesFollow (· == .header) ts ∧ collect f ts = [] := by
  induction ts with
  | nil => simp [windows, collect, NamesFollow]
  | cons t ts ih =>
    have hts : ∀ u ∈ ts, u.kind ≠ .eof := fun u hu => he u (by simp [hu])
    have hb : beforeEnd ts = ts := List.takeWhile_eq_self_iff.2 fun u hu => decide_eq_true (hts u hu)
    obtain ⟨rest, hrest, hd⟩ := windows_append ts
    have hname := beginsWithName_windows ts
    rw [hb] at hrest hname
    rw [windows, namesFollow_cons, collect, List.append_eq_nil_iff]
    by_cases hh : t.kind = .header
    · have hnil : f t ts = [] := hf.nil_of_not_opening t ts (by rw [hh]; rfl)
      simp only [hh, if_true, List.forall_mem_cons, hname, hnil, collect, beq_self_eq_true,
        forall_const, true_and, and_assoc]
      exact and_congr_right' (ih hts)
    · -- what is found at a token does not look beyond the next header
      have hloc : f t ts = f t (windows ts).1 := by
        conv => lhs; rw [hrest]
        exact hf.append_detached t _ rest hd
      have hask : (t.kind == .header) = false := by simpa using hh
      rw [if_neg hh, collect, List.append_eq_nil_iff, hask, hloc, and_assoc, ih hts]
      simp only [Bool.false_eq_true, false_imp_iff, true_and]
      exact and_left_comm

/-- How the tokens of a source are put together is silent about errors if the headers and the arrows
have their names. -/
theorem harmless_parse_tokenize (source : String) :
    Harmless (parse (tokenize source)).diagnostics ↔
      NamesFollow (· == .header) (tokenize source) ∧
        NamesFollow Kind.isArrow (tokenize source) := by
  obtain ⟨haimed, eof, heof, hk⟩ := aimed_tokenize source
  -- a name that is blank is no target, but no such name stands behind an arrow
  have htargets : ∀ before t after, beforeEnd (tokenize source) = before ++ t :: after →
      (t.targetless after = [] ↔ (t.kind.isArrow → beginsWithName after)) := by
    intro before t after hs
    have hchain : Aimed (before ++ t :: after) := by
      rw [← hs]
      rw [heof] at haimed
      exact haimed.left
    unfold Token.targetless
    cases ht : t.kind with
    | goto arrow =>
      have hname := hchain.isSome_targetName (by rw [ht]; rfl)
      simp [hname, Kind.isArrow]
    | _ => simp [Kind.isArrow]
  have hends : ∀ t ∈ beforeEnd (tokenize source), t.kind ≠ .eof := by
    intro t ht
    simpa using List.all_eq_true.1 List.all_takeWhile t ht
  rw [diagnostics_parse, harmless_append, harmless_parseBlock, harmless_parseWindows,
    windows_silent found_targetless hends]
  conv => rhs; rw [heof]
  rw [namesFollow_concat hk rfl, namesFollow_concat hk rfl, collect_eq_nil]
  exact and_congr_right' (forall₄_congr htargets)

/-! ## The texts of choices -/

/-- A choice has its text on its line or between bounds, but not both. -/
def Statement.OneText : Statement → Prop
  | .choice c _ => c.inlineText = none ∨ c.blockText = none
  | _ => True

theorem oneText_readChoiceText (ts : List Token) :
    (readChoiceText ts).inlineText = none ∨ (readChoiceText ts).blockText = none := by
  unfold readChoiceText
  split
  · unfold readInlineText
    split <;> exact .inr rfl
  · unfold readBlockText
    dsimp only
    split <;> exact .inl rfl
  · exact .inl rfl

theorem oneText_statement? {t : Token} {ts : List Token} {tags choiceTags : List Tag}
    {body : List Statement} {s : Statement}
    (h : (readItem t ts).item.statement? tags choiceTags body = some s) : s.OneText := by
  cases statementRead h with
  | goto | call | replica => trivial
  | choice _ _ hi =>
    obtain ⟨rfl, -⟩ := Item.choice.inj hi
    exact oneText_readChoiceText ts

/-- No choice of a story that was read has two texts. -/
theorem oneText_parse (tokens : List Token) : ∀ s ∈ (parse tokens).story.preorder, s.OneText :=
  forall_preorder_parse fun _ _ _ _ _ _ _ => oneText_statement?

/-! ## The story -/

/-- Nothing repeats if all keys are different from each other and from those before. -/
theorem repeats_eq_nil {α : Type} {key : α → String} {seen : List String} {as : List α} :
    repeats key seen as = [] ↔ (as.map key).Nodup ∧ ∀ a ∈ as, key a ∉ seen := by
  induction as generalizing seen with
  | nil => simp [repeats]
  | cons a as ih =>
    rw [repeats]
    split
    · next h => simp [h]
    · next h =>
      rw [ih, List.map_cons, List.nodup_cons, List.forall_mem_cons]
      simp only [List.mem_cons, not_or, List.mem_map, not_exists, not_and]
      constructor
      · rintro ⟨hn, hk⟩
        exact ⟨⟨fun b hb => (hk b hb).1, hn⟩, h, fun b hb => (hk b hb).2⟩
      · rintro ⟨⟨ha, hn⟩, -, hs⟩
        exact ⟨hn, fun b hb => ⟨ha b hb, hs b hb⟩⟩

/-- Every group has one member if all keys that were not seen before are different. -/
theorem groups_single {α : Type} {key : α → String} {seen : List String} {as : List α} :
    (∀ g ∈ groups key seen as, g.2 ≤ 1) ↔ ((as.map key).filter (· ∉ seen)).Nodup := by
  induction as generalizing seen with
  | nil => simp [groups]
  | cons a as ih =>
    rw [groups, List.map_cons]
    split
    · next h => rw [ih, List.filter_cons_of_neg (by simpa using h)]
    · next h =>
      have hcount : 1 + as.countP (key · == key a) ≤ 1 ↔ key a ∉ as.map key := by
        have hzero : ∀ n, 1 + n ≤ 1 ↔ n = 0 := by omega
        rw [hzero, List.countP_eq_zero]
        simp
      have hmem : key a ∉ (as.map key).filter (· ∉ seen) ↔ key a ∉ as.map key := by
        simp [List.mem_filter, h]
      rw [List.forall_mem_cons, ih, List.filter_cons_of_pos (by simpa using h), List.nodup_cons,
        hcount, hmem]
      refine and_congr_right fun ha => ?_
      -- no later key is the one of this element, so it makes no difference that it is seen now
      have hfilter : (as.map key).filter (· ∉ key a :: seen) = (as.map key).filter (· ∉ seen) := by
        refine List.filter_congr fun k hk => ?_
        have hne : k ≠ key a := fun he => ha (he ▸ hk)
        simp [hne]
      rw [hfilter]

/-- Names of sections are unique. -/
theorem harmless_duplicateSections (sections : List Section) :
    Harmless (duplicateSections sections) ↔ (sections.map Section.key).Nodup := by
  rw [duplicateSections, harmless_map_error (fun _ => rfl), List.filter_eq_nil_iff]
  have h : (∀ g ∈ groups Section.key [] sections, g.2 ≤ 1) ↔ _ := groups_single
  simp only [List.not_mem_nil, not_false_eq_true, decide_true, List.filter_true] at h
  rw [← h]
  simp

/-- No two tags of a choice's own have one name. -/
def Choice.TagsDiffer (c : Choice) : Prop := (c.choiceTags.map (Text.lowercase ·.name)).Nodup

/-- What the check asks of a statement by itself. -/
def Statement.Sound : Statement → Prop
  | .call c => Text.isBlankText c.name = false
  | .choice c _ => c.TagsDiffer
  | _ => True

theorem harmless_choice {c : Choice} (h : c.inlineText = none ∨ c.blockText = none)
    (inSection : String) (hasBody : Bool) :
    Harmless (c.findings inSection hasBody) ↔ c.TagsDiffer := by
  have htexts : (c.inlineText.isSome && c.blockText.isSome) = false := by
    rcases h with h | h <;> simp [h]
  have hempty : ∀ b : Bool, Harmless
      (if b then [] else [⟨.emptyChoice inSection, c.span⟩]) := by
    intro b
    cases b <;> simp [Finding.severity]
  rw [Choice.findings, harmless_append, harmless_append, htexts, duplicateChoiceTags,
    harmless_map_error (fun _ => rfl), repeats_eq_nil]
  simp only [Bool.false_eq_true, if_false, hempty, harmless_nil, List.not_mem_nil,
    not_false_eq_true, implies_true, true_and, and_true, Choice.TagsDiffer]

theorem harmless_statement {s : Statement} (h : s.OneText) (inSection : String) :
    Harmless (s.findings inSection) ↔ s.Sound := by
  cases s with
  | goto g => simp [Statement.findings, Statement.Sound]
  | call c =>
    rw [Statement.findings, Statement.Sound]
    split <;> simp_all [Finding.severity]
  | replica r =>
    rw [Statement.findings]
    split <;> simp [Finding.severity, Statement.Sound]
  | choice c body => exact harmless_choice h inSection _

theorem harmless_section {s : Section} (h : ∀ u ∈ s.preorder, u.OneText) :
    Harmless s.findings ↔ ∀ u ∈ s.preorder, u.Sound := by
  have hempty : Harmless (if s.statements.isEmpty then [⟨.emptySection s.name, s.span⟩] else []) := by
    split <;> simp [Finding.severity]
  rw [Section.findings, harmless_append, harmless_flatMap]
  refine (and_iff_right hempty).trans ?_
  exact forall₂_congr fun u hu => harmless_statement (h u hu) s.name

theorem harmless_unknownTargets (story : Story) :
    Harmless (unknownTargets story) ↔
      ∀ g ∈ story.gotos, ∃ s ∈ story.sections, Text.lowercase s.name = Text.lowercase g.target := by
  rw [unknownTargets, harmless_map_error (fun _ => rfl), List.filter_eq_nil_iff]
  simp [Section.key]

/-- When a story is valid. -/
theorem harmless_validate {story : Story} (h : ∀ s ∈ story.preorder, s.OneText) :
    Harmless (validate story) ↔
      (story.sections.map Section.key).Nodup ∧ (∀ s ∈ story.preorder, s.Sound) ∧
        ∀ g ∈ story.gotos, ∃ s ∈ story.sections,
          Text.lowercase s.name = Text.lowercase g.target := by
  have hunreferenced : Harmless (unreferencedSections story) :=
    harmless_map_warning (fun _ => rfl) _
  have hsections : (∀ s ∈ story.sections, Harmless s.findings) ↔ ∀ s ∈ story.preorder, s.Sound := by
    rw [Story.preorder, List.forall_mem_flatMap]
    refine forall₂_congr fun s hs => harmless_section fun u hu => h u ?_
    exact List.mem_flatMap.2 ⟨s, hs, hu⟩
  rw [validate, harmless_append, harmless_append, harmless_append, harmless_duplicateSections,
    harmless_flatMap, hsections, harmless_unknownTargets]
  simp only [hunreferenced, and_true, and_assoc]

/-! ## The source -/

theorem harmless_validateTokens (tokens : List Token) :
    Harmless (validateTokens tokens) ↔ ∀ t ∈ tokens, t.kind.isError = false := by
  constructor
  · intro h t ht
    cases hk : t.kind with
    | error text =>
      have hd : (⟨.strayText text, t.span⟩ : Diagnostic) ∈ validateTokens tokens :=
        List.mem_filterMap.2 ⟨t, ht, by rw [hk]⟩
      exact absurd (h _ hd) nofun
    | _ => rfl
  · intro h d hd
    obtain ⟨t, ht, hd⟩ := List.mem_filterMap.1 hd
    have hk := h t ht
    split at hd
    · next he =>
      rw [he] at hk
      cases hk
    · cases hd

/-- What is asked of a source: all of its text is tokens, names stand behind headers and arrows, and
in its story names of sections are unique, every goto has a section to go to, calls have names and
the choice tags of a choice differ. Names are compared by their lowercase. -/
structure WellFormed (source : String) : Prop where
  tokens : ∀ t ∈ tokenize source, t.kind.isError = false
  headers : NamesFollow (· == .header) (tokenize source)
  arrows : NamesFollow Kind.isArrow (tokenize source)
  sections : ((parseSource source).story.sections.map (Text.lowercase ·.name)).Nodup
  targets : ∀ g, .goto g ∈ (parseSource source).story.preorder →
    ∃ s ∈ (parseSource source).story.sections, Text.lowercase s.name = Text.lowercase g.target
  calls : ∀ c, .call c ∈ (parseSource source).story.preorder → Text.isBlankText c.name = false
  choices : ∀ c body, .choice c body ∈ (parseSource source).story.preorder →
    (c.choiceTags.map (Text.lowercase ·.name)).Nodup

theorem mem_gotos {story : Story} {g : Goto} : g ∈ story.gotos ↔ .goto g ∈ story.preorder := by
  constructor
  · intro h
    obtain ⟨s, hs, hg⟩ := List.mem_filterMap.1 h
    cases s with
    | goto g' =>
      obtain rfl := Option.some.inj hg
      exact hs
    | _ => cases hg
  · exact fun h => List.mem_filterMap.2 ⟨_, h, rfl⟩

theorem forall_sound {ss : List Statement} :
    (∀ s ∈ ss, s.Sound) ↔
      (∀ c, .call c ∈ ss → Text.isBlankText c.name = false) ∧
        ∀ c body, .choice c body ∈ ss → c.TagsDiffer := by
  constructor
  · exact fun h => ⟨fun c hc => h _ hc, fun c body hc => h _ hc⟩
  · rintro ⟨hcalls, hchoices⟩ s hs
    cases s with
    | goto | replica => trivial
    | call c => exact hcalls c hs
    | choice c body => exact hchoices c body hs

/-- The check of a source finds no error if and only if the source is well formed. -/
theorem harmless_check (source : String) :
    Harmless (check source).diagnostics ↔ WellFormed source := by
  have hparse := harmless_parse_tokenize source
  have hvalid := harmless_validate (oneText_parse (tokenize source))
  rw [forall_sound] at hvalid
  rw [check, harmless_append, harmless_append, harmless_validateTokens, hparse, hvalid]
  constructor
  · rintro ⟨⟨ht, hh, ha⟩, hs, ⟨hc, hch⟩, hg⟩
    exact ⟨ht, hh, ha, hs, fun g hm => hg g (mem_gotos.2 hm), hc, hch⟩
  · rintro ⟨ht, hh, ha, hs, hg, hc, hch⟩
    exact ⟨⟨ht, hh, ha⟩, hs, ⟨hc, hch⟩, fun g hm => hg g (mem_gotos.1 hm)⟩

end StoryScript

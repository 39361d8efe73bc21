import StoryScript.Proofs.Story.Errors
import StoryScript.Proofs.Story.Slices
import StoryScript.Proofs.Text.Arguments
/-!
# Trees that can be read

Tokens in any order give a story that is well formed as a tree (`regular_parse`): there is a section,
every goto has a target, a choice has one text at most, and every text is cut into segments without
empty parts and without two plain parts side by side. So the check never meets a choice with two
texts.
-/

namespace StoryScript

/-! ## Segments -/

/-- Segments of a text as it is cut: plain parts are not empty and never stand side by side, and the
names and arguments of calls have no blanks around them. -/
structure Segment.Regular (segments : List Segment) : Prop where
  text_ne_empty : ∀ text span, .text text span ∈ segments → text ≠ ""
  apart : segments.IsChain fun a b => ¬(a.text?.isSome ∧ b.text?.isSome)
  name_trimmed : ∀ name args span, .inlineCall name args span ∈ segments →
    Text.IsTrimmed name.toList
  args_trimmed : ∀ name args span, .inlineCall name args span ∈ segments →
    ∀ arg ∈ args, arg ≠ "" ∧ Text.IsTrimmed arg.toList

/-- The plain fragments. -/
def Fragment.isPlain : Fragment → Bool
  | .plain _ => true
  | .call _ => false

theorem Fragment.isChain_ofPlain (r : Fragment → Fragment → Prop) (text : List Char) :
    (Fragment.ofPlain text).IsChain r := by
  unfold Fragment.ofPlain
  split
  · exact .nil
  · exact .singleton _

/-- Between two plain parts of a text stands a call. -/
theorem isChain_cutInlineCalls (offset : Nat) (text : List Char) :
    (cutInlineCalls offset text).fragments.IsChain fun f g => ¬(f.isPlain ∧ g.isPlain) := by
  fun_induction cutInlineCalls offset text with
  | case1 offset text hs => exact Fragment.isChain_ofPlain _ text
  | case2 offset text before body hs he => exact Fragment.isChain_ofPlain _ text
  | case3 offset text before body hs inner rest he hlt call cut ih =>
    have hcall : (call :: cut.fragments).IsChain fun f g => ¬(f.isPlain ∧ g.isPlain) := by
      refine List.isChain_cons.2 ⟨fun g _ => ?_, ih⟩
      simp [call, Fragment.isPlain]
    refine List.isChain_append.2 ⟨Fragment.isChain_ofPlain _ before, hcall, ?_⟩
    intro f _ g hg
    obtain rfl : call = g := by simpa using hg
    simp [call, Fragment.isPlain]

theorem Fragment.isSome_text?_segment (span : Span) (f : Fragment) :
    (f.segment span).text?.isSome = f.isPlain := by
  cases f <;> rfl

theorem trimmed_splitInlineCall (inner : List Char) :
    Text.IsTrimmed (splitInlineCall inner).1 ∧
      ∀ arg ∈ (splitInlineCall inner).2, arg ≠ [] ∧ Text.IsTrimmed arg := by
  unfold splitInlineCall
  dsimp only
  split
  · exact ⟨Text.isTrimmed_trim inner, List.forall_mem_nil _⟩
  · exact ⟨Text.isTrimmed_trim _, Text.trimmed_splitArguments _⟩

theorem exists_of_mem_placeFragments {stop : Position} {places : List Position}
    {fs : List Fragment} {seg : Segment} (h : seg ∈ placeFragments stop places fs) :
    ∃ f ∈ fs, ∃ span, seg = f.segment span := by
  induction fs generalizing places with
  | nil => cases h
  | cons f fs ih =>
    rw [placeFragments] at h
    rcases List.mem_cons.1 h with rfl | h
    · exact ⟨f, List.mem_cons_self, _, rfl⟩
    · obtain ⟨g, hg, hseg⟩ := ih h
      exact ⟨g, List.mem_cons_of_mem f hg, hseg⟩

theorem isChain_placeFragments {stop : Position} {places : List Position} {fs : List Fragment}
    (h : fs.IsChain fun f g => ¬(f.isPlain ∧ g.isPlain)) :
    (placeFragments stop places fs).IsChain fun a b => ¬(a.text?.isSome ∧ b.text?.isSome) := by
  induction fs generalizing places with
  | nil => exact .nil
  | cons f fs ih =>
    obtain ⟨hhead, htail⟩ := List.isChain_cons.1 h
    rw [placeFragments]
    refine List.isChain_cons.2 ⟨fun seg hseg => ?_, ih htail⟩
    cases fs with
    | nil => cases hseg
    | cons g gs =>
      obtain rfl := Option.some.inj hseg
      rw [Fragment.isSome_text?_segment, Fragment.isSome_text?_segment]
      exact hhead g rfl

/-- However a text is glued together, its segments are regular. -/
theorem regular_segmentsOf (runs : List Run) : Segment.Regular (segmentsOf runs).1 where
  text_ne_empty := by
    intro text span h
    obtain ⟨f, hf, span', hseg⟩ := exists_of_mem_placeFragments h
    have hne := (texts_cutInlineCalls 0 (Run.glued runs)).2 f hf
    cases f with
    | call inner => cases hseg
    | plain cs =>
      obtain ⟨rfl, -⟩ := Segment.text.inj hseg
      simpa [Fragment.text] using hne
  apart := isChain_placeFragments (isChain_cutInlineCalls 0 _)
  name_trimmed := by
    intro name args span h
    obtain ⟨f, -, span', hseg⟩ := exists_of_mem_placeFragments h
    cases f with
    | plain cs => cases hseg
    | call inner =>
      obtain ⟨rfl, -, -⟩ := Segment.inlineCall.inj hseg
      rw [String.toList_ofList]
      exact (trimmed_splitInlineCall inner).1
  args_trimmed := by
    intro name args span h arg harg
    obtain ⟨f, -, span', hseg⟩ := exists_of_mem_placeFragments h
    cases f with
    | plain cs => cases hseg
    | call inner =>
      obtain ⟨-, rfl, -⟩ := Segment.inlineCall.inj hseg
      obtain ⟨cs, hcs, rfl⟩ := List.mem_map.1 harg
      obtain ⟨hne, htrim⟩ := (trimmed_splitInlineCall inner).2 cs hcs
      rw [String.toList_ofList]
      exact ⟨by simpa using hne, htrim⟩

/-! ## Statements -/

/-- A statement as it is read: what it is made of fits together. -/
def Statement.Regular : Statement → Prop
  | .goto g => g.target ≠ "" ∧ Text.IsTrimmed g.target.toList
  | .call _ => True
  | .replica r => Segment.Regular r.segments
  | .choice c _ => ¬(c.inlineText.isSome ∧ c.blockText.isSome) ∧
      (c.inlineText = none → c.blockText = none → c.segments = []) ∧ Segment.Regular c.segments

theorem trimmed_readTarget {ts rest : List Token} {target : String} {span : Span}
    (h : readTarget ts = some (target, span, rest)) :
    target ≠ "" ∧ Text.IsTrimmed target.toList := by
  unfold readTarget at h
  split at h
  · next name _ _ =>
    split at h
    · cases h
    · next hb =>
      obtain ⟨rfl, -, -⟩ := by simpa using h
      have hne : Text.trim name.toList ≠ [] := fun he => hb (Text.trim_eq_nil_iff.1 he)
      rw [Text.trimmed, String.toList_ofList]
      exact ⟨by simpa using hne, Text.isTrimmed_trim _⟩
  · cases h

/-- Without a text there is nothing to cut. -/
theorem runs_eq_nil_of_no_text (ts : List Token) (hi : (readChoiceText ts).inlineText = none)
    (hb : (readChoiceText ts).blockText = none) : (readChoiceText ts).runs = [] := by
  unfold readChoiceText at hi hb ⊢
  split
  · unfold readInlineText at hi ⊢
    split
    · cases hi
    · rfl
  · unfold readBlockText at hb
    dsimp only at hb
    split at hb <;> cases hb
  · rfl

theorem regular_of_statement? {t : Token} {ts : List Token} {tags choiceTags : List Tag}
    {body : List Statement} {s : Statement}
    (h : (readItem t ts).item.statement? tags choiceTags body = some s) : s.Regular := by
  have hsegments : Segment.Regular s.segments := by
    rw [segments_of_statement? h]
    exact regular_segmentsOf _
  cases statementRead h with
  | goto _ hr => exact trimmed_readTarget hr
  | call => trivial
  | replica => exact hsegments
  | choice _ _ hi =>
    obtain ⟨rfl, -⟩ := Item.choice.inj hi
    have hnone : (readChoiceText ts).inlineText = none → (readChoiceText ts).blockText = none →
        (segmentsOf (readChoiceText ts).runs).1 = [] := by
      intro hinline hblock
      rw [runs_eq_nil_of_no_text ts hinline hblock, segments_nil]
    have hone : ¬((readChoiceText ts).inlineText.isSome ∧ (readChoiceText ts).blockText.isSome) := by
      rcases oneText_readChoiceText ts with hone | hone <;> simp [hone]
    exact ⟨hone, hnone, hsegments⟩

/-! ## Stories -/

theorem sections_parse_ne_nil (tokens : List Token) : (parse tokens).story.sections ≠ [] := by
  have horMain : ∀ ss : List Section, (if ss.isEmpty then [mainSection [] []] else ss) ≠ [] := by
    intro ss
    cases ss <;> exact List.cons_ne_nil _ _
  unfold parse
  dsimp only
  split
  · exact List.cons_ne_nil _ _
  · exact horMain _

theorem Choice.finding_ne_twoChoiceTexts {c : Choice}
    (h : ¬(c.inlineText.isSome ∧ c.blockText.isSome)) (inSection : String) (hasBody : Bool) :
    ∀ d ∈ c.findings inSection hasBody, d.finding ≠ .twoChoiceTexts := by
  have htexts : (c.inlineText.isSome && c.blockText.isSome) = false := by
    rw [← Bool.not_eq_true, Bool.and_eq_true]
    exact h
  intro d hd
  rw [findings, htexts, List.mem_append, List.mem_append] at hd
  rcases hd with (hd | hd) | hd
  · cases hd
  · split at hd
    · cases hd
    · rw [List.mem_singleton.1 hd]
      rintro ⟨⟩
  · obtain ⟨t, -, rfl⟩ := List.mem_map.1 hd
    rintro ⟨⟩

theorem Statement.finding_ne_twoChoiceTexts {s : Statement} (h : s.Regular) (inSection : String) :
    ∀ d ∈ s.findings inSection, d.finding ≠ .twoChoiceTexts := by
  cases s with
  | goto g => exact List.forall_mem_nil _
  | call c | replica r =>
    rw [findings]
    split
    · exact List.forall_mem_singleton.2 (by rintro ⟨⟩)
    · exact List.forall_mem_nil _
  | choice c body => exact c.finding_ne_twoChoiceTexts h.1 inSection _

/-- In a story of regular statements no choice is reported for its texts. -/
theorem finding_ne_twoChoiceTexts {story : Story} (h : ∀ s ∈ story.preorder, s.Regular) :
    ∀ d ∈ validate story, d.finding ≠ .twoChoiceTexts := by
  rw [validate]
  simp only [List.forall_mem_append]
  refine ⟨⟨⟨?_, ?_⟩, ?_⟩, ?_⟩
  · exact List.forall_mem_map.2 fun _ _ => by rintro ⟨⟩
  · refine List.forall_mem_flatMap.2 fun s hs => List.forall_mem_append.2 ⟨?_, ?_⟩
    · split
      · exact List.forall_mem_singleton.2 (by rintro ⟨⟩)
      · exact List.forall_mem_nil _
    · refine List.forall_mem_flatMap.2 fun u hu => ?_
      exact u.finding_ne_twoChoiceTexts (h u (List.mem_flatMap.2 ⟨s, hs, hu⟩)) s.name
  · exact List.forall_mem_map.2 fun _ _ => by rintro ⟨⟩
  · exact List.forall_mem_map.2 fun _ _ => by rintro ⟨⟩

/-- Whatever the tokens are, the story they tell has a section, and every statement at any depth is
regular. So nothing is ever said about a choice with two texts. -/
theorem regular_parse (tokens : List Token) :
    (parse tokens).story.sections ≠ [] ∧
      (∀ s ∈ (parse tokens).story.preorder, s.Regular) ∧
      ∀ i ∈ (validate (parse tokens).story).map Diagnostic.issue,
        i.message ≠ "Choice has both inline and block text" := by
  have hregular : ∀ s ∈ (parse tokens).story.preorder, s.Regular :=
    forall_preorder_parse fun _ _ _ _ _ _ _ => regular_of_statement?
  refine ⟨sections_parse_ne_nil tokens, hregular, List.forall_mem_map.2 fun d hd hm => ?_⟩
  have hidx : d.finding.ctorIdx = Finding.twoChoiceTexts.ctorIdx := Finding.ctorIdx_of_message hm
  have hne := finding_ne_twoChoiceTexts hregular d hd
  cases hf : d.finding <;> rw [hf] at hidx hne <;> first | exact hne rfl | cases hidx

end StoryScript

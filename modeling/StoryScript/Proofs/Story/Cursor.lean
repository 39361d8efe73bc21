import StoryScript.Proofs.Story.Nesting
/-!
# The statement under a cursor

The search goes down the first section, the first statement and then the first statement of each
body that the cursor stands on, and never looks at another. It misses nothing, because a cursor that
stands on a statement stands on everything around it (`Statement.contains_of_mem_preorder`). So what
is found is innermost, and nothing is found only where there is nothing
(`statementAt?_parseSource`).
-/

namespace StoryScript

variable {line column : Nat}

/-! ## Around a cursor -/

/-- A cursor on a span is on every span around it. -/
theorem Span.contains_of_within {outer inner : Span} (hstart : outer.start ≤ inner.start)
    (hstop : inner.stop ≤ outer.stop) (h : inner.contains line column = true) :
    outer.contains line column = true := by
  have hfirst := (Position.le_iff.1 hstart).2
  have hlast := (Position.le_iff.1 hstop).2
  simp only [contains, noLater, Bool.and_eq_true, Bool.or_eq_true, decide_eq_true_eq,
    beq_iff_eq] at h ⊢
  omega

theorem Span.Holds.contains {outer : Span} {ss : List Statement} (h : outer.Holds ss)
    {s : Statement} (hs : s ∈ ss) (hc : s.span.contains line column = true) :
    outer.contains line column = true :=
  Span.contains_of_within (h.within s hs).1 (h.within s hs).2 hc

namespace Statement

mutual

/-- A cursor on a part of a statement is on the statement. -/
theorem contains_of_mem_preorder : (s : Statement) → (∀ u ∈ s.preorder, u.Nested) →
    ∀ u ∈ s.preorder, u.span.contains line column = true → s.span.contains line column = true
  | .goto g, _, u, hu, hc => by
    obtain rfl : u = .goto g := by simpa [preorder] using hu
    exact hc
  | .call c, _, u, hu, hc => by
    obtain rfl : u = .call c := by simpa [preorder] using hu
    exact hc
  | .replica r, _, u, hu, hc => by
    obtain rfl : u = .replica r := by simpa [preorder] using hu
    exact hc
  | .choice c none, _, u, hu, hc => by
    obtain rfl : u = .choice c none := by simpa [preorder] using hu
    exact hc
  | .choice c (some body), hn, u, hu, hc => by
    rw [preorder] at hn hu
    obtain ⟨hself, hbody⟩ := List.forall_mem_cons.1 hn
    rcases List.mem_cons.1 hu with rfl | hu
    · exact hc
    · obtain ⟨s, hs, hsc⟩ := exists_contains_of_mem_preorders body hbody u hu hc
      exact hself.body.contains hs hsc

/-- A cursor on a part of statements in a row is on one of these. -/
theorem exists_contains_of_mem_preorders : (ss : List Statement) →
    (∀ u ∈ preorders ss, u.Nested) → ∀ u ∈ preorders ss, u.span.contains line column = true →
      ∃ s ∈ ss, s.span.contains line column = true
  | [], _, u, hu, _ => by simp [preorders] at hu
  | s :: ss, hn, u, hu, hc => by
    rw [preorders] at hn hu
    obtain ⟨hfirst, hothers⟩ := List.forall_mem_append.1 hn
    rcases List.mem_append.1 hu with hu | hu
    · exact ⟨s, by simp, contains_of_mem_preorder s hfirst u hu hc⟩
    · obtain ⟨t, ht, htc⟩ := exists_contains_of_mem_preorders ss hothers u hu hc
      exact ⟨t, by simp [ht], htc⟩

end

theorem self_mem_preorder (s : Statement) : s ∈ s.preorder := by
  cases s with
  | choice c body => cases body <;> simp [preorder]
  | _ => simp [preorder]

theorem subset_preorders (ss : List Statement) : ss ⊆ preorders ss := by
  induction ss with
  | nil => exact List.nil_subset _
  | cons s ss ih =>
    rw [preorders]
    refine List.cons_subset.2 ⟨List.mem_append_left _ s.self_mem_preorder, fun u hu => ?_⟩
    exact List.mem_append_right _ (ih hu)

/-! ## Going down -/

theorem under?_eq_none {ss : List Statement} :
    under? line column ss = none ↔ ∀ s ∈ ss, s.span.contains line column = false := by
  induction ss with
  | nil => simp [under?]
  | cons s ss ih =>
    rw [under?, List.forall_mem_cons, ← ih]
    cases s.span.contains line column <;> simp

/-- Where the search finds nothing, no part at any depth is under the cursor. -/
theorem not_contains_of_under? {ss : List Statement} (hn : ∀ u ∈ preorders ss, u.Nested)
    (h : under? line column ss = none) :
    ∀ u ∈ preorders ss, u.span.contains line column = false := by
  intro u hu
  by_contra hc
  obtain ⟨s, hs, hsc⟩ :=
    exists_contains_of_mem_preorders ss hn u hu (Bool.not_eq_false _ ▸ hc)
  exact absurd hsc (by simp [under?_eq_none.1 h s hs])

/-- The statement is under the cursor, and nothing in its body is. -/
structure Innermost (line column : Nat) (s : Statement) : Prop where
  contains : s.span.contains line column = true
  body : ∀ u ∈ preorders s.body, u.span.contains line column = false

mutual

theorem innermost_spec : (s : Statement) → (∀ u ∈ s.preorder, u.Nested) →
    s.span.contains line column = true →
      innermost line column s ∈ s.preorder ∧ (innermost line column s).Innermost line column
  | .goto g, _, hc => ⟨by simp [innermost, preorder], hc, nofun⟩
  | .call c, _, hc => ⟨by simp [innermost, preorder], hc, nofun⟩
  | .replica r, _, hc => ⟨by simp [innermost, preorder], hc, nofun⟩
  | .choice c none, _, hc => ⟨by simp [innermost, preorder], hc, nofun⟩
  | .choice c (some body), hn, hc => by
    rw [preorder] at hn ⊢
    have hbody := (List.forall_mem_cons.1 hn).2
    rw [innermost]
    cases hu : under? line column body with
    | none => exact ⟨by simp, hc, not_contains_of_under? hbody hu⟩
    | some u =>
      obtain ⟨hmem, hin⟩ := under?_spec body hbody u hu
      exact ⟨List.mem_cons_of_mem _ hmem, hin⟩

theorem under?_spec : (ss : List Statement) → (∀ u ∈ preorders ss, u.Nested) →
    ∀ u, under? line column ss = some u → u ∈ preorders ss ∧ u.Innermost line column
  | [], _, u, hu => by simp [under?] at hu
  | s :: ss, hn, u, hu => by
    rw [preorders] at hn ⊢
    obtain ⟨hfirst, hothers⟩ := List.forall_mem_append.1 hn
    rw [under?] at hu
    split at hu
    · next hc =>
      obtain rfl := Option.some.inj hu
      obtain ⟨hmem, hin⟩ := innermost_spec s hfirst hc
      exact ⟨List.mem_append_left _ hmem, hin⟩
    · obtain ⟨hmem, hin⟩ := under?_spec ss hothers u hu
      exact ⟨List.mem_append_right _ hmem, hin⟩

end

end Statement

/-! ## Sections and stories -/

/-- A cursor on a part of a section is on the section. -/
theorem Section.Nested.contains {s : Section} (h : s.Nested) (hn : ∀ u ∈ s.preorder, u.Nested)
    {u : Statement} (hu : u ∈ s.preorder) (hc : u.span.contains line column = true) :
    s.span.contains line column = true := by
  obtain ⟨t, ht, htc⟩ := Statement.exists_contains_of_mem_preorders s.statements hn u hu hc
  exact h.statements.contains ht htc

namespace Story

variable {story : Story} (hs : ∀ s ∈ story.sections, s.Nested)
  (hn : ∀ u ∈ story.preorder, u.Nested)
include hn

theorem nested_of_mem_section {s : Section} (hmem : s ∈ story.sections) :
    ∀ u ∈ s.preorder, u.Nested :=
  fun u hu => hn u (List.mem_flatMap.2 ⟨s, hmem, hu⟩)

theorem statementAt?_spec {u : Statement} (h : story.statementAt? line column = some u) :
    u ∈ story.preorder ∧ u.Innermost line column := by
  obtain ⟨before, s, after, hfilter, hunder, -⟩ := List.findSome?_eq_some_iff.1 h
  have hmem : s ∈ story.sections := by
    refine (List.mem_filter.1 (?_ : s ∈ story.sections.filter (·.span.contains line column))).1
    rw [hfilter]
    simp
  obtain ⟨hu, hin⟩ := Statement.under?_spec s.statements (nested_of_mem_section hn hmem) u hunder
  exact ⟨List.mem_flatMap.2 ⟨s, hmem, hu⟩, hin⟩

include hs

/-- The sections that are left out are no loss: what they hold is not under the cursor either. -/
theorem statementAt?_eq_none :
    story.statementAt? line column = none ↔
      ∀ u ∈ story.preorder, u.span.contains line column = false := by
  rw [statementAt?, List.findSome?_eq_none_iff]
  constructor
  · intro h u hu
    obtain ⟨s, hmem, hu⟩ := List.mem_flatMap.1 hu
    have hns := nested_of_mem_section hn hmem
    cases hc : s.span.contains line column with
    | true =>
      exact Statement.not_contains_of_under? hns (h s (List.mem_filter.2 ⟨hmem, hc⟩)) u hu
    | false =>
      by_contra huc
      rw [(hs s hmem).contains hns hu (Bool.not_eq_false _ ▸ huc)] at hc
      cases hc
  · intro h s hmem
    refine Statement.under?_eq_none.2 fun u hu => h u (List.mem_flatMap.2 ⟨s, ?_, ?_⟩)
    · exact (List.mem_filter.1 hmem).1
    · exact Statement.subset_preorders s.statements hu

end Story

/-- The search for the statement under a cursor finds nothing exactly where the cursor is on no
statement at any depth. What it finds is a statement of the story under the cursor, and nothing at
any depth of its body is. -/
theorem statementAt?_parseSource (source : String) (line column : Nat) :
    ((parseSource source).story.statementAt? line column = none ↔
      ∀ s ∈ (parseSource source).story.preorder, s.span.contains line column = false) ∧
    ∀ s, (parseSource source).story.statementAt? line column = some s →
      s ∈ (parseSource source).story.preorder ∧ s.span.contains line column = true ∧
        ∀ u ∈ Statement.preorders s.body, u.span.contains line column = false := by
  obtain ⟨-, hs, hn⟩ := nested_parse (inOrder_tokenize source)
  refine ⟨Story.statementAt?_eq_none hs hn, fun s h => ?_⟩
  obtain ⟨hmem, hin⟩ := Story.statementAt?_spec hn h
  exact ⟨hmem, hin.contains, hin.body⟩

end StoryScript

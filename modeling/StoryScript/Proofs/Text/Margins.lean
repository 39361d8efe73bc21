import StoryScript.Text.Blank
/-!
# What is cut off from a text

The margins of a text are blank, and what is left of a text that is not blank begins and ends with
characters that are not.
-/

namespace StoryScript.Text

theorem allBlank_leading (cs : List Char) : allBlank (leading cs) := List.all_takeWhile

theorem allBlank_trailing (cs : List Char) : allBlank (trailing cs) := by
  rw [allBlank, trailing, List.all_reverse]
  exact List.all_takeWhile

theorem leading_subset (cs : List Char) : leading cs ⊆ cs := (List.takeWhile_sublist _).subset

theorem trimStart_subset (cs : List Char) : trimStart cs ⊆ cs := (List.dropWhile_sublist _).subset

theorem trimEnd_subset (cs : List Char) : trimEnd cs ⊆ cs := by
  conv => rhs; rw [← trimEnd_append_trailing cs]
  exact List.subset_append_left _ _

theorem trailing_subset (cs : List Char) : trailing cs ⊆ cs := by
  conv => rhs; rw [← trimEnd_append_trailing cs]
  exact List.subset_append_right _ _

theorem trim_subset (cs : List Char) : trim cs ⊆ cs :=
  List.Subset.trans (trimEnd_subset _) (trimStart_subset cs)

/-- What is left of a text that is not blank is not blank. -/
theorem not_allBlank_trim {cs : List Char} (h : allBlank cs = false) : allBlank (trim cs) = false := by
  rw [← margins_append cs, allBlank, List.all_append, List.all_append] at h
  have hl : (leading cs).all isBlank = true := allBlank_leading cs
  have ht : (trailing (trimStart cs)).all isBlank = true := allBlank_trailing _
  rwa [hl, ht, Bool.true_and, Bool.and_true] at h

theorem not_allBlank_trimEnd {cs : List Char} (h : allBlank cs = false) :
    allBlank (trimEnd cs) = false := by
  have ht : (trailing cs).all isBlank = true := allBlank_trailing cs
  rwa [← trimEnd_append_trailing cs, allBlank, List.all_append, ht, Bool.and_true] at h

/-- A text that is not blank ends, once trimmed, with a character that is not. -/
theorem exists_trimEnd {cs : List Char} (h : allBlank cs = false) :
    ∃ as c, trimEnd cs = as ++ [c] ∧ isBlank c = false := by
  unfold trimEnd
  cases hd : cs.reverse.dropWhile isBlank with
  | nil =>
    have hall : ∀ c ∈ cs.reverse, isBlank c := by
      intro c hc
      rw [← List.takeWhile_append_dropWhile (p := isBlank) (l := cs.reverse), hd,
        List.append_nil] at hc
      exact List.all_eq_true.1 List.all_takeWhile c hc
    have hblank : allBlank cs = true := List.all_eq_true.2 fun c hc => hall c (by simpa using hc)
    rw [hblank] at h
    cases h
  | cons c ds =>
    refine ⟨ds.reverse, c, by simp, ?_⟩
    have hc := List.head?_dropWhile_not isBlank cs.reverse
    rw [hd] at hc
    simpa using hc

theorem exists_trim {cs : List Char} (h : allBlank cs = false) :
    ∃ as c, trim cs = as ++ [c] ∧ isBlank c = false := by
  refine exists_trimEnd ?_
  rw [← leading_append_trimStart cs, allBlank, List.all_append] at h
  have hl : (leading cs).all isBlank = true := allBlank_leading cs
  rwa [hl, Bool.true_and] at h

theorem trim_eq_nil_iff {cs : List Char} : trim cs = [] ↔ allBlank cs = true := by
  constructor
  · intro h
    rw [← Bool.not_eq_false]
    intro hb
    obtain ⟨as, c, hc, -⟩ := exists_trim hb
    rw [h] at hc
    simp at hc
  · intro h
    have hstart : trimStart cs = [] := by
      rw [trimStart, ← List.append_nil cs, List.dropWhile_append_of_pos (List.all_eq_true.1 h)]
      rfl
    rw [trim, hstart]
    rfl

/-- Nothing before a character that is not blank is cut off at the end. -/
theorem append_prefix_trimEnd {c : Char} (hc : isBlank c = false) (as bs : List Char) :
    as ++ [c] <+: trimEnd (as ++ [c] ++ bs) := by
  have h := trimEnd_append_trailing (as ++ [c] ++ bs)
  rcases List.append_eq_append_iff.1 h with ⟨ds, hleft, hright⟩ | ⟨ds, hleft, -⟩
  · rcases List.eq_nil_or_concat ds with rfl | ⟨es, d, rfl⟩
    · rw [List.append_nil] at hleft
      exact hleft ▸ List.prefix_refl _
    · -- the character would stand in the margin
      rw [List.concat_eq_append, ← List.append_assoc] at hleft
      obtain rfl : c = d := by simpa using (List.append_inj' hleft rfl).2
      have hmem : c ∈ trailing (as ++ [c] ++ bs) := by rw [hright]; simp
      have hblank := List.all_eq_true.1 (allBlank_trailing _) c hmem
      rw [hc] at hblank
      cases hblank
  · exact ⟨ds, hleft.symm⟩

/-! ## Blanks put around a text -/

theorem trim_blank_append {as : List Char} (h : allBlank as = true) (cs : List Char) :
    trim (as ++ cs) = trim cs := by
  rw [trim, trimStart, List.dropWhile_append_of_pos (List.all_eq_true.1 h), ← trimStart, ← trim]

theorem trimEnd_append_blank {bs : List Char} (h : allBlank bs = true) (cs : List Char) :
    trimEnd (cs ++ bs) = trimEnd cs := by
  have hall : ∀ c ∈ bs.reverse, isBlank c = true := by
    intro c hc
    exact List.all_eq_true.1 h c (List.mem_reverse.1 hc)
  rw [trimEnd, List.reverse_append, List.dropWhile_append_of_pos hall, ← trimEnd]

theorem trim_append_blank {bs : List Char} (h : allBlank bs = true) (cs : List Char) :
    trim (cs ++ bs) = trim cs := by
  cases hcs : trimStart cs with
  | nil =>
    have hblank : allBlank cs = true := trim_eq_nil_iff.1 (by rw [trim, hcs]; rfl)
    rw [trim_blank_append hblank, trim_eq_nil_iff.2 hblank, trim_eq_nil_iff.2 h]
  | cons d ds =>
    have hstart : trimStart (cs ++ bs) = trimStart cs ++ bs := by
      rw [trimStart, List.dropWhile_append, ← trimStart, hcs]
      rfl
    rw [trim, hstart, trimEnd_append_blank h, ← trim]

/-! ## Trimmed texts -/

/-- No blank stands at either end. -/
def IsTrimmed (cs : List Char) : Prop :=
  ∀ c, cs.head? = some c ∨ cs.getLast? = some c → isBlank c = false

instance (cs : List Char) : Decidable (IsTrimmed cs) :=
  decidable_of_iff
    ((cs.head?.all (!isBlank ·)) = true ∧ (cs.getLast?.all (!isBlank ·)) = true) <| by
    simp only [Option.all_eq_true, Bool.not_eq_true']
    constructor
    · rintro ⟨hhead, hlast⟩ c (hc | hc)
      · exact hhead c hc
      · exact hlast c hc
    · exact fun h => ⟨fun c hc => h c (.inl hc), fun c hc => h c (.inr hc)⟩

theorem isTrimmed_trim (cs : List Char) : IsTrimmed (trim cs) := by
  cases hb : allBlank cs with
  | true =>
    rw [trim_eq_nil_iff.2 hb]
    simp [IsTrimmed]
  | false =>
    obtain ⟨as, d, htrim, hd⟩ := exists_trim hb
    rintro c (hc | hc)
    · -- what `trimEnd` leaves begins as the text it cuts does
      have happ : (trim cs ++ trailing (trimStart cs)).head? = some c := by
        rw [List.head?_append, hc]
        rfl
      have hfirst := List.head?_dropWhile_not isBlank cs
      rw [trim, trimEnd_append_trailing, trimStart] at happ
      rw [happ] at hfirst
      simpa using hfirst
    · rw [htrim, List.getLast?_concat] at hc
      exact Option.some.inj hc ▸ hd

theorem dropWhile_isBlank_eq_self {cs : List Char} (h : ∀ c ∈ cs.head?, isBlank c = false) :
    cs.dropWhile isBlank = cs := by
  cases cs with
  | nil => rfl
  | cons c cs => rw [List.dropWhile_cons_of_neg (by simp [h c rfl])]

/-- From a trimmed text nothing is cut off. -/
theorem IsTrimmed.trim_eq {cs : List Char} (h : IsTrimmed cs) : trim cs = cs := by
  have hstart : trimStart cs = cs := dropWhile_isBlank_eq_self fun c hc => h c (.inl hc)
  have hend : cs.reverse.dropWhile isBlank = cs.reverse :=
    dropWhile_isBlank_eq_self fun c hc => h c (.inr (by rwa [List.head?_reverse] at hc))
  rw [trim, hstart, trimEnd, hend, List.reverse_reverse]

end StoryScript.Text

import Mathlib.Order.Defs.PartialOrder
import StoryScript.Proofs.Source.Place
/-!
# The order of places

Places are ordered by offset and by line and column at once. Reading on never goes back
(`le_advance`), and so for places of one source the offsets decide (`le_of_prefix`).
-/

namespace StoryScript

/-- One place comes no later than another, by offset as well as by line and column. -/
instance : Preorder Position where
  le p q := p.offset ≤ q.offset ∧ Span.noLater p.line p.column q.line q.column = true
  le_refl p := by simp [Span.noLater]
  le_trans p q r := by
    simp only [Span.noLater, Bool.or_eq_true, Bool.and_eq_true, decide_eq_true_eq, beq_iff_eq]
    omega

instance (p q : Position) : Decidable (p ≤ q) := inferInstanceAs (Decidable (_ ∧ _))

namespace Position

theorem le_iff {p q : Position} :
    p ≤ q ↔ p.offset ≤ q.offset ∧ (p.line < q.line ∨ p.line = q.line ∧ p.column ≤ q.column) := by
  change _ ∧ Span.noLater _ _ _ _ = true ↔ _
  simp [Span.noLater]

theorem le_next (p : Position) (c : Char) : p ≤ p.next c := by
  rw [le_iff, offset_next, next]
  split <;> simp

theorem le_advance (p : Position) (text : List Char) : p ≤ p.advance text := by
  induction text generalizing p with
  | nil => exact le_refl p
  | cons c cs ih => exact le_trans (p.le_next c) (ih (p.next c))

/-- What stands before a place of a text is what stands before a later one, up to there. -/
theorem prefix_of_offset_le {p : Position} {as bs cs : List Char} (ha : as <+: cs) (hb : bs <+: cs)
    (h : (p.advance as).offset ≤ (p.advance bs).offset) : as <+: bs := by
  rcases List.prefix_or_prefix_of_prefix ha hb with has | ⟨more, rfl⟩
  · exact has
  · -- what the first place has more than the second is empty
    rw [advance_append, offset_advance] at h
    have hnil : more = [] := by
      cases more with
      | nil => rfl
      | cons c more =>
        have := c.utf8Size_pos
        rw [String.utf8Len_cons] at h
        omega
    exact ⟨[], by rw [hnil, List.append_nil, List.append_nil]⟩

/-- Of two places in a text, the one with the smaller offset comes first in every respect. -/
theorem le_of_prefix {p : Position} {as bs cs : List Char} (ha : as <+: cs) (hb : bs <+: cs)
    (h : (p.advance as).offset ≤ (p.advance bs).offset) : p.advance as ≤ p.advance bs := by
  obtain ⟨more, rfl⟩ := prefix_of_offset_le ha hb h
  rw [advance_append]
  exact le_advance _ more

theorem eq_of_prefix {p : Position} {as bs cs : List Char} (ha : as <+: cs) (hb : bs <+: cs)
    (h : p.advance as = p.advance bs) : as = bs := by
  have hle := prefix_of_offset_le ha hb (le_of_eq (congrArg offset h))
  exact hle.eq_of_length_le (prefix_of_offset_le hb ha (le_of_eq (congrArg offset h.symm))).length_le

end Position

end StoryScript

import StoryScript.Source.Span
import Mathlib.Data.String.Basic
/-!
# Places in a source

A place is coherent with a source when it is where the text before it ends: its offset falls between
two characters, and its line and column are those of that text. Walking over the source from its
start meets coherent places only.
-/

namespace StoryScript

/-! ## Cutting by bytes -/

theorem dropBytes_append (before after : List Char) :
    dropBytes (String.utf8Len before) (before ++ after) = some after := by
  induction before with
  | nil => cases after <;> rfl
  | cons c cs ih =>
    have hc := c.utf8Size_pos
    obtain ⟨n, hn⟩ : ∃ n, String.utf8Len (c :: cs) = n + 1 :=
      ⟨String.utf8Len cs + c.utf8Size - 1, by rw [String.utf8Len_cons]; omega⟩
    rw [String.utf8Len_cons] at hn
    rw [String.utf8Len_cons, hn, List.cons_append, dropBytes, if_pos (by omega),
      show n + 1 - c.utf8Size = String.utf8Len cs by omega]
    exact ih

theorem takeBytes_append (before after : List Char) :
    takeBytes (String.utf8Len before) (before ++ after) = some before := by
  induction before with
  | nil => cases after <;> rfl
  | cons c cs ih =>
    have hc := c.utf8Size_pos
    obtain ⟨n, hn⟩ : ∃ n, String.utf8Len (c :: cs) = n + 1 :=
      ⟨String.utf8Len cs + c.utf8Size - 1, by rw [String.utf8Len_cons]; omega⟩
    rw [String.utf8Len_cons] at hn
    rw [String.utf8Len_cons, hn, List.cons_append, takeBytes, if_pos (by omega),
      show n + 1 - c.utf8Size = String.utf8Len cs by omega, ih]
    rfl

theorem takeBytes_eq_some {n : Nat} {cs as : List Char} (h : takeBytes n cs = some as) :
    ∃ bs, cs = as ++ bs ∧ String.utf8Len as = n := by
  induction cs generalizing n as with
  | nil =>
    cases n with
    | zero => exact ⟨[], by simp_all [takeBytes]⟩
    | succ n => cases h
  | cons c cs ih =>
    cases n with
    | zero =>
      obtain rfl : [] = as := Option.some.inj h
      exact ⟨c :: cs, rfl, rfl⟩
    | succ n =>
      rw [takeBytes] at h
      split at h
      · next hc =>
        obtain ⟨ds, hds, rfl⟩ := Option.map_eq_some_iff.1 h
        obtain ⟨bs, rfl, hlen⟩ := ih hds
        exact ⟨bs, rfl, by rw [String.utf8Len_cons]; omega⟩
      · cases h

namespace Position

@[simp] theorem offset_next (p : Position) (c : Char) : (p.next c).offset = p.offset + c.utf8Size := by
  unfold next
  split <;> rfl

@[simp] theorem offset_advance (p : Position) (text : List Char) :
    (p.advance text).offset = p.offset + String.utf8Len text := by
  induction text generalizing p with
  | nil => rfl
  | cons c cs ih =>
    rw [advance_cons, ih, offset_next, String.utf8Len_cons]
    omega

@[simp] theorem offset_origin : origin.offset = 0 := rfl

theorem offset_origin_advance (text : List Char) :
    (origin.advance text).offset = String.utf8Len text := by
  rw [offset_advance, offset_origin, Nat.zero_add]

theorem line_le_next (p : Position) (c : Char) : p.line ≤ (p.next c).line := by
  unfold next
  split
  · exact Nat.le_succ p.line
  · exact Nat.le_refl p.line

theorem line_le_advance (p : Position) (text : List Char) : p.line ≤ (p.advance text).line := by
  induction text generalizing p with
  | nil => exact Nat.le_refl p.line
  | cons c cs ih => exact Nat.le_trans (p.line_le_next c) (ih (p.next c))

/-- The place is where the text before it ends. -/
def Coherent (p : Position) (source : List Char) : Prop :=
  (takeBytes p.offset source).map origin.advance = some p

theorem coherent_advance (before after : List Char) :
    (origin.advance before).Coherent (before ++ after) := by
  rw [Coherent, offset_origin_advance, takeBytes_append]
  rfl

/-- The places of a source are those that walking over it meets. -/
theorem coherent_iff {p : Position} {source : List Char} :
    p.Coherent source ↔ ∃ before after, source = before ++ after ∧ p = origin.advance before := by
  constructor
  · intro h
    obtain ⟨before, hbefore, hp⟩ := Option.map_eq_some_iff.1 h
    obtain ⟨after, hsource, -⟩ := takeBytes_eq_some hbefore
    exact ⟨before, after, hsource, hp.symm⟩
  · rintro ⟨before, after, rfl, rfl⟩
    exact coherent_advance before after

end Position

namespace Span

/-- A span over a part of the source has that part as its text. -/
theorem text?_ofText (before text after : List Char) :
    (ofText (Position.origin.advance before) text).text? (before ++ text ++ after) = some text := by
  have hoff := Position.offset_origin_advance before
  have hlen : ((Position.origin.advance before).advance text).offset -
      (Position.origin.advance before).offset = String.utf8Len text := by simp
  rw [text?, ofText, if_pos (by simp), hlen, hoff, List.append_assoc, dropBytes_append,
    Option.bind_some, takeBytes_append]

end Span

end StoryScript

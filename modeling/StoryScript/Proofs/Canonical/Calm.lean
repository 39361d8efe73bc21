import StoryScript.Proofs.Canonical.Story
import StoryScript.Proofs.Token.Reading
/-!
# Letters, digits and spaces

No mark begins with a letter, a digit or a space, so every reader goes through words and phrases
without a stop, and no blank is trimmed off a word.
-/

namespace StoryScript.Canonical

/-! ## Calm characters -/

/-- Letters and digits of ASCII, and the space. -/
def isCalm (c : Char) : Bool := c.isAlphanum || c == ' '

variable {c : Char} {cs text rest : List Char} {b : Lookbehind}

theorem isCalm_of_isAlphanum (h : c.isAlphanum = true) : isCalm c = true := by
  simp [isCalm, h]

theorem ne_of_isCalm {d : Char} (hc : isCalm c = true) (hd : isCalm d = false) : c ≠ d := by
  rintro rfl
  rw [hc] at hd
  cases hd

theorem not_isSpacer_of_isAlphanum (h : c.isAlphanum = true) : isSpacer c = false := by
  have hs : c ≠ ' ' := by rintro rfl; exact absurd h (by decide)
  have ht : c ≠ '\t' := by rintro rfl; exact absurd h (by decide)
  simp [isSpacer, hs, ht]

theorem not_isBlank_of_isAlphanum (h : c.isAlphanum = true) : Text.isBlank c = false := by
  change ((decide ('A'.val ≤ c.val ∧ c.val ≤ 'Z'.val) ||
    (decide ('a'.val ≤ c.val) && decide (c.val ≤ 'z'.val))) ||
      (decide ('0'.val ≤ c.val) && decide (c.val ≤ '9'.val))) = true at h
  simp only [Bool.or_eq_true, Bool.and_eq_true, decide_eq_true_eq, UInt32.le_iff_toNat_le] at h
  change ((65 ≤ c.toNat ∧ c.toNat ≤ 90) ∨ (97 ≤ c.toNat ∧ c.toNat ≤ 122)) ∨
    (48 ≤ c.toNat ∧ c.toNat ≤ 57) at h
  simp only [Text.isBlank, Bool.or_eq_false_iff, Bool.and_eq_false_iff, decide_eq_false_iff_not,
    beq_eq_false_iff_ne]
  omega

theorem escaped_next (hc : isCalm c = true) : (b.next c).escaped = false := by
  have h : c ≠ '\\' := ne_of_isCalm hc (by decide)
  simp [Lookbehind.next, h]

theorem escaped_past (ht : ∀ c ∈ text, isCalm c = true) (hb : b.escaped = false) :
    (b.past text).escaped = false := by
  induction text generalizing b with
  | nil => exact hb
  | cons c cs ih => exact ih (fun d hd => ht d (by simp [hd])) (escaped_next (ht c (by simp)))

/-! ## No mark begins with one -/

theorem not_atNewline (hc : isCalm c = true) : atNewline (c :: cs) = false := by
  rw [← Bool.not_eq_true]
  intro h
  rcases newline_of_atNewline h with ⟨ds, hds⟩ | ⟨ds, hds⟩
  · exact ne_of_isCalm hc (by decide) (List.cons.inj hds).1
  · exact ne_of_isCalm hc (by decide) (List.cons.inj hds).1

theorem not_atComment (hc : isCalm c = true) : b.atComment (c :: cs) = false := by
  rw [← Bool.not_eq_true]
  intro h
  rcases Bool.or_eq_true .. ▸ h with h | h
  · obtain ⟨ds, hds⟩ := Lookbehind.cons_of_atCommentOpen h
    exact ne_of_isCalm hc (by decide) (List.cons.inj hds).1
  · obtain ⟨ds, hds⟩ := Lookbehind.cons_of_atLineComment h
    exact ne_of_isCalm hc (by decide) (List.cons.inj hds).1

theorem not_endsReplica (hc : isCalm c = true) : b.endsReplica (c :: cs) = false := by
  rw [← Bool.not_eq_true]
  intro h
  simp only [Lookbehind.endsReplica, Bool.or_eq_true] at h
  rcases h with (((h | h) | h) | h) | h
  · obtain ⟨ds, hds⟩ := Lookbehind.cons_of_atReplica h
    exact ne_of_isCalm hc (by decide) (List.cons.inj hds).1
  · obtain ⟨ds, hds⟩ := Lookbehind.cons_of_atTag h
    exact ne_of_isCalm hc (by decide) (List.cons.inj hds).1
  · obtain ⟨ds, hds⟩ := Lookbehind.cons_of_atHeader h
    exact ne_of_isCalm hc (by decide) (List.cons.inj hds).1
  · obtain ⟨d, ds, hd, hds⟩ := Lookbehind.cons_of_atGoto h
    rcases hd with rfl | rfl
    · exact ne_of_isCalm hc (by decide) (List.cons.inj hds).1
    · exact ne_of_isCalm hc (by decide) (List.cons.inj hds).1
  · obtain ⟨ds, hds⟩ := Lookbehind.cons_of_atChoice h
    exact ne_of_isCalm hc (by decide) (List.cons.inj hds).1

/-- A character that does not begin a mark. -/
theorem not_isPrefixOf {m : Char} (ms : List Char) (h : c ≠ m) :
    (m :: ms).isPrefixOf (c :: cs) = false := by
  simp only [List.isPrefixOf_cons_cons, Bool.and_eq_false_iff, beq_eq_false_iff_ne]
  exact .inl h.symm

theorem not_startsToken (hc : isCalm c = true) : b.startsToken (c :: cs) = false := by
  have hbound : boundMark.isPrefixOf (c :: cs) = false :=
    not_isPrefixOf _ (ne_of_isCalm hc (by decide))
  simp only [Lookbehind.startsToken, not_atComment hc, not_endsReplica hc, Lookbehind.atBound,
    hbound, Bool.and_false, Bool.or_false]

theorem not_atInlineCall (hc : isCalm c = true) : b.atInlineCall (c :: cs) = false := by
  have hcall : inlineCallMark.isPrefixOf (c :: cs) = false :=
    not_isPrefixOf _ (ne_of_isCalm hc (by decide))
  simp only [Lookbehind.atInlineCall, hcall, Bool.and_false]

/-! ## Readers -/

/-- Where a stretch of elements ends, there it is cut. -/
theorem span_append {α : Type} {p : α → Bool} {as bs : List α} {b : α} (has : ∀ a ∈ as, p a = true)
    (hb : p b = false) :
    (as ++ b :: bs).takeWhile p = as ∧ (as ++ b :: bs).dropWhile p = b :: bs := by
  rw [List.takeWhile_append_of_pos has, List.dropWhile_append_of_pos has]
  simp [hb]

/-- A reader that need not stop inside a text and has to behind it. -/
theorem readUntil_eq {stop : Lookbehind → List Char → Bool}
    (hgo : ∀ b, ∀ c ∈ text, ∀ cs, stop b (c :: cs) = false)
    (hstop : stop (b.past text) rest = true) : readUntil stop b (text ++ rest) = (text, rest) := by
  induction text generalizing b with
  | nil =>
    cases rest with
    | nil => rfl
    | cons c cs => exact if_pos hstop
  | cons c cs ih =>
    rw [List.cons_append, readUntil, if_neg (by simp [hgo b c (by simp)])]
    rw [ih (fun b d hd => hgo b d (by simp [hd])) hstop]

/-- Calm text up to the end of its line. -/
theorem readText_eq {stop : Lookbehind → List Char → Bool} (ht : ∀ c ∈ text, isCalm c = true)
    (hgo : ∀ b c cs, isCalm c = true → stop b (c :: cs) = false) :
    readText stop none b (text ++ '\n' :: rest) = (text, '\n' :: rest) := by
  induction text generalizing b with
  | nil => rw [List.nil_append, readText, if_pos (by rfl)]
  | cons c cs ih =>
    have hc := ht c (by simp)
    have hl : atLineEnd (c :: (cs ++ '\n' :: rest)) = false := not_atNewline hc
    rw [List.cons_append, readText, if_neg (by simp [hl])]
    simp [not_atInlineCall hc, hgo b c _ hc, ih fun d hd => ht d (by simp [hd])]

/-! ## Margins -/

theorem trimEnd_append (htext : text ≠ []) (h : ∀ c ∈ text, Text.isBlank c = false) :
    Text.trimEnd (cs ++ text) = cs ++ text := by
  obtain ⟨c, ds, hds⟩ : ∃ c ds, text.reverse = c :: ds :=
    List.exists_cons_of_ne_nil (by simpa using htext)
  have hc : Text.isBlank c = false := h c (by rw [← List.mem_reverse, hds]; simp)
  have hrev : (cs ++ text).reverse.dropWhile Text.isBlank = (cs ++ text).reverse := by
    rw [List.reverse_append, hds, List.cons_append, List.dropWhile_cons_of_neg (by simp [hc])]
  rw [Text.trimEnd, hrev, List.reverse_reverse]

theorem trailing_eq_nil (h : Text.trimEnd cs = cs) : Text.trailing cs = [] := by
  have hparts := Text.trimEnd_append_trailing cs
  rw [h] at hparts
  exact List.append_right_eq_self.1 hparts

theorem leading_eq_nil (h : Text.trimStart cs = cs) : Text.leading cs = [] := by
  have hparts := Text.leading_append_trimStart cs
  rw [h] at hparts
  exact List.append_left_eq_self.1 hparts

theorem trimStart_eq (h : ∀ c ∈ text, Text.isBlank c = false) : Text.trimStart text = text := by
  cases text with
  | nil => rfl
  | cons c cs => exact List.dropWhile_cons_of_neg (by simp [h c (by simp)])

/-! ## Words -/

namespace Word

variable (w : Word)

theorem isCalm_of_mem : ∀ c ∈ w.chars, isCalm c = true :=
  fun c hc => isCalm_of_isAlphanum (w.alphanumeric c hc)

theorem not_isBlank_of_mem : ∀ c ∈ w.chars, Text.isBlank c = false :=
  fun c hc => not_isBlank_of_isAlphanum (w.alphanumeric c hc)

theorem exists_cons : ∃ c cs, w.chars = c :: cs ∧ c.isAlphanum = true := by
  obtain ⟨c, cs, hw⟩ := List.exists_cons_of_ne_nil w.ne_nil
  exact ⟨c, cs, hw, w.alphanumeric c (by simp [hw])⟩

theorem not_allBlank (cs : List Char) : Text.allBlank (cs ++ w.chars) = false := by
  obtain ⟨c, ds, hw, hc⟩ := w.exists_cons
  simp [Text.allBlank, hw, not_isBlank_of_isAlphanum hc]

theorem trimEnd_eq (cs : List Char) : Text.trimEnd (cs ++ w.chars) = cs ++ w.chars :=
  trimEnd_append w.ne_nil w.not_isBlank_of_mem

theorem trim_eq : Text.trim w.chars = w.chars := by
  rw [Text.trim, trimStart_eq w.not_isBlank_of_mem]
  exact w.trimEnd_eq []

end Word

namespace Phrase

variable (p : Phrase)

theorem isCalm_of_mem : ∀ c ∈ p.chars, isCalm c = true := by
  intro c hc
  rcases List.mem_append.1 hc with hc | hc
  · exact p.first.isCalm_of_mem c hc
  · obtain ⟨w, -, hw⟩ := List.mem_flatMap.1 hc
    rcases List.mem_cons.1 hw with rfl | hw
    · rfl
    · exact w.isCalm_of_mem c hw

theorem exists_cons : ∃ c cs, p.chars = c :: cs ∧ c.isAlphanum = true := by
  obtain ⟨c, cs, hw, hc⟩ := p.first.exists_cons
  exact ⟨c, _, by rw [chars, hw]; rfl, hc⟩

/-- A phrase ends with a word. -/
theorem exists_append : ∃ (cs : List Char) (w : Word), p.chars = cs ++ w.chars := by
  obtain ⟨first, others⟩ := p
  rcases List.eq_nil_or_concat others with rfl | ⟨ws, w, rfl⟩
  · exact ⟨[], first, by simp [chars]⟩
  · exact ⟨first.chars ++ ws.flatMap (' ' :: ·.chars) ++ [' '], w, by simp [chars]⟩

theorem trimEnd_eq (cs : List Char) : Text.trimEnd (cs ++ p.chars) = cs ++ p.chars := by
  obtain ⟨ds, w, hp⟩ := p.exists_append
  rw [hp, ← List.append_assoc]
  exact w.trimEnd_eq (cs ++ ds)

theorem not_allBlank (cs : List Char) : Text.allBlank (cs ++ p.chars) = false := by
  obtain ⟨ds, w, hp⟩ := p.exists_append
  rw [hp, ← List.append_assoc]
  exact w.not_allBlank (cs ++ ds)

end Phrase

end StoryScript.Canonical

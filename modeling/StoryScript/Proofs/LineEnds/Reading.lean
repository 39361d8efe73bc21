import StoryScript.Proofs.Token.Units
/-!
# Text with carriage returns at its line ends

A text can end its lines with a line feed alone or with a carriage return before it (`withReturns`).
What is known of the text before a place is the same either way, every mark is found at the same
places, and every reader takes the same text and leaves the same lines.
-/

namespace StoryScript

/-- A text with a carriage return before each line feed. -/
def withReturns (cs : List Char) : List Char :=
  cs.flatMap fun c => if c = '\n' then ['\r', '\n'] else [c]

/-- No carriage return is in the text. -/
def NoReturns (cs : List Char) : Prop := '\r' ∉ cs

theorem NoReturns.tail {c : Char} {cs : List Char} (h : NoReturns (c :: cs)) : NoReturns cs :=
  fun hr => h (List.mem_cons_of_mem c hr)

@[simp] theorem withReturns_nil : withReturns [] = [] := rfl

@[simp] theorem withReturns_newline (cs : List Char) :
    withReturns ('\n' :: cs) = '\r' :: '\n' :: withReturns cs := rfl

theorem withReturns_cons {c : Char} (h : c ≠ '\n') (cs : List Char) :
    withReturns (c :: cs) = c :: withReturns cs := by
  simp [withReturns, h]

@[simp] theorem withReturns_append (as bs : List Char) :
    withReturns (as ++ bs) = withReturns as ++ withReturns bs := List.flatMap_append

theorem withReturns_of_inLine {cs : List Char} (h : InLine cs) : withReturns cs = cs := by
  induction cs with
  | nil => rfl
  | cons c cs ih =>
    have hc : '\n' ≠ c := List.ne_of_not_mem_cons h
    rw [withReturns_cons hc.symm, ih (List.not_mem_of_not_mem_cons h)]

theorem withReturns_eq_nil {cs : List Char} : withReturns cs = [] ↔ cs = [] := by
  refine ⟨fun h => ?_, fun h => by rw [h, withReturns_nil]⟩
  cases cs with
  | nil => rfl
  | cons c cs =>
    by_cases hc : c = '\n'
    · subst hc
      cases h
    · rw [withReturns_cons hc] at h
      cases h

/-! ## What a place looks like -/

/-- A carriage return before a line feed leaves no trace. -/
@[simp] theorem Lookbehind.past_withReturns (b : Lookbehind) (cs : List Char) :
    b.past (withReturns cs) = b.past cs := by
  induction cs generalizing b with
  | nil => rfl
  | cons c cs ih =>
    by_cases hc : c = '\n'
    · subst hc
      rw [withReturns_newline, past_cons, past_cons, ih, past_cons]
      rfl
    · rw [withReturns_cons hc, past_cons, past_cons, ih]

@[simp] theorem atSeparator_withReturns (cs : List Char) :
    atSeparator (withReturns cs) = atSeparator cs := by
  cases cs with
  | nil => rfl
  | cons c cs =>
    by_cases hc : c = '\n'
    · subst hc
      rfl
    · rw [withReturns_cons hc]
      rfl

theorem atNewline_withReturns {cs : List Char} (h : NoReturns cs) :
    atNewline (withReturns cs) = atNewline cs := by
  cases cs with
  | nil => rfl
  | cons c cs =>
    by_cases hc : c = '\n'
    · subst hc
      rfl
    · have hr : c ≠ '\r' := fun he => h (he ▸ List.mem_cons_self)
      have hnot : ∀ ds, atNewline (c :: ds) = false := by
        intro ds
        unfold atNewline
        split <;> simp_all
      rw [withReturns_cons hc, hnot, hnot]

theorem atLineEnd_withReturns {cs : List Char} (h : NoReturns cs) :
    atLineEnd (withReturns cs) = atLineEnd cs := by
  cases cs with
  | nil => rfl
  | cons c cs =>
    have hnew := atNewline_withReturns h
    by_cases hc : c = '\n'
    · subst hc
      rfl
    · rw [withReturns_cons hc] at hnew ⊢
      exact hnew

theorem endsName_withReturns {cs : List Char} (h : NoReturns cs) :
    Lexer.State.endsName (withReturns cs) = Lexer.State.endsName cs := by
  unfold Lexer.State.endsName
  rw [atLineEnd_withReturns h]
  cases cs with
  | nil => rfl
  | cons c cs =>
    by_cases hc : c = '\n'
    · subst hc
      rfl
    · rw [withReturns_cons hc]
      rfl

/-! ## Marks -/

/-- The marks are made of characters that end no line. -/
theorem append_of_withReturns {mark cs ds : List Char} (hn : '\n' ∉ mark) (hr : '\r' ∉ mark)
    (h : withReturns cs = mark ++ ds) : ∃ es, cs = mark ++ es ∧ ds = withReturns es := by
  induction mark generalizing cs with
  | nil => exact ⟨cs, rfl, h.symm⟩
  | cons m mark ih =>
    cases cs with
    | nil => cases h
    | cons c cs =>
      by_cases hc : c = '\n'
      · subst hc
        exact absurd (List.cons.inj h).1 (List.ne_of_not_mem_cons hr)
      · rw [withReturns_cons hc] at h
        obtain ⟨rfl, htail⟩ := List.cons.inj h
        obtain ⟨es, rfl, rfl⟩ := ih (List.not_mem_of_not_mem_cons hn)
          (List.not_mem_of_not_mem_cons hr) htail
        exact ⟨es, rfl, rfl⟩

/-- The same marks stand in a text and in the text with returns at its line ends. -/
theorem keepsMarks_withReturns : KeepsMarks fun cs fs => NoReturns cs ∧ fs = withReturns cs where
  left mark h hm hcs := by
    obtain ⟨hn, rfl⟩ := h
    rw [hcs] at hn ⊢
    refine ⟨_, ?_, fun hr => hn (List.mem_append_right _ hr), rfl⟩
    rw [withReturns_append, withReturns_of_inLine hm.1]
  right mark h hm hds := by
    obtain ⟨hn, rfl⟩ := h
    obtain ⟨es, hcs, rfl⟩ := append_of_withReturns hm.1 hm.2 hds
    exact ⟨es, hcs, fun hr => hn (hcs ▸ List.mem_append_right _ hr), rfl⟩
  atSeparator h := by
    obtain ⟨-, rfl⟩ := h
    exact atSeparator_withReturns _

theorem alike_withReturns {cs : List Char} (h : NoReturns cs) : Alike cs (withReturns cs) :=
  keepsMarks_withReturns.alike ⟨h, rfl⟩

/-! ## Readers -/

theorem takeWhile_spacers_withReturns (cs : List Char) :
    (withReturns cs).takeWhile isSpacer = cs.takeWhile isSpacer := by
  induction cs with
  | nil => rfl
  | cons c cs ih =>
    by_cases hc : c = '\n'
    · subst hc
      rfl
    · rw [withReturns_cons hc, List.takeWhile_cons, List.takeWhile_cons, ih]

theorem dropWhile_spacers_withReturns (cs : List Char) :
    (withReturns cs).dropWhile isSpacer = withReturns (cs.dropWhile isSpacer) := by
  induction cs with
  | nil => rfl
  | cons c cs ih =>
    by_cases hc : c = '\n'
    · subst hc
      rfl
    · rw [withReturns_cons hc, List.dropWhile_cons, List.dropWhile_cons]
      split
      · exact ih
      · rw [withReturns_cons hc]

theorem readUntil_withReturns {stop : Lookbehind → List Char → Bool}
    (hs : ∀ b cs, NoReturns cs → stop b (withReturns cs) = stop b cs)
    (hn : ∀ b cs, stop b ('\n' :: cs) = true) (b : Lookbehind) {cs : List Char} (h : NoReturns cs) :
    readUntil stop b (withReturns cs) =
      ((readUntil stop b cs).1, withReturns (readUntil stop b cs).2) := by
  induction cs generalizing b with
  | nil => rfl
  | cons c cs ih =>
    have hstop := hs b (c :: cs) h
    by_cases hc : c = '\n'
    · -- one text stops before the carriage return, the other before the line feed
      subst hc
      rw [hn b cs, withReturns_newline] at hstop
      rw [withReturns_newline, readUntil, if_pos hstop, readUntil, if_pos (hn b cs)]
      rfl
    · rw [withReturns_cons hc] at hstop
      rw [withReturns_cons hc, readUntil, readUntil, hstop, ih (b.next c) h.tail]
      split
      · rw [withReturns_cons hc]
      · rfl

theorem readText_withReturns {stop : Lookbehind → List Char → Bool}
    (hs : ∀ b cs, NoReturns cs → stop b (withReturns cs) = stop b cs) (nesting : Option CallNesting)
    (b : Lookbehind) {cs : List Char} (h : NoReturns cs) :
    readText stop nesting b (withReturns cs) =
      ((readText stop nesting b cs).1, withReturns (readText stop nesting b cs).2) := by
  induction cs generalizing nesting b with
  | nil => cases nesting <;> rfl
  | cons c cs ih =>
    have hend := atLineEnd_withReturns h
    have hcall := (alike_withReturns h).atInlineCall b
    have hstop := hs b (c :: cs) h
    by_cases hc : c = '\n'
    · subst hc
      cases nesting <;> rfl
    · rw [withReturns_cons hc] at hend hcall hstop
      rw [withReturns_cons hc]
      cases nesting with
      | none =>
        rw [readText, readText, hend, hcall, hstop, ih _ _ h.tail, ih _ _ h.tail]
        repeat' split
        all_goals first
          | rw [withReturns_cons hc]
          | rfl
      | some n =>
        rw [readText, readText, hend, ih _ _ h.tail]
        split
        · rw [withReturns_cons hc]
        · rfl

/-- The same list, with returns in what it leaves. -/
def ArgumentList.withReturns (l : ArgumentList) : ArgumentList :=
  { l with rest := StoryScript.withReturns l.rest }

theorem readArguments_withReturns (depth : Nat) (quoted : Bool) (b : Lookbehind) {cs : List Char}
    (h : NoReturns cs) :
    readArguments depth quoted b (withReturns cs) = (readArguments depth quoted b cs).withReturns := by
  induction cs generalizing depth quoted b with
  | nil => rfl
  | cons c cs ih =>
    have hend := atLineEnd_withReturns h
    by_cases hc : c = '\n'
    · subst hc
      rfl
    · have hrest : withReturns (c :: cs) = c :: withReturns cs := withReturns_cons hc cs
      rw [hrest] at hend
      rw [hrest, readArguments, readArguments, hend]
      simp only [ih _ _ _ h.tail]
      repeat' split
      all_goals first
        | rfl
        | simp only [ArgumentList.withReturns, hrest]

end StoryScript

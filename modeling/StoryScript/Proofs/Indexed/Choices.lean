import StoryScript.Proofs.Indexed.Segments
import StoryScript.Proofs.Story.Items
/-!
# Choices by index

The text of a choice and the bounds of its body are found by index. A body runs from behind its indent
up to the dedent that matches it, or up to the stop; the levels that are open on the way are counted,
and the count starts at an indent, so no dedent leaves more than was entered.
-/

namespace StoryScript.Indexed

open Token (Kind)

variable {tokens ts : List Token} {t : Token} {i j k stop : Nat}

/-! ## The text of a choice -/

/-- The text of a choice as it was read, and the index behind it. -/
structure ChoiceTextRead where
  inlineText : Option String := none
  blockText : Option String := none
  map : TextMap
  diagnostics : List Diagnostic := []
  next : Nat

/-- The text between bounds from an index on, glued behind `m`, and whether a bound closes it. -/
def blockTextFrom (tokens : List Token) (stop j : Nat) (m : TextMap) :
    Guarded (TextMap × Bool × Nat) := do
  match _h : kindAt tokens j stop with
  | some (.choiceBound false) => return (m, true, j + 1)
  | some (.choiceText text) =>
    let t ← tokenAt tokens j
    blockTextFrom tokens stop (j + 1) (m.push text.toList t.span.start)
  | some kind =>
    if kind.isTrivia then
      match kind.value with
      | some text =>
        let t ← tokenAt tokens j
        blockTextFrom tokens stop (j + 1) (m.push text.toList t.span.start)
      | none => blockTextFrom tokens stop (j + 1) m
    else return (m, false, j)
  | none => return (m, false, j)
termination_by stop - j
decreasing_by all_goals exact sub_lt_of_kindAt _h

/-- The text on the line of a choice, from behind its silent bound. -/
def inlineTextAt (tokens : List Token) (stop j : Nat) (m : TextMap) :
    Guarded (Option String × TextMap × Nat) := do
  match kindAt tokens j stop with
  | some (.choiceText text) =>
    let t ← tokenAt tokens j
    return (some text, m.push text.toList t.span.start, j + 1)
  | _ => return (none, m, j)

/-- The text of the choice at an index. -/
def choiceTextAt (tokens : List Token) (i stop : Nat) : Guarded ChoiceTextRead := do
  let t ← tokenAt tokens i
  let m : TextMap := { origin := t.span.stop }
  match kindAt tokens (i + 1) stop with
  | some (.choiceBound true) =>
    let (text, m, j) ← inlineTextAt tokens stop (i + 2) m
    let next := if kindAt tokens j stop = some (.choiceBound true) then j + 1 else j
    return { inlineText := text, map := m, next }
  | some (.choiceBound false) =>
    let bound ← tokenAt tokens (i + 1)
    let (m, closed, next) ← blockTextFrom tokens stop (i + 2) m
    return { blockText := some (String.ofList m.text), map := m, next
             diagnostics := if closed then [] else [⟨.openChoiceText, bound.span⟩] }
  | _ => return { map := m, next := i + 1 }

/-- Whether a bound closes a text that ends before `ts`, and what is left behind it. -/
def closeText : List Token → Bool × List Token
  | ⟨.choiceBound false, _⟩ :: rest => (true, rest)
  | rest => (false, rest)

/-- A token that has a text is glued on. -/
theorem At.blockTextFrom_run (h : At tokens j stop (t :: ts)) {r : Run} (hr : t.blockRun? = some r)
    (m : TextMap) : blockTextFrom tokens stop j m =
      blockTextFrom tokens stop (j + 1) (m.push r.text r.start) := by
  obtain ⟨kind, span⟩ := t
  rw [blockTextFrom, h.kindAt_cons]
  cases kind <;> cases hr <;> exact congrArg (· >>= _) h.tokenAt_eq

/-- Any other token ends the text. -/
theorem At.blockTextFrom_end (h : At tokens j stop ts)
    (hts : ∀ t ∈ ts.head?, t.blockRun? = none) (m : TextMap) :
    ∃ next, blockTextFrom tokens stop j m = pure (m, (closeText ts).1, next) ∧
      At tokens next stop (closeText ts).2 := by
  rw [blockTextFrom, h.kindAt_eq]
  cases ts with
  | nil => exact ⟨j, rfl, h⟩
  | cons t ts =>
    obtain ⟨kind, span⟩ := t
    have hnone := hts _ rfl
    cases kind with
    | choiceBound silent =>
      cases silent
      · exact ⟨j + 1, rfl, h.tail⟩
      · exact ⟨j, rfl, h⟩
    | choiceText text => cases hnone
    | newline => cases hnone
    | comment text => cases hnone
    | commentText text => cases hnone
    | commentOpen => cases hnone
    | commentClose => cases hnone
    | _ => exact ⟨j, rfl, h⟩

theorem At.blockTextFrom_eq (h : At tokens j stop ts) {m : TextMap} {runs : List Run}
    (hm : Maps m runs) :
    ∃ m' next, blockTextFrom tokens stop j m =
        pure (m', (closeText (ts.dropWhile (·.blockRun?.isSome))).1, next) ∧
      Maps m' (runs ++ (ts.takeWhile (·.blockRun?.isSome)).filterMap Token.blockRun?) ∧
      At tokens next stop (closeText (ts.dropWhile (·.blockRun?.isSome))).2 := by
  induction ts generalizing j m runs with
  | nil =>
    obtain ⟨next, hrun, hat⟩ := h.blockTextFrom_end nofun m
    exact ⟨m, next, hrun, by simpa using hm, hat⟩
  | cons u us ih =>
    cases hu : u.blockRun? with
    | none =>
      obtain ⟨next, hrun, hat⟩ := h.blockTextFrom_end (by rintro _ ⟨⟩; exact hu) m
      rw [List.dropWhile_cons_of_neg (by simp [hu]), List.takeWhile_cons_of_neg (by simp [hu])]
      exact ⟨m, next, hrun, by simpa using hm, hat⟩
    | some r =>
      obtain ⟨m', next, hrun, hmaps, hat⟩ := ih h.tail (hm.push r.text r.start)
      rw [h.blockTextFrom_run hu, List.dropWhile_cons_of_pos (by simp [hu]),
        List.takeWhile_cons_of_pos (by simp [hu]), List.filterMap_cons_some hu, List.append_cons]
      exact ⟨m', next, hrun, hmaps, hat⟩

/-- What was read is what the text of a choice is, and the next index is that of the tokens left. -/
def ReadsText (tokens : List Token) (stop : Nat) (x : Guarded ChoiceTextRead) (text : ChoiceText) :
    Prop :=
  ∃ m next, x = pure { inlineText := text.inlineText, blockText := text.blockText, map := m
                       diagnostics := text.diagnostics, next } ∧
    Maps m text.runs ∧ At tokens next stop text.rest

theorem At.silentBound (h : At tokens j stop ts) :
    At tokens (if kindAt tokens j stop = some (.choiceBound true) then j + 1 else j) stop
      (readSilentBound ts).2 := by
  rw [h.kindAt_eq]
  cases ts with
  | nil => exact h
  | cons u us =>
    obtain ⟨kind, span⟩ := u
    by_cases hbound : kind = .choiceBound true
    · subst hbound
      exact h.tail
    · rw [if_neg (by simpa using hbound), readSilentBound]
      · exact h
      · rintro _ _ ⟨⟩
        exact hbound rfl

theorem At.readsText_inline (h : At tokens j stop ts) {m : TextMap} (hm : Maps m []) (bound : Token) :
    ReadsText tokens stop (do
      let (text, m, j) ← inlineTextAt tokens stop j m
      let next := if kindAt tokens j stop = some (.choiceBound true) then j + 1 else j
      return { inlineText := text, map := m, next }) (readInlineText bound ts) := by
  rw [inlineTextAt, h.kindAt_eq]
  cases ts with
  | nil => exact ⟨m, _, rfl, hm, h.silentBound⟩
  | cons u us =>
    obtain ⟨kind, span⟩ := u
    cases kind with
    | choiceText text =>
      dsimp only [List.head?_cons, Option.map_some]
      rw [h.tokenAt_eq, pure_bind]
      exact ⟨_, _, rfl, hm.push _ _, h.tail.silentBound⟩
    | _ => exact ⟨m, _, rfl, hm, h.silentBound⟩

theorem readBlockText_eq (bound : Token) (ts : List Token) :
    ∃ taken, readBlockText bound ts = {
      blockText := some (String.ofList
        (Run.glued ((ts.takeWhile (·.blockRun?.isSome)).filterMap Token.blockRun?)))
      runs := (ts.takeWhile (·.blockRun?.isSome)).filterMap Token.blockRun?
      diagnostics := if (closeText (ts.dropWhile (·.blockRun?.isSome))).1 then []
        else [⟨.openChoiceText, bound.span⟩]
      taken := taken
      rest := (closeText (ts.dropWhile (·.blockRun?.isSome))).2 } := by
  unfold readBlockText
  dsimp only
  split
  · next span rest hrest =>
    rw [hrest]
    exact ⟨_, rfl⟩
  · next hrest =>
    rw [closeText]
    · exact ⟨_, rfl⟩
    · exact hrest

theorem At.readsText_block (h : At tokens j stop ts) {m : TextMap} (hm : Maps m []) (bound : Token) :
    ReadsText tokens stop (do
      let (m, closed, next) ← blockTextFrom tokens stop j m
      return { blockText := some (String.ofList m.text), map := m, next
               diagnostics := if closed then [] else [⟨.openChoiceText, bound.span⟩] })
      (readBlockText bound ts) := by
  obtain ⟨m', next, hrun, hmaps, hat⟩ := h.blockTextFrom_eq hm
  obtain ⟨taken, htext⟩ := readBlockText_eq bound ts
  rw [List.nil_append] at hmaps
  rw [hrun, pure_bind, htext, ← hmaps.text_eq]
  exact ⟨m', next, rfl, hmaps, hat⟩

theorem At.choiceTextAt_eq (h : At tokens i stop (t :: ts)) :
    ReadsText tokens stop (choiceTextAt tokens i stop) (readChoiceText ts) := by
  have htail := h.tail
  have hm := maps_nil t.span.stop
  rw [choiceTextAt, h.tokenAt_eq, pure_bind, htail.kindAt_eq]
  cases ts with
  | nil => exact ⟨_, _, rfl, hm, htail⟩
  | cons u us =>
    obtain ⟨kind, span⟩ := u
    cases kind with
    | choiceBound silent =>
      cases silent with
      | true => exact htail.tail.readsText_inline hm _
      | false =>
        dsimp only [List.head?_cons, Option.map_some]
        rw [htail.tokenAt_eq, pure_bind]
        exact htail.tail.readsText_block hm _
    | _ => exact ⟨_, _, rfl, hm, htail⟩

/-! ## The body of a choice -/

/-- The first index from `k` on that no trivia stands at. -/
def skipTrivia (tokens : List Token) (stop k : Nat) : Nat :=
  if (kindAt tokens k stop).any Kind.isTrivia then skipTrivia tokens stop (k + 1) else k
termination_by stop - k
decreasing_by
  next h =>
    cases hkind : kindAt tokens k stop with
    | none =>
      rw [hkind] at h
      cases h
    | some kind => exact sub_lt_of_kindAt hkind

/-- The index of the dedent that leaves the last of `depth` levels, or the stop. -/
def closingFrom (stop : Nat) : List Token → Nat → Nat → Guarded Nat
  | [], _, _ => return stop
  | t :: ts, i, depth =>
    match t.kind with
    | .indent => closingFrom stop ts (i + 1) (depth + 1)
    | .dedent =>
      if depth = 0 then throw .level
      else if depth = 1 then return i
      else closingFrom stop ts (i + 1) (depth - 1)
    | _ => closingFrom stop ts (i + 1) depth

/-- The index of the dedent that matches the indent at an index, or the stop. -/
def matchingDedent (tokens : List Token) (indent stop : Nat) : Guarded Nat := do
  closingFrom stop (← window tokens indent stop) indent 0

/-- A dedent on its own matches nothing. -/
example (span : Span) : matchingDedent [⟨.dedent, span⟩] 0 1 = throw .level := rfl

/-- From the first to the last solid token of a window, if the window lies in the tokens. -/
def extentAt (tokens : List Token) (start stop : Nat) : Option Span :=
  if start ≤ stop ∧ stop ≤ tokens.length then Token.extent ((tokens.take stop).drop start) else none

theorem At.extentAt_eq (h : At tokens i stop ts) : extentAt tokens i stop = Token.extent ts := by
  rw [extentAt, if_pos ⟨h.le, h.le_length⟩, h.drop_take]

theorem At.behindTrivia (h : At tokens k stop ts) :
    At tokens (skipTrivia tokens stop k) stop (ts.dropWhile (·.isTrivia)) := by
  induction ts generalizing k with
  | nil =>
    rw [skipTrivia, h.kindAt_eq]
    exact h
  | cons u us ih =>
    rw [skipTrivia, h.kindAt_eq, List.head?_cons, Option.map_some, Option.any_some]
    by_cases hu : u.kind.isTrivia
    · rw [List.dropWhile_cons_of_pos (by exact hu), if_pos hu]
      exact ih h.tail
    · rw [List.dropWhile_cons_of_neg (by exact hu), if_neg hu]
      exact h

/-- Inside a body some level is open, so the count never falls below zero. -/
theorem closingFrom_eq (ts : List Token) (i depth : Nat) (hstop : i + ts.length = stop) :
    closingFrom stop ts i (depth + 1) = pure (i + (readBody (depth + 1) ts).1.length) := by
  induction ts generalizing i depth with
  | nil =>
    rw [closingFrom, ← hstop]
    rfl
  | cons t ts ih =>
    have hgo : ∀ d, closingFrom stop ts (i + 1) (d + 1) =
        pure (i + ((readBody (d + 1) ts).1.length + 1)) := by
      intro d
      rw [ih (i + 1) d (by rw [← hstop, List.length_cons]; omega), Nat.add_right_comm, Nat.add_assoc]
    obtain ⟨kind, span⟩ := t
    cases kind with
    | indent => exact hgo (depth + 1)
    | dedent =>
      cases depth with
      | zero => rfl
      | succ depth => exact hgo depth
    | _ => exact hgo depth

/-- The body behind an indent ends where its dedent is found. -/
theorem At.matchingDedent_eq {span : Span} (h : At tokens k stop (⟨.indent, span⟩ :: ts)) :
    matchingDedent tokens k stop = pure (k + 1 + (readBody 1 ts).1.length) := by
  have hstop : k + 1 + ts.length = stop := h.tail.add_length
  rw [matchingDedent, h.window_eq, pure_bind]
  exact closingFrom_eq ts (k + 1) 0 hstop

/-- The window of a body, and the index behind the dedent that ends it. -/
theorem At.body (h : At tokens k stop ts) :
    At tokens k (k + (readBody 1 ts).1.length) (readBody 1 ts).1 ∧
      At tokens (min (k + (readBody 1 ts).1.length + 1) stop) stop (readBody 1 ts).2 := by
  rcases readBody_append 1 ts with ⟨hinside, hrest⟩ | ⟨span, hsplit⟩
  · have hstop := h.add_length
    have hnil := (show At tokens k stop (ts ++ []) by rwa [List.append_nil]).of_append_right
    rw [hstop] at hnil
    rw [hrest, ← hinside, hstop, min_eq_right (Nat.le_succ stop)]
    exact ⟨h, hnil⟩
  · generalize readBody 1 ts = body at hsplit ⊢
    subst hsplit
    have hrest := h.of_append_right.tail
    rw [min_eq_left hrest.le]
    exact ⟨h.of_append_left, hrest⟩

end StoryScript.Indexed

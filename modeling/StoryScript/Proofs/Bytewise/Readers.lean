import Mathlib.Data.List.Induction
import StoryScript.Proofs.Indexed.Guarded
import StoryScript.Proofs.Token.Reading
/-!
# Reading a source by bytes

A source can be read with a cursor that counts bytes, lines and columns. What stands before the
cursor and behind it is then cut out of the source by its bytes each time it is looked at, and loops
look for the end of what they read. `Stands` says which place of a source a position is. From it
follows that no cut fails, that no loop takes a turn without reading something, and that each reader
by bytes reads what the reader by characters reads.
-/

namespace StoryScript

/-! ## Inline calls -/

/-- What is copied of an inline call up to its brace or the end of the line, and whether that was
the brace. -/
def scanCall : CallNesting → Lookbehind → List Char → List Char × Bool
  | _, _, [] => ([], false)
  | n, b, c :: cs =>
    if atLineEnd (c :: cs) then ([], false)
    else
      match n.next b.escaped c with
      | none => ([c], true)
      | some n =>
        let r := scanCall n (b.next c) cs
        (c :: r.1, r.2)

section
variable {n : CallNesting} {b : Lookbehind} {cs : List Char}

/-- A call that is not closed is copied to the end of its line. -/
theorem scanCall_append (n : CallNesting) (b : Lookbehind) (cs : List Char) :
    ∃ left, cs = (scanCall n b cs).1 ++ left ∧
      ((scanCall n b cs).2 = false → atLineEnd left = true) := by
  induction cs generalizing n b with
  | nil => exact ⟨[], rfl, fun _ => rfl⟩
  | cons c cs ih =>
    rw [scanCall]
    split
    · next hl => exact ⟨c :: cs, rfl, fun _ => hl⟩
    · split
      · exact ⟨cs, rfl, nofun⟩
      · next n' _ =>
        obtain ⟨left, hleft, hend⟩ := ih n' (b.next c)
        exact ⟨left, congrArg (c :: ·) hleft, hend⟩

/-- A reader of text copies a call and goes on outside of it. -/
theorem readText_scanCall (stop : Lookbehind → List Char → Bool) {left : List Char}
    (h : cs = (scanCall n b cs).1 ++ left) :
    readText stop (some n) b cs =
      ((scanCall n b cs).1 ++ (readText stop none (b.past (scanCall n b cs).1) left).1,
        (readText stop none (b.past (scanCall n b cs).1) left).2) := by
  induction cs generalizing n b with
  | nil =>
    obtain rfl : left = [] := by simpa [scanCall] using h.symm
    rfl
  | cons c cs ih =>
    rw [scanCall] at h ⊢
    rw [readText]
    split
    · next hl =>
      rw [if_pos hl] at h
      obtain rfl : c :: cs = left := h
      rw [List.nil_append, Lookbehind.past_nil, readText, if_pos hl]
    · next hl =>
      rw [if_neg hl] at h
      cases hn : n.next b.escaped c with
      | none =>
        rw [hn] at h
        obtain rfl : cs = left := (List.cons.inj h).2
        rfl
      | some n' =>
        rw [hn] at h
        dsimp only
        rw [ih (List.cons.inj h).2]
        rfl

end

/-- A letter of a mark does not end a call and nests nothing. -/
theorem readText_letter (stop : Lookbehind → List Char → Bool) {b : Lookbehind} {c : Char}
    (hc : c ∈ inlineCallMark.drop 1) (hb : b.escaped = false) (cs : List Char) :
    readText stop (some {}) b (c :: cs) =
      (c :: (readText stop (some {}) (b.next c) cs).1,
        (readText stop (some {}) (b.next c) cs).2) := by
  have hletter : c ∈ ['c', 'a', 'l', 'l', ':'] := hc
  have hplain : atLineEnd (c :: cs) = false ∧ CallNesting.next {} false c = some {} := by
    simp only [List.mem_cons, List.not_mem_nil, or_false] at hletter
    rcases hletter with rfl | rfl | rfl | rfl | rfl
    all_goals exact ⟨rfl, rfl⟩
  rw [readText, hplain.1, if_neg Bool.false_ne_true, hb, hplain.2]

/-- A call is entered at its brace. -/
theorem readText_mark (stop : Lookbehind → List Char → Bool) {b : Lookbehind} {cs : List Char}
    (hb : b.atInlineCall (inlineCallMark ++ cs) = true) :
    readText stop none b (inlineCallMark ++ cs) =
      (inlineCallMark ++
        (readText stop (some {}) (b.past inlineCallMark) cs).1,
        (readText stop (some {}) (b.past inlineCallMark) cs).2) := by
  have hmark : inlineCallMark ++ cs = '{' :: 'c' :: 'a' :: 'l' :: 'l' :: ':' :: cs := rfl
  rw [hmark] at hb ⊢
  have hl : ¬atLineEnd ('{' :: 'c' :: 'a' :: 'l' :: 'l' :: ':' :: cs) = true := Bool.false_ne_true
  rw [readText, if_neg hl]
  dsimp only
  rw [if_pos hb]
  iterate 5 rw [readText_letter stop (by decide) rfl]
  rfl

namespace Bytewise

open Indexed (Guarded sliceText length_le_utf8Len)
open String (utf8Len utf8Len_append)

/-! ## Looking around -/

/-- What stands from a position on. -/
def restAt (text : List Char) (p : Position) : Guarded (List Char) :=
  sliceText text p.offset (utf8Len text)

/-- The character at a position. -/
def peek (text : List Char) (p : Position) : Guarded (Option Char) := do
  return (← restAt text p).head?

/-- What stands before a position: the last character, and the last line as far as it has come. -/
def lookbehindAt (text : List Char) (p : Position) : Guarded Lookbehind := do
  let past ← sliceText text 0 p.offset
  return ⟨past.getLast? == some '\\', (past.reverse.takeWhile (· != '\n')).all isSpacer⟩

/-- Whether a position satisfies a test. -/
def sees (text : List Char) (test : Lookbehind → List Char → Bool) (p : Position) :
    Guarded Bool := do
  return test (← lookbehindAt text p) (← restAt text p)

/-- The character at a position, and the position behind it. There has to be one. -/
def advance (text : List Char) (p : Position) : Guarded (Char × Position) := do
  match ← peek text p with
  | none => throw .turns
  | some c => return (c, p.next c)

/-- As many characters as are asked for, and the position behind them. -/
def advanceBy (text : List Char) : (n : Nat) → (p : Position) → Guarded (List Char × Position)
  | 0, p => return ([], p)
  | n + 1, p => do
    let head ← advance text p
    let tail ← advanceBy text n head.2
    return (head.1 :: tail.1, tail.2)

/-! ## Loops

Each turn of a loop advances or is the last. -/

/-- Read up to the first place that satisfies `stop`, in a number of turns. -/
def readToWithin (text : List Char) (stop : Lookbehind → List Char → Bool) :
    (turns : Nat) → (p : Position) → Guarded (List Char × Position)
  | 0, _ => throw .turns
  | turns + 1, p => do
    if (← peek text p).isNone || (← sees text stop p) then return ([], p)
    else
      let head ← advance text p
      let tail ← readToWithin text stop turns head.2
      return (head.1 :: tail.1, tail.2)

/-- Read up to the first place that satisfies `stop`. -/
def readTo (text : List Char) (stop : Lookbehind → List Char → Bool) (p : Position) :
    Guarded (List Char × Position) := readToWithin text stop (utf8Len text + 1) p

/-- Read the rest of an inline call up to its brace or the end of the line, in a number of turns. -/
def readCallWithin (text : List Char) :
    (turns : Nat) → CallNesting → (p : Position) → Guarded (List Char × Position)
  | 0, _, _ => throw .turns
  | turns + 1, nesting, p => do
    if ← sees text (fun _ cs => atLineEnd cs) p then return ([], p)
    else
      let head ← advance text p
      match nesting.next (← lookbehindAt text p).escaped head.1 with
      | none => return ([head.1], head.2)
      | some nesting =>
        let tail ← readCallWithin text turns nesting head.2
        return (head.1 :: tail.1, tail.2)

/-- Read an inline call from its mark on. -/
def readCall (text : List Char) (p : Position) : Guarded (List Char × Position) := do
  let mark ← advanceBy text inlineCallMark.length p
  let inside ← readCallWithin text (utf8Len text + 1) {} mark.2
  return (mark.1 ++ inside.1, inside.2)

/-- Read text with inline calls, in a number of turns, each of which takes a character or a call. -/
def readTextWithin (text : List Char) (stop : Lookbehind → List Char → Bool) :
    (turns : Nat) → (p : Position) → Guarded (List Char × Position)
  | 0, _ => throw .turns
  | turns + 1, p => do
    if ← sees text (fun _ cs => atLineEnd cs) p then return ([], p)
    else if ← sees text Lookbehind.atInlineCall p then
      let call ← readCall text p
      let tail ← readTextWithin text stop turns call.2
      return (call.1 ++ tail.1, tail.2)
    else if ← sees text stop p then return ([], p)
    else
      let head ← advance text p
      let tail ← readTextWithin text stop turns head.2
      return (head.1 :: tail.1, tail.2)

/-- Read text with inline calls up to the end of the line or to a place that satisfies `stop`. -/
def readText (text : List Char) (stop : Lookbehind → List Char → Bool) (p : Position) :
    Guarded (List Char × Position) := readTextWithin text stop (utf8Len text + 1) p

/-! ## Places -/

/-- A position of a text stands before `cs`, and what stands before it looks like `b`. -/
def Stands (text : List Char) (p : Position) (b : Lookbehind) (cs : List Char) : Prop :=
  ∃ past, text = past ++ cs ∧ p = Position.origin.advance past ∧ b = Lookbehind.past {} past

theorem stands_start (text : List Char) : Stands text .origin {} text := ⟨[], rfl, rfl, rfl⟩

/-- What a place looks like can be told from the text before it. -/
theorem past_eq (past : List Char) : Lookbehind.past {} past =
    ⟨past.getLast? == some '\\', (past.reverse.takeWhile (· != '\n')).all isSpacer⟩ := by
  induction past using List.reverseRecOn with
  | nil => rfl
  | append_singleton past c ih =>
    rw [Lookbehind.past_append, ih, Lookbehind.past_cons, Lookbehind.past_nil, Lookbehind.next,
      List.getLast?_concat, List.reverse_concat, List.takeWhile_cons]
    by_cases hc : c = '\n'
    · subst hc
      rfl
    · simp [hc, Bool.and_comm]

namespace Stands

variable {text cs as bs : List Char} {turns : Nat} {p : Position} {b : Lookbehind} {c : Char}

theorem move (h : Stands text p b (as ++ bs)) : Stands text (p.advance as) (b.past as) bs := by
  obtain ⟨past, rfl, rfl, rfl⟩ := h
  exact ⟨past ++ as, by rw [List.append_assoc], (Position.advance_append _ past as).symm,
    (Lookbehind.past_append _ past as).symm⟩

theorem next (h : Stands text p b (c :: cs)) : Stands text (p.next c) (b.next c) cs :=
  move (show Stands text p b ([c] ++ cs) from h)

theorem drop (h : Stands text p b cs) (n : Nat) :
    Stands text (p.advance (cs.take n)) (b.past (cs.take n)) (cs.drop n) :=
  move (by rwa [List.take_append_drop])

/-- Behind what a reader takes. -/
theorem behind (h : Stands text p b cs) (stop : Lookbehind → List Char → Bool) :
    Stands text (p.advance (readUntil stop b cs).1) (b.past (readUntil stop b cs).1)
      (readUntil stop b cs).2 :=
  move (by rwa [readUntil_append])

/-- As many turns as the text has bytes are enough for what is left of it. -/
theorem length_lt (h : Stands text p b cs) : cs.length < utf8Len text + 1 := by
  obtain ⟨past, rfl, -, -⟩ := h
  have := length_le_utf8Len cs
  rw [utf8Len_append]
  omega

theorem slice_eq (h : Stands text p b (as ++ bs)) :
    sliceText text p.offset (p.advance as).offset = pure as := by
  obtain ⟨past, rfl, rfl, -⟩ := h
  rw [← Position.advance_append, Position.offset_origin_advance, Position.offset_origin_advance,
    ← List.append_assoc]
  exact Indexed.sliceText_eq past as bs

theorem restAt_eq (h : Stands text p b cs) : restAt text p = pure cs := by
  obtain ⟨past, rfl, rfl, -⟩ := h
  rw [restAt, Position.offset_origin_advance]
  exact Indexed.sliceText_right past cs

theorem peek_eq (h : Stands text p b cs) : peek text p = pure cs.head? := by
  rw [peek, h.restAt_eq, pure_bind]

theorem lookbehindAt_eq (h : Stands text p b cs) : lookbehindAt text p = pure b := by
  obtain ⟨past, rfl, rfl, rfl⟩ := h
  rw [lookbehindAt, Position.offset_origin_advance, Indexed.sliceText_left, pure_bind, ← past_eq]

theorem sees_eq (h : Stands text p b cs) (test : Lookbehind → List Char → Bool) :
    sees text test p = pure (test b cs) := by
  rw [sees, h.lookbehindAt_eq, pure_bind, h.restAt_eq, pure_bind]

theorem advance_eq (h : Stands text p b (c :: cs)) :
    advance text p = pure (c, p.next c) := by
  rw [advance, h.peek_eq]
  rfl

theorem advanceBy_eq (h : Stands text p b (as ++ bs)) :
    advanceBy text as.length p = pure (as, p.advance as) := by
  induction as generalizing p b with
  | nil => rfl
  | cons c as ih =>
    rw [List.length_cons, advanceBy, h.advance_eq, pure_bind, ih h.next, pure_bind]
    rfl

theorem advanceBy_take (h : Stands text p b cs) {n : Nat} (hn : n ≤ cs.length) :
    advanceBy text n p = pure (cs.take n, p.advance (cs.take n)) := by
  rw [← List.take_append_drop n cs] at h
  have hadvance := h.advanceBy_eq
  rwa [List.length_take_of_le hn] at hadvance

/-! ## What loops read -/

theorem readToWithin_eq (h : Stands text p b cs) (stop : Lookbehind → List Char → Bool)
    (ht : cs.length < turns) :
    readToWithin text stop turns p =
      pure ((readUntil stop b cs).1, p.advance (readUntil stop b cs).1) := by
  induction turns generalizing p b cs with
  | zero => exact absurd ht (Nat.not_lt_zero _)
  | succ turns ih =>
    rw [readToWithin, h.peek_eq, pure_bind, h.sees_eq, pure_bind]
    cases cs with
    | nil => rfl
    | cons c cs =>
      rw [readUntil]
      by_cases hs : stop b (c :: cs) = true
      · simp [hs]
      · rw [if_neg (by simpa using hs), if_neg hs, h.advance_eq, pure_bind,
          ih h.next (Nat.lt_of_succ_lt_succ ht), pure_bind]
        rfl

theorem readTo_eq (h : Stands text p b cs) (stop : Lookbehind → List Char → Bool) :
    readTo text stop p = pure ((readUntil stop b cs).1, p.advance (readUntil stop b cs).1) :=
  h.readToWithin_eq stop h.length_lt

theorem readCallWithin_eq (h : Stands text p b cs) (n : CallNesting) (ht : cs.length < turns) :
    readCallWithin text turns n p =
      pure ((scanCall n b cs).1, p.advance (scanCall n b cs).1) := by
  induction turns generalizing p b cs n with
  | zero => exact absurd ht (Nat.not_lt_zero _)
  | succ turns ih =>
    rw [readCallWithin, h.sees_eq, pure_bind]
    cases cs with
    | nil => rfl
    | cons c cs =>
      rw [scanCall]
      by_cases hl : atLineEnd (c :: cs) = true
      · rw [if_pos hl, if_pos hl]
        rfl
      · rw [if_neg hl, if_neg hl, h.advance_eq, pure_bind, h.lookbehindAt_eq, pure_bind]
        cases hn : n.next b.escaped c with
        | none => rfl
        | some n' =>
          dsimp only
          rw [ih h.next n' (Nat.lt_of_succ_lt_succ ht), pure_bind]
          rfl

theorem readCall_eq (h : Stands text p b (inlineCallMark ++ cs)) :
    let call := inlineCallMark ++ (scanCall {} (b.past inlineCallMark) cs).1
    readCall text p = pure (call, p.advance call) := by
  intro call
  rw [readCall, h.advanceBy_eq, pure_bind, h.move.readCallWithin_eq {} h.move.length_lt,
    pure_bind, ← Position.advance_append]

theorem readTextWithin_eq (h : Stands text p b cs) (stop : Lookbehind → List Char → Bool)
    (ht : cs.length < turns) :
    readTextWithin text stop turns p =
      pure ((StoryScript.readText stop none b cs).1,
        p.advance (StoryScript.readText stop none b cs).1) := by
  induction turns generalizing p b cs with
  | zero => exact absurd ht (Nat.not_lt_zero _)
  | succ turns ih =>
    rw [readTextWithin, h.sees_eq, pure_bind, h.sees_eq, pure_bind, h.sees_eq, pure_bind]
    cases cs with
    | nil => rfl
    | cons c cs =>
      by_cases hl : atLineEnd (c :: cs) = true
      · rw [if_pos hl, StoryScript.readText, if_pos hl]
        rfl
      rw [if_neg hl]
      by_cases hc : b.atInlineCall (c :: cs) = true
      · obtain ⟨ds, hds⟩ : ∃ ds, c :: cs = inlineCallMark ++ ds := by
          rw [Lookbehind.atInlineCall, Bool.and_eq_true] at hc
          exact ((List.isPrefixOf_iff_prefix.1 hc.2).imp fun _ => Eq.symm)
        have hlength : ds.length < turns := by
          have := congrArg List.length hds
          rw [List.length_append] at this
          have : 0 < inlineCallMark.length := by decide
          omega
        rw [if_pos hc]
        rw [hds] at h hc ⊢
        obtain ⟨left, hleft, -⟩ := scanCall_append {} (b.past inlineCallMark) ds
        have hbehind := h.move
        rw [hleft] at hbehind
        have hleft_lt : left.length < turns := by
          rw [hleft, List.length_append] at hlength
          omega
        rw [h.readCall_eq, pure_bind, readText_mark stop hc, readText_scanCall stop hleft,
          Position.advance_append, ih hbehind.move hleft_lt, pure_bind]
        simp only [List.append_assoc, Position.advance_append]
      · rw [if_neg hc, StoryScript.readText, if_neg hl]
        dsimp only
        rw [if_neg hc]
        by_cases hs : stop b (c :: cs) = true
        · rw [if_pos hs, if_pos hs]
          rfl
        · rw [if_neg hs, if_neg hs, h.advance_eq, pure_bind,
            ih h.next (Nat.lt_of_succ_lt_succ ht), pure_bind]
          rfl

theorem readText_eq (h : Stands text p b cs) (stop : Lookbehind → List Char → Bool) :
    readText text stop p =
      pure ((StoryScript.readText stop none b cs).1,
        p.advance (StoryScript.readText stop none b cs).1) :=
  h.readTextWithin_eq stop h.length_lt

end Stands

end Bytewise

end StoryScript

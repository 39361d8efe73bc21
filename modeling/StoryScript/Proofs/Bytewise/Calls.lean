import StoryScript.Proofs.Bytewise.Readers
import StoryScript.Proofs.Indexed.Segments
/-!
# Where an inline call ends

The lexer copies an inline call without looking for the end of the text in it, and the segments of a
text are cut at the brace that closes a call. `scanCall` is what the lexer does behind the mark of a
call. On a line it closes the call at the very brace at which `findInlineEnd` cuts, and runs to the
end of the line where that finds none.
-/

namespace StoryScript

open String (utf8Len utf8Len_append)

variable {n : CallNesting} {b : Lookbehind} {cs rest : List Char}

/-! ## What the segments are cut at -/

/-- The search for the end of a call follows the nesting the reader keeps. -/
theorem findInlineEnd_next (n : CallNesting) (escaped : Bool) (c : Char) (cs : List Char) :
    findInlineEnd n.depth n.quoted escaped (c :: cs) =
      match n.next escaped c with
      | none => some ([], cs)
      | some n => (findInlineEnd n.depth n.quoted (c == '\\') cs).map fun r => (c :: r.1, r.2) := by
  obtain ⟨depth, quoted⟩ := n
  rw [findInlineEnd, CallNesting.next]
  by_cases he : escaped = true
  · simp [he]
  by_cases hquote : c = '"'
  · simp [he, hquote]
  by_cases hquoted : quoted = true
  · simp [he, hquote, hquoted]
  by_cases hopen : c = '('
  · simp [he, hquoted, hopen]
  by_cases hclose : c = ')'
  · simp [he, hquoted, hclose]
  by_cases hbrace : c = '}' ∧ depth ≤ 0
  · simp [he, hquoted, hbrace]
  · simp [he, hquote, hquoted, hopen, hclose, hbrace]

theorem CallNesting.eq_brace {escaped : Bool} {c : Char} (h : n.next escaped c = none) : c = '}' := by
  unfold next at h
  repeat' split at h
  all_goals simp_all

/-- In front of more of its line no character ends the line. -/
theorem not_atLineEnd_append {c d : Char} (hcs : InLine (c :: d :: cs)) (rest : List Char) :
    atLineEnd (c :: (d :: cs ++ rest)) = false := by
  rw [← Bool.not_eq_true]
  intro hl
  rcases newline_of_atNewline hl with ⟨ds, hds⟩ | ⟨ds, hds⟩
  · exact hcs (by simp [(List.cons.inj hds).1])
  · exact hcs (by simp [(List.cons.inj (List.cons.inj hds).2).1])

/-- Where the search finds a brace, the scan closes the call. -/
theorem scanCall_of_found {line inner tail : List Char} (hline : InLine line)
    (h : findInlineEnd n.depth n.quoted b.escaped line = some (inner, tail)) (rest : List Char) :
    scanCall n b (line ++ rest) = (inner ++ ['}'], true) := by
  induction line generalizing n b inner with
  | nil => cases h
  | cons c line ih =>
    rw [findInlineEnd_next] at h
    rw [List.cons_append, scanCall]
    cases hn : n.next b.escaped c with
    | none =>
      obtain rfl := CallNesting.eq_brace hn
      rw [hn] at h
      obtain ⟨rfl, -⟩ := Prod.mk.inj (Option.some.inj h)
      rfl
    | some n' =>
      rw [hn] at h
      obtain ⟨⟨inner, tail⟩, hfound, he⟩ := Option.map_eq_some_iff.1 h
      obtain ⟨rfl, rfl⟩ := Prod.mk.inj he
      cases line with
      | nil => cases hfound
      | cons d line =>
        rw [not_atLineEnd_append hline, if_neg Bool.false_ne_true]
        dsimp only
        rw [ih (hline.subset (List.subset_cons_self _ _)) hfound]
        rfl

/-- Where the search finds none, the scan runs to the end of the line. -/
theorem scanCall_of_not_found {line : List Char}
    (h : findInlineEnd n.depth n.quoted b.escaped line = none) (hrest : atLineEnd rest = true) :
    (scanCall n b (line ++ rest)).2 = false := by
  induction line generalizing n b with
  | nil =>
    cases rest with
    | nil => rfl
    | cons c rest => rw [List.nil_append, scanCall, if_pos hrest]
  | cons c line ih =>
    rw [findInlineEnd_next] at h
    rw [List.cons_append, scanCall]
    split
    · rfl
    · cases hn : n.next b.escaped c with
      | none =>
        rw [hn] at h
        cases h
      | some n' =>
        rw [hn] at h
        exact ih (Option.map_eq_none_iff.1 h)

/-! ## Both at a place of a source -/

/-- A longer beginning of a text has more bytes. -/
theorem eq_of_utf8Len_eq {as bs cs : List Char} (ha : as <+: cs) (hb : bs <+: cs)
    (h : utf8Len as = utf8Len bs) : as = bs := by
  have hoffset : (Position.origin.advance as).offset = (Position.origin.advance bs).offset := by
    rw [Position.offset_advance, Position.offset_advance, h]
  have hab := Position.prefix_of_offset_le ha hb (Nat.le_of_eq hoffset)
  exact hab.eq_of_length_le
    (Position.prefix_of_offset_le hb ha (Nat.le_of_eq hoffset.symm)).length_le

/-- The lexer and the segments agree on where an inline call ends. From the place of a source at
which the lexer takes up a call it copies the mark and what it scans of the line behind it. The scan
closes the call at a brace of the line if and only if the search over that line finds the byte of
this brace, and it runs to the end of the line without closing if and only if the search finds none.
-/
theorem inlineCallEnds_agree (source : String) (before line rest : List Char)
    (hsource : source.toList = before ++ (inlineCallMark ++ (line ++ rest)))
    (hcall : (Lookbehind.past {} before).atInlineCall (inlineCallMark ++ (line ++ rest)) = true)
    (hline : InLine line) (hrest : atLineEnd rest = true) :
    let behind := Lookbehind.past {} (before ++ inlineCallMark)
    let scan := scanCall {} behind (line ++ rest)
    let found := Indexed.findStop (inlineCallMark ++ line) 0
    Bytewise.readCall source.toList (Position.origin.advance before) =
        pure (inlineCallMark ++ scan.1,
          Position.origin.advance (before ++ (inlineCallMark ++ scan.1))) ∧
      (∃ left, line ++ rest = scan.1 ++ left ∧
        (scan.2 = false → atLineEnd left = true) ∧
        ∀ stop, readText stop none (.past {} before) (inlineCallMark ++ (line ++ rest)) =
          (inlineCallMark ++ scan.1 ++ (readText stop none (behind.past scan.1) left).1,
            (readText stop none (behind.past scan.1) left).2)) ∧
      (∀ inner tail, line = inner ++ '}' :: tail →
        (scan = (inner ++ ['}'], true) ↔ found = pure (some (utf8Len (inlineCallMark ++ inner))))) ∧
      (scan.2 = true → ∃ inner tail, line = inner ++ '}' :: tail ∧ scan.1 = inner ++ ['}']) ∧
      (scan.2 = false ↔ found = pure none) := by
  intro behind scan found
  have hbehind : behind = (Lookbehind.past {} before).past inlineCallMark :=
    Lookbehind.past_append {} before inlineCallMark
  have hfound : found = pure ((findInlineEnd 0 false false line).map fun r =>
      utf8Len (inlineCallMark ++ r.1)) := Indexed.findStop_eq [] line
  have hescaped : behind.escaped = false := by
    rw [hbehind]
    rfl
  obtain ⟨left, hleft, hend⟩ := scanCall_append {} behind (line ++ rest)
  have hstands : Bytewise.Stands source.toList (Position.origin.advance before) (.past {} before)
      (inlineCallMark ++ (line ++ rest)) := ⟨before, hsource, rfl, rfl⟩
  refine ⟨?_, ⟨left, hleft, hend, fun stop => ?_⟩, ?_⟩
  · rw [hstands.readCall_eq, ← hbehind, Position.advance_append _ before]
  · rw [readText_mark stop hcall, ← hbehind, readText_scanCall stop hleft,
      List.append_assoc]
  cases hr : findInlineEnd 0 false false line with
  | none =>
    have hscan : scan.2 = false := scanCall_of_not_found (by rw [hescaped]; exact hr) hrest
    rw [hr] at hfound
    refine ⟨fun inner tail _ => ⟨fun h => ?_, fun h => ?_⟩, fun h => ?_, fun _ => hfound, fun _ => hscan⟩
    · rw [h] at hscan
      cases hscan
    · cases Except.ok.inj (hfound.symm.trans h)
    · rw [hscan] at h
      cases h
  | some r =>
    obtain ⟨inner, tail⟩ := r
    have hscan : scan = (inner ++ ['}'], true) :=
      scanCall_of_found hline (by rw [hescaped]; exact hr) rest
    have hsplit := (append_of_findInlineEnd hr).symm
    rw [hr] at hfound
    refine ⟨fun inner' tail' hsplit' => ⟨fun h => ?_, fun h => ?_⟩,
      fun _ => ⟨inner, tail, hsplit, by rw [hscan]⟩, fun h => ?_, fun h => ?_⟩
    · rw [hfound, List.append_cancel_right (Prod.mk.inj (hscan.symm.trans h)).1]
      rfl
    · have hbytes : utf8Len (inlineCallMark ++ inner) = utf8Len (inlineCallMark ++ inner') :=
        Option.some.inj (Except.ok.inj (hfound.symm.trans h))
      rw [utf8Len_append, utf8Len_append] at hbytes
      rw [hscan, eq_of_utf8Len_eq ⟨_, hsplit.symm⟩ ⟨_, hsplit'.symm⟩ (Nat.add_left_cancel hbytes)]
    · rw [hscan] at h
      cases h
    · cases Except.ok.inj (hfound.symm.trans h)

/-- A brace in quotes, one behind a backslash and one in open parentheses close nothing. -/
theorem inlineCallEnds_agree_quoted :
    let source := "\" a\x7bcall:f(\"\x7d\", \\\x7d, é\x7d)\x7d#\n"
    let before := "\" a".toList
    let inner := "f(\"\x7d\", \\\x7d, é\x7d)".toList
    let line := inner ++ ['}', '#']
    (source.toList = before ++ (inlineCallMark ++ (line ++ ['\n'])) ∧
      (Lookbehind.past {} before).atInlineCall (inlineCallMark ++ (line ++ ['\n'])) = true ∧
      InLine line ∧ atLineEnd ['\n'] = true) ∧
    scanCall {} (.past {} (before ++ inlineCallMark)) (line ++ ['\n']) = (inner ++ ['}'], true) ∧
    Indexed.findStop (inlineCallMark ++ line) 0 =
      pure (some (utf8Len (inlineCallMark ++ inner))) := by
  intro source before inner line
  have hplace : source.toList = before ++ (inlineCallMark ++ (line ++ ['\n'])) ∧
      (Lookbehind.past {} before).atInlineCall (inlineCallMark ++ (line ++ ['\n'])) = true ∧
      InLine line ∧ atLineEnd ['\n'] = true := by decide +kernel
  have hscan : scanCall {} (.past {} (before ++ inlineCallMark)) (line ++ ['\n']) =
      (inner ++ ['}'], true) := by decide +kernel
  obtain ⟨-, -, hagree, -⟩ := inlineCallEnds_agree source before line ['\n'] hplace.1 hplace.2.1
    hplace.2.2.1 hplace.2.2.2
  exact ⟨hplace, hscan, (hagree inner ['#'] rfl).1 hscan⟩

end StoryScript

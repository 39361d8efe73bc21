import Mathlib.Data.List.TakeWhile
import StoryScript.Check
import StoryScript.Proofs.Canonical.RoundTrip
import StoryScript.Proofs.Text.Margins
/-!
# One rule for arguments

A list of arguments is read in four places: behind a call statement, inside a text that is still
being lexed, where a text is cut at its inline calls, and where the inner text of an inline call is
cut at its commas. Each place keeps its own count of parentheses and quotes. `ArgumentScan` is a
count of its own, and a list that it finds enclosed is read alike in all four
(`same_arguments`).
-/

namespace StoryScript

open Token (Kind)
open Canonical (Word)
open Lexer (State run)

/-! ## Enclosed lists -/

/-- How far a scan of an argument list has come. The default is behind its parenthesis. -/
structure ArgumentScan where
  /-- Open parentheses, that of the list among them. -/
  depth : Nat := 1
  quoted : Bool := false
  /-- The character before is a backslash. -/
  escaped : Bool := false
deriving DecidableEq, Repr

namespace ArgumentScan

/-- The scan after a character, or `none` when the character closes the list. A character after a
backslash counts for nothing, and a parenthesis between quotes neither. -/
def next (p : ArgumentScan) (c : Char) : Option ArgumentScan :=
  let q := { p with escaped := c == '\\' }
  if p.escaped then some q
  else if c = '"' then some { q with quoted := !p.quoted }
  else if p.quoted then some q
  else if c = '(' then some { q with depth := p.depth + 1 }
  else if c = ')' then if p.depth ≤ 1 then none else some { q with depth := p.depth - 1 }
  else some q

/-- The scan after a text that does not close the list. -/
def past (p : ArgumentScan) (text : List Char) : Option ArgumentScan := text.foldlM next p

/-- Whether a comma at this place ends an argument. -/
def cuts (p : ArgumentScan) (c : Char) : Bool :=
  !p.escaped && !p.quoted && c == ',' && p.depth == 1

variable {p q : ArgumentScan} {c : Char} {cs s rest : List Char} {b : Lookbehind}

theorem past_cons : p.past (c :: cs) = (p.next c).bind (·.past cs) := List.foldlM_cons

theorem next_of_past (h : p.past (c :: cs) = some q) :
    ∃ r, p.next c = some r ∧ r.past cs = some q := by
  rw [past_cons] at h
  exact Option.bind_eq_some_iff.1 h

/-- All that a character can do which does not close the list. -/
theorem next_cases (h : p.next c = some q) :
    (p.escaped = true ∧ q = { p with escaped := c == '\\' }) ∨
    (p.escaped = false ∧ c = '"' ∧ q = { p with quoted := !p.quoted }) ∨
    (p.escaped = false ∧ p.quoted = true ∧ c ≠ '"' ∧ q = { p with escaped := c == '\\' }) ∨
    (p.escaped = false ∧ p.quoted = false ∧ c = '(' ∧ q = { p with depth := p.depth + 1 }) ∨
    (p.escaped = false ∧ p.quoted = false ∧ c = ')' ∧ 1 < p.depth ∧
      q = { p with depth := p.depth - 1 }) ∨
    (p.escaped = false ∧ p.quoted = false ∧ c ≠ '"' ∧ c ≠ '(' ∧ c ≠ ')' ∧
      q = { p with escaped := c == '\\' }) := by
  obtain ⟨depth, quoted, escaped⟩ := p
  unfold next at h
  dsimp only at h
  repeat' split at h
  all_goals simp_all

theorem pos_of_next (hp : 0 < p.depth) (h : p.next c = some q) : 0 < q.depth := by
  rcases next_cases h with ⟨-, rfl⟩ | ⟨-, -, rfl⟩ | ⟨-, -, -, rfl⟩ | ⟨-, -, -, rfl⟩ |
    ⟨-, -, -, hd, rfl⟩ | ⟨-, -, -, -, -, rfl⟩
  case inr.inr.inr.inl => exact Nat.succ_pos _
  case inr.inr.inr.inr.inl => exact Nat.sub_pos_of_lt hd
  all_goals exact hp

theorem escaped_of_next (h : p.next c = some q) : q.escaped = (c == '\\') := by
  rcases next_cases h with ⟨-, rfl⟩ | ⟨he, rfl, rfl⟩ | ⟨-, -, -, rfl⟩ | ⟨he, -, rfl, rfl⟩ |
    ⟨he, -, rfl, -, rfl⟩ | ⟨-, -, -, -, -, rfl⟩
  all_goals first | rfl | exact he

/-! ## One character in each of the places -/

theorem splitFields_next (h : p.next c = some q) :
    Text.splitFields (p.depth - 1) p.quoted p.escaped (c :: cs) =
      let r := Text.splitFields (q.depth - 1) q.quoted q.escaped cs
      if p.cuts c then ([], r.1 :: r.2) else (c :: r.1, r.2) := by
  rcases next_cases h with ⟨he, rfl⟩ | ⟨he, rfl, rfl⟩ | ⟨he, hq, hc, rfl⟩ | ⟨he, hq, rfl, rfl⟩ |
    ⟨he, hq, rfl, hd, rfl⟩ | ⟨he, hq, h1, h2, h3, rfl⟩
  · simp [Text.splitFields, cuts, he]
  · simp [Text.splitFields, cuts, he]
  · simp [Text.splitFields, cuts, he, hq, hc]
  · simp [Text.splitFields, cuts, he, hq]
  · have hdepth : ((p.depth - 1 : Nat) : Int) = p.depth - 1 := by omega
    simp [Text.splitFields, cuts, he, hq, hdepth]
  · have hzero : (p.depth : Int) - 1 = 0 ↔ p.depth = 1 := by omega
    simp [Text.splitFields, cuts, he, hq, h1, h2, h3, hzero]

theorem readArguments_next (hb : b.escaped = p.escaped) (hl : atLineEnd (c :: cs) = false)
    (h : p.next c = some q) :
    readArguments p.depth p.quoted b (c :: cs) =
      let r := readArguments q.depth q.quoted (b.next c) cs
      if p.cuts c then r.cut else r.push c := by
  rcases next_cases h with ⟨he, rfl⟩ | ⟨he, rfl, rfl⟩ | ⟨he, hq, hc, rfl⟩ | ⟨he, hq, rfl, rfl⟩ |
    ⟨he, hq, rfl, hd, rfl⟩ | ⟨he, hq, h1, h2, h3, rfl⟩
  · simp [readArguments, cuts, hl, hb, he]
  · simp [readArguments, cuts, hl, hb, he]
  · simp [readArguments, cuts, hl, hb, he, hq, hc]
  · simp [readArguments, cuts, hl, hb, he, hq]
  · have hdepth : ¬p.depth ≤ 1 := by omega
    simp [readArguments, cuts, hl, hb, he, hq, hdepth]
  · simp [readArguments, cuts, hl, hb, he, hq, h1, h2, h3]

theorem findInlineEnd_next (hp : 0 < p.depth) (h : p.next c = some q) :
    findInlineEnd p.depth p.quoted p.escaped (c :: cs) =
      (findInlineEnd q.depth q.quoted q.escaped cs).map fun r => (c :: r.1, r.2) := by
  rcases next_cases h with ⟨he, rfl⟩ | ⟨he, rfl, rfl⟩ | ⟨he, hq, hc, rfl⟩ | ⟨he, hq, rfl, rfl⟩ |
    ⟨he, hq, rfl, hd, rfl⟩ | ⟨he, hq, h1, h2, h3, rfl⟩
  · simp [findInlineEnd, he]
  · simp [findInlineEnd, he]
  · simp [findInlineEnd, he, hq, hc]
  · simp [findInlineEnd, he, hq]
  · have hdepth : ((p.depth - 1 : Nat) : Int) = p.depth - 1 := by omega
    simp [findInlineEnd, he, hq, hdepth]
  · simp [findInlineEnd, he, hq, h1, h2, h3, hp.ne']

theorem callNesting_next (hp : 0 < p.depth) (h : p.next c = some q) :
    CallNesting.next ⟨p.depth, p.quoted⟩ p.escaped c = some ⟨q.depth, q.quoted⟩ := by
  rcases next_cases h with ⟨he, rfl⟩ | ⟨he, rfl, rfl⟩ | ⟨he, hq, hc, rfl⟩ | ⟨he, hq, rfl, rfl⟩ |
    ⟨he, hq, rfl, hd, rfl⟩ | ⟨he, hq, h1, h2, h3, rfl⟩
  · simp [CallNesting.next, he]
  · simp [CallNesting.next, he]
  · simp [CallNesting.next, he, hq, hc]
  · simp [CallNesting.next, he, hq]
  · have hdepth : ((p.depth - 1 : Nat) : Int) = p.depth - 1 := by omega
    simp [CallNesting.next, he, hq, hdepth]
  · simp [CallNesting.next, he, hq, h1, h2, h3, hp.ne']

/-! ## A whole list -/

/-- Text without a line feed does not end its line before something else that does not. -/
theorem not_atLineEnd {d : Char} (hlf : '\n' ∉ c :: cs) (hd : d ≠ '\n') :
    atLineEnd (c :: (cs ++ d :: rest)) = false := by
  change atNewline (c :: (cs ++ d :: rest)) = false
  rw [← Bool.not_eq_true]
  intro h
  rcases newline_of_atNewline h with ⟨ds, hds⟩ | ⟨ds, hds⟩
  · exact hlf (by simp [(List.cons.inj hds).1])
  · cases cs with
    | nil => exact hd (List.cons.inj (List.cons.inj hds).2).1
    | cons e es => exact hlf (by simp [(List.cons.inj (List.cons.inj hds).2).1])

/-- The list behind a call statement is cut where `splitFields` cuts it, up to its parenthesis. -/
theorem readArguments_past (hp : 0 < p.depth) (hlf : '\n' ∉ s) (h : p.past s = some {})
    (hb : b.escaped = p.escaped) :
    readArguments p.depth p.quoted b (s ++ ')' :: rest) =
      let r := Text.splitFields (p.depth - 1) p.quoted p.escaped s
      ⟨r.1, r.2, true, rest⟩ := by
  induction s generalizing p b with
  | nil =>
    obtain rfl : p = {} := Option.some.inj h
    exact Canonical.readArguments_close hb
  | cons c cs ih =>
    obtain ⟨q, hq, hpast⟩ := next_of_past h
    have hcs : '\n' ∉ cs := fun hm => hlf (List.mem_cons_of_mem c hm)
    have hbehind : (b.next c).escaped = q.escaped := (escaped_of_next hq).symm
    rw [List.cons_append, readArguments_next hb (not_atLineEnd hlf (by decide)) hq,
      ih (pos_of_next hp hq) hcs hpast hbehind, splitFields_next hq]
    dsimp only
    split <;> rfl

/-- An inline call ends with the brace behind its parenthesis. -/
theorem findInlineEnd_past (hp : 0 < p.depth) (h : p.past s = some {}) :
    findInlineEnd p.depth p.quoted p.escaped (s ++ ')' :: '}' :: rest) =
      some (s ++ [')'], rest) := by
  induction s generalizing p with
  | nil =>
    obtain rfl : p = {} := Option.some.inj h
    simp [findInlineEnd]
  | cons c cs ih =>
    obtain ⟨q, hq, hpast⟩ := next_of_past h
    rw [List.cons_append, findInlineEnd_next hp hq, ih (pos_of_next hp hq) hpast]
    rfl

/-- A text with an inline call in it is not left inside the call. -/
theorem readText_past {stop : Lookbehind → List Char → Bool} (hp : 0 < p.depth) (hlf : '\n' ∉ s)
    (h : p.past s = some {}) (hb : b.escaped = p.escaped) :
    readText stop (some ⟨p.depth, p.quoted⟩) b (s ++ [')', '}']) = (s ++ [')', '}'], []) := by
  induction s generalizing p b with
  | nil =>
    obtain rfl : p = {} := Option.some.inj h
    have hclose : CallNesting.next ⟨1, false⟩ false ')' = some ⟨0, false⟩ := rfl
    simp [readText, hb, hclose, atLineEnd, atNewline]
  | cons c cs ih =>
    obtain ⟨q, hq, hpast⟩ := next_of_past h
    have hcs : '\n' ∉ cs := fun hm => hlf (List.mem_cons_of_mem c hm)
    have hbehind : (b.next c).escaped = q.escaped := (escaped_of_next hq).symm
    rw [List.cons_append, readText, if_neg (by simp [not_atLineEnd hlf])]
    simp only [hb, callNesting_next hp hq, ih (pos_of_next hp hq) hcs hpast hbehind]

end ArgumentScan

/-! ## Names and fields -/

/-- The fields that are arguments, trimmed, are the tokens of a list. -/
theorem kinds_splitArguments (s rest : List Char) :
    let r := Text.splitFields 0 false false s
    (Piece.arguments ⟨r.1, r.2, true, rest⟩).kinds =
      ((Text.splitArguments s).map String.ofList).map .argument := by
  intro r
  have hfield : ∀ field, Piece.fieldKinds field =
      (([Text.trim field].filter (!·.isEmpty)).map String.ofList).map .argument := by
    intro field
    by_cases hb : Text.allBlank field = true
    · simp [Piece.fieldKinds, hb, Text.trim_eq_nil_iff.2 hb]
    · have hne : Text.trim field ≠ [] := fun h => hb (Text.trim_eq_nil_iff.1 h)
      simp [Piece.fieldKinds, hb, hne]
  have hall : ∀ fields : List (List Char), fields.flatMap Piece.fieldKinds =
      (((fields.map Text.trim).filter (!·.isEmpty)).map String.ofList).map .argument := by
    intro fields
    induction fields with
    | nil => rfl
    | cons field fields ih =>
      rw [List.flatMap_cons, hfield, ih, ← List.map_append, ← List.map_append, ← List.filter_append]
      rfl
  rw [Text.splitArguments, ← hall]
  simp [Piece.kinds, r]

variable {s : List Char} (name : Word)

/-- The name of an inline call and its arguments. -/
theorem splitInlineCall_eq (s : List Char) :
    splitInlineCall (name.chars ++ '(' :: s ++ [')']) = (name.chars, Text.splitArguments s) := by
  have hname : readUntil (fun b cs => b.atParenthesis cs) {} (name.chars ++ '(' :: (s ++ [')'])) =
      (name.chars, '(' :: (s ++ [')'])) := by
    refine Canonical.readUntil_eq (fun b c hc cs => ?_) (Canonical.atParenthesis_past name rfl)
    rw [← Bool.not_eq_true]
    intro hp
    obtain ⟨ds, hds⟩ := Lookbehind.cons_of_atParenthesis hp
    exact Canonical.ne_of_isCalm (name.isCalm_of_mem c hc) (by decide) (List.cons.inj hds).1
  have htrim : Text.trimEnd (s ++ [')']) = s ++ [')'] :=
    Canonical.trimEnd_append (by simp) (List.forall_mem_singleton.2 rfl)
  rw [List.append_assoc, List.cons_append, splitInlineCall]
  simp [hname, htrim, name.trim_eq]

/-! ## The call statement -/

/-- A call and its list, alone in a source. -/
theorem run_call (hlf : '\n' ∉ s) (h : ArgumentScan.past {} s = some {}) :
    let r := Text.splitFields 0 false false s
    run {} (callMark ++ (name.chars ++ '(' :: s ++ [')'])) =
      [.gap [], .token (.call name.text) (callMark ++ name.chars), .arguments ⟨r.1, r.2, true, []⟩,
        .mark .eof] := by
  intro r
  have hmark : ((Canonical.inLine 0).behind.past callMark).escaped = false := rfl
  have hlist : ∀ b : Lookbehind, b.escaped = false →
      readArguments 1 false b (s ++ [')']) = ⟨r.1, r.2, true, []⟩ :=
    fun b hb => @ArgumentScan.readArguments_past {} s [] b Nat.one_pos hlf h hb
  have hscan : (Canonical.inLine 0).scan '@'
      ("call:".toList ++ (name.chars ++ '(' :: (s ++ [')']))) =
      (Canonical.inLine 0).read [.token (.call name.text) (callMark ++ name.chars),
        .arguments ⟨r.1, r.2, true, []⟩] [] := by
    change (Canonical.inLine 0).call (callMark ++ (name.chars ++ '(' :: (s ++ [')']))) = _
    unfold State.call
    simp only [List.take_left, List.drop_left, Lookbehind.past_append,
      Canonical.readCallName_eq name hmark, Canonical.atParenthesis_past name hmark, if_true,
      List.drop_succ_cons, List.drop_zero]
    rw [hlist _ rfl]
    rfl
  have hfresh := @Canonical.run_same_level 0 '@'
    ("call:".toList ++ (name.chars ++ '(' :: (s ++ [')']))) false rfl rfl
  rw [List.append_assoc, List.cons_append]
  refine hfresh.trans ?_
  rw [if_neg Bool.false_ne_true, Canonical.run_scan rfl rfl, hscan, State.rest_read, run]
  rfl

/-! ## The inline call -/

/-- Up to its parenthesis an inline call nests nothing. -/
theorem readText_calm {stop : Lookbehind → List Char → Bool} {b : Lookbehind} {text cs : List Char}
    (ht : ∀ c ∈ text, Canonical.isCalm c = true ∨ c = ':') (hb : b.escaped = false) :
    readText stop (some {}) b (text ++ cs) =
      let r := readText stop (some {}) (b.past text) cs
      (text ++ r.1, r.2) := by
  induction text generalizing b with
  | nil => rfl
  | cons c ds ih =>
    have hne : ∀ d, Canonical.isCalm d = false ∧ d ≠ ':' → c ≠ d := by
      rintro d ⟨hd, hcolon⟩ rfl
      rcases ht c (by simp) with hc | hc
      · rw [hc] at hd
        cases hd
      · exact hcolon hc
    have hl : atLineEnd (c :: (ds ++ cs)) = false := by
      change atNewline _ = false
      rw [← Bool.not_eq_true]
      intro h
      rcases newline_of_atNewline h with ⟨es, hes⟩ | ⟨es, hes⟩
      · exact hne '\n' (by decide) (List.cons.inj hes).1
      · exact hne '\r' (by decide) (List.cons.inj hes).1
    have hnext : CallNesting.next {} false c = some {} := by
      simp [CallNesting.next, hne '"' (by decide), hne '(' (by decide), hne ')' (by decide),
        hne '}' (by decide)]
    have hbehind : (b.next c).escaped = false := by
      simp [Lookbehind.next, hne '\\' (by decide)]
    rw [List.cons_append, readText, if_neg (by simp [hl])]
    simp only [hb, hnext, ih (fun d hd => ht d (by simp [hd])) hbehind]
    rfl

theorem findInlineEnd_calm {text cs : List Char} (ht : ∀ c ∈ text, Canonical.isCalm c = true) :
    findInlineEnd 0 false false (text ++ cs) =
      (findInlineEnd 0 false false cs).map fun r => (text ++ r.1, r.2) := by
  induction text with
  | nil => simp
  | cons c ds ih =>
    have hne : ∀ d, Canonical.isCalm d = false → c ≠ d :=
      fun d => Canonical.ne_of_isCalm (ht c (by simp))
    have he : (c == '\\') = false := by simpa using hne '\\' (by decide)
    rw [List.cons_append, findInlineEnd]
    simp [hne '"' (by decide), hne '(' (by decide), hne ')' (by decide), hne '}' (by decide), he,
      ih fun d hd => ht d (by simp [hd]), Function.comp_def]

/-- A text that is one inline call is read to its end, whatever stands in the call. -/
theorem readText_inlineCall {stop : Lookbehind → List Char → Bool} {b : Lookbehind}
    (hb : b.escaped = false) (hlf : '\n' ∉ s) (h : ArgumentScan.past {} s = some {}) :
    readText stop none b (inlineCallMark ++ (name.chars ++ '(' :: s ++ [')']) ++ ['}']) =
      (inlineCallMark ++ (name.chars ++ '(' :: s ++ [')']) ++ ['}'], []) := by
  have htext : inlineCallMark ++ (name.chars ++ '(' :: s ++ [')']) ++ ['}'] =
      '{' :: ("call:".toList ++ name.chars ++ '(' :: (s ++ [')', '}'])) := by
    simp only [List.append_assoc]
    rfl
  have hcalm : ∀ c ∈ "call:".toList ++ name.chars, Canonical.isCalm c = true ∨ c = ':' := by
    have hmark : "call:".toList.all (fun c => Canonical.isCalm c || c == ':') = true := by decide
    refine List.forall_mem_append.2 ⟨fun c hc => ?_, fun c hc => .inl (name.isCalm_of_mem c hc)⟩
    simpa using List.all_eq_true.1 hmark c hc
  have hpast : ((b.next '{').past ("call:".toList ++ name.chars)).escaped = false := by
    rw [Lookbehind.past_append]
    exact Canonical.escaped_past name.isCalm_of_mem rfl
  have hlist : ∀ b : Lookbehind, b.escaped = false →
      readText stop (some {}) b ('(' :: (s ++ [')', '}'])) = ('(' :: (s ++ [')', '}']), []) := by
    intro b hb
    have hread : readText stop (some ⟨1, false⟩) (b.next '(') (s ++ [')', '}']) =
        (s ++ [')', '}'], []) :=
      @ArgumentScan.readText_past {} s (b.next '(') stop Nat.one_pos hlf h rfl
    have hnext : CallNesting.next {} false '(' = some ⟨1, false⟩ := rfl
    have hl : ¬atLineEnd ('(' :: (s ++ [')', '}'])) = true := Bool.false_ne_true
    rw [readText, if_neg hl]
    simp only [hb, hnext, hread]
  -- the call is entered at its brace
  have hat : b.atInlineCall ('{' :: ("call:".toList ++ name.chars ++ '(' :: (s ++ [')', '}']))) =
      true := by
    rw [Lookbehind.atInlineCall, hb]
    rfl
  have hl : ¬atLineEnd ('{' :: ("call:".toList ++ name.chars ++ '(' :: (s ++ [')', '}']))) = true :=
    Bool.false_ne_true
  rw [htext, readText, if_neg hl]
  simp only [hat, if_true]
  rw [readText_calm hcalm rfl, hlist _ hpast]

/-- A replica whose text is one inline call. -/
theorem run_inlineCall (hlf : '\n' ∉ s) (h : ArgumentScan.past {} s = some {}) :
    let text := inlineCallMark ++ (name.chars ++ '(' :: s ++ [')']) ++ ['}']
    run {} ('"' :: ' ' :: text) =
      [.gap [], .token .replicaBegin ['"', ' '], .token (.speech (String.ofList text)) text,
        .mark .replicaEnd, .mark .eof] := by
  intro text
  obtain ⟨cs, hcs⟩ : ∃ cs, text = '{' :: cs := ⟨_, rfl⟩
  have hread : readText (fun b cs => b.endsReplica cs || b.atComment cs) none ⟨false, false⟩ text =
      (text, []) := readText_inlineCall name rfl hlf h
  have hblank : Text.allBlank text = false := by
    rw [hcs]
    rfl
  have hscan : (Canonical.inReplica 0 ⟨false, false⟩).scan '{' cs =
      (Canonical.inReplica 0 ⟨false, false⟩).read
        [.token (.speech (String.ofList text)) text] [] := by
    have hends : Lookbehind.endsReplica ⟨false, false⟩ text = false := by
      rw [hcs]
      rfl
    have hopen : Lookbehind.atCommentOpen ⟨false, false⟩ text = false := by
      rw [hcs]
      rfl
    have hline : Lookbehind.atLineComment ⟨false, false⟩ text = false := by
      rw [hcs]
      rfl
    change (Canonical.inReplica 0 ⟨false, false⟩).replica ('{' :: cs) = _
    rw [← hcs]
    simp [State.replica, Canonical.inReplica, hends, hopen, hline, hread, hblank]
  have hfresh := @Canonical.run_same_level 0 '"' (' ' :: text) false rfl rfl
  refine hfresh.trans ?_
  rw [if_neg Bool.false_ne_true, Canonical.run_scan rfl rfl]
  change _ :: .token .replicaBegin ['"', ' '] :: run (Canonical.inReplica 0 ⟨false, false⟩) text = _
  rw [hcs, Canonical.run_scan rfl rfl, hscan, State.rest_read, run, hcs]
  rfl

/-- The one segment of such a text. -/
theorem segmentsOf_inlineCall (h : ArgumentScan.past {} s = some {}) (start : Position) :
    ∃ span, (segmentsOf [⟨inlineCallMark ++ (name.chars ++ '(' :: s ++ [')']) ++ ['}'], start⟩]).1 =
      [.inlineCall name.text ((Text.splitArguments s).map String.ofList) span] := by
  generalize hinner : name.chars ++ '(' :: s ++ [')'] = inner
  have hend : findInlineEnd 0 false false (inner ++ ['}']) = some (inner, []) := by
    have hlist : findInlineEnd 1 false false (s ++ [')', '}']) = some (s ++ [')'], []) :=
      @ArgumentScan.findInlineEnd_past {} s [] Nat.one_pos h
    have hopen : findInlineEnd 0 false false ('(' :: (s ++ [')', '}'])) =
        (findInlineEnd 1 false false (s ++ [')', '}'])).map fun r => ('(' :: r.1, r.2) := rfl
    rw [← hinner, List.append_assoc, List.append_assoc, findInlineEnd_calm name.isCalm_of_mem]
    change (findInlineEnd 0 false false ('(' :: (s ++ [')', '}']))).map _ = _
    rw [hopen, hlist]
    simp
  have hcut : cutInlineCalls 0 (inlineCallMark ++ inner ++ ['}']) = ⟨[.call inner], none⟩ := by
    have hstart : findInlineStart 0 (inlineCallMark ++ inner ++ ['}']) =
        some ([], inner ++ ['}']) := rfl
    rw [cutInlineCalls]
    split
    · next hs =>
      rw [hstart] at hs
      cases hs
    · next before body hs =>
      obtain ⟨rfl, rfl⟩ := Prod.mk.inj (Option.some.inj (hstart.symm.trans hs))
      split
      · next he =>
        rw [hend] at he
        cases he
      · next inner' rest he =>
        obtain ⟨rfl, rfl⟩ := Prod.mk.inj (Option.some.inj (hend.symm.trans he))
        simp only [Canonical.cutInlineCalls_eq List.not_mem_nil]
        rfl
  have hsplit : splitInlineCall inner = (name.chars, Text.splitArguments s) := by
    rw [← hinner]
    exact splitInlineCall_eq name s
  have hglued : Run.glued [⟨inlineCallMark ++ inner ++ ['}'], start⟩] =
      inlineCallMark ++ inner ++ ['}'] := by
    simp [Run.glued]
  unfold segmentsOf
  simp only [hglued, hcut, placeFragments, Fragment.segment, hsplit]
  exact ⟨_, rfl⟩

/-! ## Stories without headers -/

theorem preorder_parse_main {ts : List Token} {e : Token} (he : e.kind = .eof)
    (h : ∀ t ∈ ts, t.kind ≠ .eof ∧ t.kind ≠ .header) :
    (parse (ts ++ [e])).story.preorder =
      Statement.preorders (parseBlock [] [] ts).statements := by
  have hend : (ts ++ [e]).takeWhile (fun t => decide (t.kind ≠ .eof)) = ts :=
    (Canonical.span_append (fun t ht => by simpa using (h t ht).1) (by simpa using he)).1
  have hwindows : windows ts = (ts, []) := by
    have hinner := Canonical.windows_append_inner (fun t ht => (h t ht).2) []
    simpa [windows] using hinner
  unfold parse
  rw [hend, hwindows]
  simp [Story.preorder, Section.preorder, mainSection]

/-- A call and its arguments, and nothing else. -/
theorem parse_call {ts : List Token} {name : String} {args : List String}
    (h : ts.map Token.kind = .call name :: args.map .argument ++ [.eof]) :
    ts.filterMap Token.argument? = args ∧
      ∃ call, (parse ts).story.preorder = [.call call] ∧ call.name = name ∧ call.args = args := by
  obtain ⟨us, es, rfl, hus, hes⟩ := List.map_eq_append_iff.1 h
  obtain ⟨e, xs, rfl, he, hxs⟩ := List.map_eq_cons_iff.1 hes
  obtain rfl := List.map_eq_nil_iff.1 hxs
  obtain ⟨t, us, rfl, ht, hargs⟩ := List.map_eq_cons_iff.1 hus
  obtain ⟨hall, htexts⟩ := Canonical.arguments_eq hargs
  have hinner : ∀ u ∈ t :: us, u.kind ≠ .eof ∧ u.kind ≠ .header := by
    intro u hu
    have hk : u.kind ∈ .call name :: args.map .argument := hus ▸ List.mem_map_of_mem hu
    rcases List.mem_cons.1 hk with hk | hk
    · simp [hk]
    · obtain ⟨arg, -, hk⟩ := List.mem_map.1 hk
      simp [← hk]
  have hread : (readItem t us).item = .call ⟨name, args, [], t.spanTo us⟩ ∧
      (readItem t us).rest = [] := by
    have htake : us.takeWhile (·.argument?.isSome) = us := List.takeWhile_eq_self_iff.2 hall
    have hdrop : us.dropWhile (·.argument?.isSome) = [] := List.dropWhile_eq_nil_iff.2 hall
    unfold readItem
    rw [ht]
    simp [readCall, htake, hdrop, htexts]
  have hblock : (parseBlock [] [] (t :: us)).statements =
      [.call ⟨name, args, [], t.spanTo us⟩] := by
    rw [parseBlock_statement (by rw [hread.1]; rfl), hread.2]
    simp [Block.push]
  refine ⟨?_, ⟨name, args, [], t.spanTo us⟩, ?_, rfl, rfl⟩
  · rw [List.filterMap_append, List.filterMap_cons, htexts]
    simp [Token.argument?, ht, he]
  · rw [preorder_parse_main he hinner, hblock]
    rfl

/-- A replica of one speech, and nothing else. -/
theorem parse_replica {ts : List Token} {text : String}
    (h : ts.map Token.kind = [.replicaBegin, .speech text, .replicaEnd, .eof]) :
    ∃ replica start, (parse ts).story.preorder = [.replica replica] ∧
      replica.segments = (segmentsOf [⟨text.toList, start⟩]).1 := by
  obtain ⟨t, us, rfl, ht, hus⟩ := List.map_eq_cons_iff.1 h
  obtain ⟨⟨_, span⟩, vs, rfl, hu, hvs⟩ := List.map_eq_cons_iff.1 hus
  obtain rfl : _ = Kind.speech _ := hu
  obtain ⟨⟨_, last⟩, ws, rfl, hv, hws⟩ := List.map_eq_cons_iff.1 hvs
  obtain rfl : _ = Kind.replicaEnd := hv
  obtain ⟨e, xs, rfl, he, hxs⟩ := List.map_eq_cons_iff.1 hws
  obtain rfl := List.map_eq_nil_iff.1 hxs
  generalize hsegments : (segmentsOf [⟨text.toList, span.start⟩]).1 = segments
  have hread : (readItem t [⟨.speech text, span⟩, ⟨.replicaEnd, last⟩]).item =
      .replica ⟨plainText segments, segments, [], t.span.through last⟩ ∧
        (readItem t [⟨.speech text, span⟩, ⟨.replicaEnd, last⟩]).rest = [] := by
    unfold readItem
    rw [ht, ← hsegments]
    exact ⟨rfl, rfl⟩
  have hblock : (parseBlock [] [] [t, ⟨.speech text, span⟩, ⟨.replicaEnd, last⟩]).statements =
      [.replica ⟨plainText segments, segments, [], t.span.through last⟩] := by
    rw [parseBlock_statement (by rw [hread.1]; rfl), hread.2]
    simp [Block.push]
  refine ⟨⟨plainText segments, segments, [], t.span.through last⟩, span.start, ?_, hsegments.symm⟩
  change (parse ([t, ⟨.speech text, span⟩, ⟨.replicaEnd, last⟩] ++ [e])).story.preorder = _
  rw [preorder_parse_main he (by simp [ht]), hblock]
  rfl

/-- A list of arguments that closes with its last parenthesis and stands on one line is cut alike
behind a call statement, inside a replica's inline call, and as a text of its own. -/
theorem same_arguments (name : Word) (list : String) (hlf : '\n' ∉ list.toList)
    (h : ArgumentScan.past {} list.toList = some {}) :
    let args := (Text.splitArguments list.toList).map String.ofList
    let statement := "@call:" ++ name.text ++ "(" ++ list ++ ")"
    let inline := "\" \x7bcall:" ++ name.text ++ "(" ++ list ++ ")\x7d"
    (tokenize statement).filterMap Token.argument? = args ∧
      (∃ call, (parseSource statement).story.preorder = [.call call] ∧ call.name = name.text ∧
        call.args = args) ∧
      ∃ replica span, (parseSource inline).story.preorder = [.replica replica] ∧
        replica.segments = [.inlineCall name.text args span] := by
  intro args statement inline
  have hcall : (tokenize statement).map Token.kind =
      .call name.text :: args.map .argument ++ [.eof] := by
    have htext : statement.toList = callMark ++ (name.chars ++ '(' :: list.toList ++ [')']) := by
      simp only [statement, String.toList_append, Word.text, String.toList_ofList,
        List.append_assoc]
      rfl
    rw [tokenize, Piece.kinds_place, htext, run_call name hlf h, ← kinds_splitArguments _ []]
    rfl
  have hreplica : (tokenize inline).map Token.kind = [.replicaBegin, .speech (String.ofList
      (inlineCallMark ++ (name.chars ++ '(' :: list.toList ++ [')']) ++ ['}'])), .replicaEnd,
      .eof] := by
    have htext : inline.toList = '"' :: ' ' ::
        (inlineCallMark ++ (name.chars ++ '(' :: list.toList ++ [')']) ++ ['}']) := by
      simp only [inline, String.toList_append, Word.text, String.toList_ofList, List.append_assoc]
      rfl
    rw [tokenize, Piece.kinds_place, htext, run_inlineCall name hlf h]
    rfl
  obtain ⟨hargs, hstatement⟩ := parse_call hcall
  obtain ⟨replica, start, hpreorder, hsegments⟩ := parse_replica hreplica
  rw [String.toList_ofList] at hsegments
  obtain ⟨span, hspan⟩ := segmentsOf_inlineCall name h start
  exact ⟨hargs, hstatement, replica, span, hpreorder, hsegments.trans hspan⟩

/-- Commas between quotes, in inner parentheses and behind a backslash cut nothing. -/
theorem same_arguments_nested :
    let name : Word := ⟨['f'], by decide, List.forall_mem_singleton.2 (by decide)⟩
    let list := "\"a, )\", g(x, \x7d), u\\,v"
    let args := ["\"a, )\"", "g(x, \x7d)", "u\\,v"]
    let inline := "\" \x7bcall:" ++ name.text ++ "(" ++ list ++ ")\x7d"
    (tokenize ("@call:" ++ name.text ++ "(" ++ list ++ ")")).filterMap Token.argument? = args ∧
      ∃ replica span, (parseSource inline).story.preorder = [.replica replica] ∧
        replica.segments = [.inlineCall name.text args span] := by
  intro name list args inline
  obtain ⟨htokens, -, hreplica⟩ := same_arguments name list (by decide) (by decide)
  have hargs : (Text.splitArguments list.toList).map String.ofList = args := by decide
  rw [hargs] at htokens hreplica
  exact ⟨htokens, hreplica⟩

end StoryScript

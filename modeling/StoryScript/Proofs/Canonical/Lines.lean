import StoryScript.Proofs.Canonical.Calm
/-!
# How lines are read

Behind the indentation of a line the lexer takes a label, a header, a goto, a call or a choice in
one step, up to the end of the line. There is one `structural_…` lemma for each; which scanner is
meant is settled by the marks a line begins with, and what the scanner reads by the absence of marks
in words.
-/

namespace StoryScript.Canonical

open Token (Kind)
open Lexer (State run)

/-! ## The pieces of a row -/

/-- The end of a line. -/
def lineFeed : Piece := .token .newline ['\n']

/-- What is read behind the name of a mark. -/
def Mark.valuePieces (m : Mark) : List Piece :=
  match m.value with
  | none => [.gap []]
  | some w => [.token (.tagValue (String.ofList (' ' :: w.chars))) (' ' :: w.chars), .gap []]

/-- What is read of a label. -/
def Label.pieces : Label → List Piece
  | tag m => .token (.tag m.name.text) ('@' :: m.name.chars) :: m.valuePieces
  | choiceTag m =>
    .token (.choiceTag (String.ofList ('@' :: m.name.chars))) ('@' :: '@' :: m.name.chars) ::
      m.valuePieces

/-- One line of a replica. -/
def speech (p : Phrase) : Piece := .token (.speech (String.ofList p.chars)) p.chars

/-- The lines of a replica at a level. -/
def speeches (level : Nat) : Phrase → List Phrase → List Piece
  | p, [] => [speech p]
  | p, q :: qs => speech p :: lineFeed :: .gap (indent level) :: speeches level q qs

/-- The pieces of a leaf before `rest`. -/
def Leaf.pieces (level : Nat) (rest : List Char) : Leaf → List Piece
  | goto target =>
    [.token (.goto "->") ['-', '>'], .gap [' '], .gap [],
      .token (.identifier target.text) target.chars, .gap []]
  | call name first others =>
    [.token (.call name.text) (callMark ++ name.chars),
      .arguments ⟨first.chars, others.map (' ' :: ·.chars), true, rest⟩]
  | replica first others => .token .replicaBegin ['"', ' '] :: speeches level first others

/-- The pieces of a row before `rest`. -/
def Row.pieces (level : Nat) (rest : List Char) : Row → List Piece
  | label l => l.pieces
  | header name =>
    [.token .header ['=', '='], .gap [' '], .token (.identifier name.text) name.chars]
  | leaf l => l.pieces level rest
  | choice none => [.token .choice ['+'], .gap []]
  | choice (some p) =>
    [.token .choice ['+'], .mark (.choiceBound true),
      .token (.choiceText (String.ofList (' ' :: p.chars))) (' ' :: p.chars),
      .mark (.choiceBound true), .gap []]

/-- Whether a replica is open behind a row. -/
def Row.opens : Row → Bool
  | leaf (.replica ..) => true
  | _ => false

/-- Lines at a level, behind what indents the first of them. -/
def unindented (level : Nat) : List (List Char) → List Char
  | [] => []
  | line :: lines => line ++ '\n' :: linesAt level lines

theorem linesAt_cons (level : Nat) (line : List Char) (lines : List (List Char)) :
    linesAt level (line :: lines) = indent level ++ unindented level (line :: lines) := by
  simp [linesAt, unindented]

/-! ## Places in a line -/

/-- The start of a line at a level. -/
def lineState (opened : Bool) (level : Nat) : State :=
  { mode := if opened then .replica else .structural, level := level }

/-- Behind the indentation of a line, where no replica is open. -/
def inLine (level : Nat) : State := { freshLine := false, level := level }

variable {n : Nat} {c : Char} {cs rest : List Char}

theorem run_newline (s : State) (rest : List Char) :
    run s ('\n' :: rest) = lineFeed :: run { s with freshLine := true, behind := {} } rest := by
  rw [run]
  rfl

theorem run_scan {s : State} (hf : s.freshLine = false) (hn : atNewline (c :: cs) = false) :
    run s (c :: cs) = (s.scan c cs).pieces ++ run (s.scan c cs).state (s.scan c cs).rest := by
  have hs : { s with freshLine := false } = s := by rw [← hf]
  have hstep : s.step c cs = s.scan c cs := by
    simp [State.step, hn, hs, State.measures, hf]
  rw [run, hstep]

/-- A step in a line that reads all of it. -/
theorem run_line {pieces : List Piece} (hn : atNewline (c :: cs) = false)
    (h : (inLine n).structural c cs = (inLine n).read pieces ('\n' :: rest)) :
    run (inLine n) (c :: cs) = pieces ++ lineFeed :: run (lineState false n) rest := by
  have hscan : (inLine n).scan c cs = (inLine n).read pieces ('\n' :: rest) := h
  rw [run_scan rfl hn, hscan, State.rest_read, run_newline]
  rfl

/-! ## Labels -/

theorem not_endsName (h : c.isAlphanum = true) : State.endsName (c :: cs) = false := by
  have hl : atLineEnd (c :: cs) = false := not_atNewline (isCalm_of_isAlphanum h)
  simp [State.endsName, hl, not_isSpacer_of_isAlphanum h]

theorem isCalm_of_mem_valueChars (m : Mark) : ∀ c ∈ m.valueChars, isCalm c = true := by
  obtain ⟨name, - | w⟩ := m
  · exact nofun
  · exact List.forall_mem_cons.2 ⟨rfl, w.isCalm_of_mem⟩

theorem readValue_eq (m : Mark) (b : Lookbehind) :
    readUntil (fun b cs => atLineEnd cs || b.startsToken cs) b (m.valueChars ++ '\n' :: rest) =
      (m.valueChars, '\n' :: rest) := by
  refine readUntil_eq ?_ rfl
  intro b c hc cs
  have hcalm := isCalm_of_mem_valueChars m c hc
  have hl : atLineEnd (c :: cs) = false := not_atNewline hcalm
  simp [hl, not_startsToken hcalm]

/-- A tag whose name has nothing in it to stop at. -/
theorem tag_eq (kind : String → Kind) {name : List Char} (m : Mark) (hne : name ≠ [])
    (hname : ∀ c ∈ name, ∀ cs, State.endsName (c :: cs) = false) :
    (inLine n).tag kind ('@' :: (name ++ (m.valueChars ++ '\n' :: rest))) =
      (inLine n).read (.token (kind (String.ofList name)) ('@' :: name) :: m.valuePieces)
        ('\n' :: rest) := by
  have hread : ∀ b, readUntil (fun _ cs => State.endsName cs) b
      (name ++ (m.valueChars ++ '\n' :: rest)) = (name, m.valueChars ++ '\n' :: rest) := by
    intro b
    refine readUntil_eq (fun _ => hname) ?_
    unfold Mark.valueChars
    cases m.value <;> rfl
  unfold State.tag
  simp only [List.take_succ_cons, List.take_zero, List.drop_succ_cons, List.drop_zero, hread,
    readValue_eq, List.singleton_append]
  rw [if_neg (by simpa using hne)]
  cases hv : m.value with
  | none => simp [Mark.valuePieces, Mark.valueChars, hv, Text.allBlank]
  | some w =>
    have hb : Text.allBlank (' ' :: w.chars) = false := w.not_allBlank [' ']
    have he : Text.trimEnd (' ' :: w.chars) = ' ' :: w.chars := w.trimEnd_eq [' ']
    have ht : Text.trailing (' ' :: w.chars) = [] := trailing_eq_nil he
    simp [Mark.valuePieces, Mark.valueChars, hv, hb, Piece.trimmedEnd, he, ht]

/-- A mark with a colon in it does not begin where a word without one stands, if what ends the word
is not in the mark either. -/
theorem not_isPrefixOf_word {mark word : List Char} {sep : Char} (hcolon : ':' ∈ mark)
    (hsep : sep ∉ mark) (hword : ':' ∉ word) : mark.isPrefixOf (word ++ sep :: rest) = false := by
  induction mark generalizing word with
  | nil => cases hcolon
  | cons m ms ih =>
    cases word with
    | nil => exact not_isPrefixOf ms fun h => hsep (by simp [h])
    | cons d ds =>
      rw [List.cons_append, List.isPrefixOf_cons_cons, Bool.and_eq_false_iff]
      by_cases hd : m = d
      · subst hd
        have hm : ':' ≠ m := fun h => hword (by rw [← h]; simp)
        refine .inr (ih ?_ (fun h => hsep (by simp [h])) fun h => hword (by simp [h]))
        exact (List.mem_cons.1 hcolon).resolve_left hm
      · exact .inl (by simpa using hd)

/-- `@call` is a tag like any other: only the colon makes a call. -/
theorem not_atCall (m : Mark) (b : Lookbehind) :
    ¬b.atCall ('@' :: (m.chars ++ '\n' :: rest)) = true := by
  have hcolon : ':' ∉ m.name.chars := fun h => absurd (m.name.alphanumeric _ h) (by decide)
  obtain ⟨sep, ds, hsep, hds⟩ : ∃ sep ds, (sep = ' ' ∨ sep = '\n') ∧
      m.valueChars ++ '\n' :: rest = sep :: ds := by
    obtain ⟨name, - | w⟩ := m
    · exact ⟨_, _, .inr rfl, rfl⟩
    · exact ⟨_, _, .inl rfl, rfl⟩
  have hmark : callMark.isPrefixOf ('@' :: (m.chars ++ '\n' :: rest)) = false := by
    rw [Mark.chars, List.append_assoc, hds, ← List.cons_append]
    refine not_isPrefixOf_word (by decide) ?_ (by simp [hcolon])
    rcases hsep with rfl | rfl <;> decide
  simp [Lookbehind.atCall, hmark]

theorem not_atChoiceTag (m : Mark) (b : Lookbehind) :
    ¬b.atChoiceTag ('@' :: (m.chars ++ '\n' :: rest)) = true := by
  intro h
  obtain ⟨ds, hds⟩ := Lookbehind.cons_of_atChoiceTag h
  obtain ⟨c, cs, hw, hc⟩ := m.name.exists_cons
  rw [Mark.chars, hw] at hds
  obtain rfl : c = '@' := (List.cons.inj (List.cons.inj hds).2).1
  exact absurd hc (by decide)

theorem structural_tag (m : Mark) :
    (inLine n).structural '@' (m.chars ++ '\n' :: rest) =
      (inLine n).read (Label.tag m).pieces ('\n' :: rest) := by
  have hstruct : (inLine n).structural '@' (m.chars ++ '\n' :: rest) =
      (inLine n).tag .tag ('@' :: (m.chars ++ '\n' :: rest)) := by
    unfold State.structural
    -- neither a space nor a comment of either kind begins with this sign
    refine (if_neg Bool.false_ne_true).trans ?_
    refine (if_neg Bool.false_ne_true).trans ?_
    refine (if_neg Bool.false_ne_true).trans ?_
    rw [if_neg (not_atCall m _), if_neg (not_atChoiceTag m _)]
    exact if_pos rfl
  rw [hstruct, Mark.chars, List.append_assoc]
  exact tag_eq .tag m m.name.ne_nil fun c hc cs => not_endsName (m.name.alphanumeric c hc)

theorem structural_choiceTag (m : Mark) :
    (inLine n).structural '@' ('@' :: m.chars ++ '\n' :: rest) =
      (inLine n).read (Label.choiceTag m).pieces ('\n' :: rest) := by
  have hstruct : (inLine n).structural '@' ('@' :: m.chars ++ '\n' :: rest) =
      (inLine n).tag .choiceTag ('@' :: ('@' :: m.name.chars ++ (m.valueChars ++ '\n' :: rest))) := by
    rw [Mark.chars, ← List.append_assoc, ← List.cons_append]
    rfl
  rw [hstruct]
  -- the second sign is part of the name
  refine tag_eq .choiceTag m (by simp) fun c hc cs => ?_
  rcases List.mem_cons.1 hc with rfl | hc
  · rfl
  · exact not_endsName (m.name.alphanumeric c hc)

/-! ## Headers, gotos and choices -/

theorem span_spacer (w : Word) :
    (' ' :: (w.chars ++ rest)).takeWhile isSpacer = [' '] ∧
      (' ' :: (w.chars ++ rest)).dropWhile isSpacer = w.chars ++ rest := by
  obtain ⟨c, cs, hw, hc⟩ := w.exists_cons
  have hspan := @span_append Char isSpacer [' '] (cs ++ rest) c (List.forall_mem_singleton.2 rfl)
    (not_isSpacer_of_isAlphanum hc)
  rw [hw]
  exact hspan

theorem structural_header (w : Word) :
    (inLine n).structural '=' ('=' :: ' ' :: (w.chars ++ '\n' :: rest)) =
      (inLine n).read ((Row.header w).pieces n ('\n' :: rest)) ('\n' :: rest) := by
  change (inLine n).header ('=' :: '=' :: ' ' :: (w.chars ++ '\n' :: rest)) = _
  have hread : ∀ b, readUntil (fun b cs => State.endsName cs || b.atComment cs) b
      (w.chars ++ '\n' :: rest) = (w.chars, '\n' :: rest) := by
    intro b
    refine readUntil_eq (fun b c hc cs => ?_) rfl
    have hc := w.alphanumeric c hc
    simp [not_endsName hc, not_atComment (isCalm_of_isAlphanum hc)]
  have hne : w.chars.isEmpty = false := by simpa using w.ne_nil
  unfold State.header
  simp only [List.drop_succ_cons, List.drop_zero, span_spacer, hread, hne]
  rfl

theorem structural_goto (w : Word) :
    (inLine n).structural '-' ('>' :: ' ' :: (w.chars ++ '\n' :: rest)) =
      (inLine n).read ((Leaf.goto w).pieces n ('\n' :: rest)) ('\n' :: rest) := by
  change (inLine n).goto ('-' :: '>' :: ' ' :: (w.chars ++ '\n' :: rest)) = _
  have hread : ∀ b, readUntil (fun b cs => atLineEnd cs || b.atComment cs) b
      (w.chars ++ '\n' :: rest) = (w.chars, '\n' :: rest) := by
    intro b
    refine readUntil_eq (fun b c hc cs => ?_) rfl
    have hc := w.isCalm_of_mem c hc
    have hl : atLineEnd (c :: cs) = false := not_atNewline hc
    simp [hl, not_atComment hc]
  have hb : Text.allBlank w.chars = false := w.not_allBlank []
  have hs : Text.trimStart w.chars = w.chars := trimStart_eq w.not_isBlank_of_mem
  have hl : Text.leading w.chars = [] := leading_eq_nil hs
  have ht : Text.trailing w.chars = [] := trailing_eq_nil (w.trimEnd_eq [])
  unfold State.goto
  simp only [List.drop_succ_cons, List.drop_zero, span_spacer, hread, hb, Piece.trimmed, hl,
    w.trim_eq, hs, ht]
  rfl

theorem structural_choice (text : Option Phrase) :
    (inLine n).structural '+' ((text.map fun p => ' ' :: p.chars).getD [] ++ '\n' :: rest) =
      (inLine n).read ((Row.choice text).pieces n ('\n' :: rest)) ('\n' :: rest) := by
  cases text with
  | none =>
    change (inLine n).choice ('+' :: '\n' :: rest) = _
    unfold State.choice
    simp only [List.drop_succ_cons, List.drop_zero]
    have hread : ∀ b, readText (fun b cs => b.atComment cs) none b ('\n' :: rest) =
        ([], '\n' :: rest) := by
      intro b
      rw [← List.nil_append ('\n' :: rest)]
      exact readText_eq nofun fun b c cs hc => not_atComment hc
    rw [hread]
    rfl
  | some p =>
    change (inLine n).choice ('+' :: ' ' :: (p.chars ++ '\n' :: rest)) = _
    have hread : ∀ b, readText (fun b cs => b.atComment cs) none b
        (' ' :: (p.chars ++ '\n' :: rest)) = (' ' :: p.chars, '\n' :: rest) := by
      intro b
      rw [← List.cons_append]
      exact readText_eq (List.forall_mem_cons.2 ⟨rfl, p.isCalm_of_mem⟩)
        fun b c cs hc => not_atComment hc
    have hb : Text.allBlank (' ' :: p.chars) = false := p.not_allBlank [' ']
    have he : Text.trimEnd (' ' :: p.chars) = ' ' :: p.chars := p.trimEnd_eq [' ']
    have ht : Text.trailing (' ' :: p.chars) = [] := trailing_eq_nil he
    have hbound : boundMark.isPrefixOf ((' ' :: (p.chars ++ '\n' :: rest)).dropWhile isSpacer) =
        false := by
      obtain ⟨c, cs, hp, hc⟩ := p.exists_cons
      rw [hp, List.dropWhile_cons_of_pos rfl, List.cons_append,
        List.dropWhile_cons_of_neg (by simp [not_isSpacer_of_isAlphanum hc])]
      exact not_isPrefixOf _ (ne_of_isCalm (isCalm_of_isAlphanum hc) (by decide))
    unfold State.choice
    simp only [List.drop_succ_cons, List.drop_zero, hbound, hread, hb, he, ht]
    rfl

/-! ## Calls -/

variable {b : Lookbehind}

theorem readArguments_close (hb : b.escaped = false) :
    readArguments 1 false b (')' :: rest) = ⟨[], [], true, rest⟩ := by
  have hl : atLineEnd (')' :: rest) = false := rfl
  rw [readArguments]
  simp [hl, hb]

theorem readArguments_comma (hb : b.escaped = false) :
    readArguments 1 false b (',' :: cs) = (readArguments 1 false (b.next ',') cs).cut := by
  have hl : atLineEnd (',' :: cs) = false := rfl
  rw [readArguments]
  simp [hl, hb]

/-- Calm text in front of a list of arguments. -/
theorem readArguments_calm {text first : List Char} {others : List (List Char)} {closed : Bool}
    (ht : ∀ c ∈ text, isCalm c = true) (hb : b.escaped = false)
    (h : readArguments 1 false (b.past text) cs = ⟨first, others, closed, rest⟩) :
    readArguments 1 false b (text ++ cs) = ⟨text ++ first, others, closed, rest⟩ := by
  induction text generalizing b with
  | nil => exact h
  | cons c ds ih =>
    have hc := ht c (by simp)
    have hl : atLineEnd (c :: (ds ++ cs)) = false := not_atNewline hc
    have h1 : c ≠ '"' := ne_of_isCalm hc (by decide)
    have h2 : c ≠ '(' := ne_of_isCalm hc (by decide)
    have h3 : c ≠ ')' := ne_of_isCalm hc (by decide)
    have h4 : c ≠ ',' := ne_of_isCalm hc (by decide)
    rw [List.cons_append, readArguments]
    simp only [hl, hb, h1, h2, h3, h4, false_and, if_false, Bool.false_eq_true]
    rw [ih (fun d hd => ht d (by simp [hd])) (escaped_next hc) h]
    rfl

theorem readArguments_others (ws : List Word) (hb : b.escaped = false) :
    readArguments 1 false b (ws.flatMap (fun w => ',' :: ' ' :: w.chars) ++ ')' :: rest) =
      ⟨[], ws.map (' ' :: ·.chars), true, rest⟩ := by
  induction ws generalizing b with
  | nil => exact readArguments_close hb
  | cons w ws ih =>
    have hcalm : ∀ c ∈ ' ' :: w.chars, isCalm c = true :=
      List.forall_mem_cons.2 ⟨rfl, w.isCalm_of_mem⟩
    have hnext : (b.next ',').escaped = false := rfl
    rw [List.flatMap_cons, List.append_assoc, List.cons_append, readArguments_comma hb,
      readArguments_calm hcalm hnext (ih (escaped_past hcalm hnext))]
    simp [ArgumentList.cut]

theorem readArguments_list (first : Word) (others : List Word) (hb : b.escaped = false) :
    readArguments 1 false b
        (first.chars ++ (others.flatMap (fun w => ',' :: ' ' :: w.chars) ++ ')' :: rest)) =
      ⟨first.chars, others.map (' ' :: ·.chars), true, rest⟩ := by
  have hothers := @readArguments_others rest (b.past first.chars) others
    (escaped_past first.isCalm_of_mem hb)
  rw [readArguments_calm first.isCalm_of_mem hb hothers, List.append_nil]

theorem atParenthesis_past (w : Word) (hb : b.escaped = false) :
    (b.past w.chars).atParenthesis ('(' :: cs) = true := by
  change (!(b.past w.chars).escaped) = true
  rw [escaped_past w.isCalm_of_mem hb]
  rfl

theorem readCallName_eq (w : Word) (hb : b.escaped = false) :
    readUntil (fun b cs => State.endsName cs || b.atParenthesis cs) b (w.chars ++ '(' :: cs) =
      (w.chars, '(' :: cs) := by
  refine readUntil_eq (fun b c hc cs => ?_) (by simp [atParenthesis_past w hb])
  have hc := w.alphanumeric c hc
  have hp : ¬b.atParenthesis (c :: cs) = true := by
    intro h
    obtain ⟨ds, hds⟩ := Lookbehind.cons_of_atParenthesis h
    exact ne_of_isCalm (isCalm_of_isAlphanum hc) (by decide) (List.cons.inj hds).1
  simp [not_endsName hc, hp]

theorem structural_call (name first : Word) (others : List Word) :
    (inLine n).structural '@' ("call:".toList ++ (name.chars ++ '(' :: (first.chars ++
        (others.flatMap (fun w => ',' :: ' ' :: w.chars) ++ ')' :: '\n' :: rest)))) =
      (inLine n).read ((Leaf.call name first others).pieces n ('\n' :: rest)) ('\n' :: rest) := by
  generalize hargs : first.chars ++
    (others.flatMap (fun w => ',' :: ' ' :: w.chars) ++ ')' :: '\n' :: rest) = args
  change (inLine n).call (callMark ++ (name.chars ++ '(' :: args)) = _
  have hmark : ((inLine n).behind.past callMark).escaped = false := rfl
  have hlist : ∀ b : Lookbehind, b.escaped = false → readArguments 1 false b args =
      ⟨first.chars, others.map (' ' :: ·.chars), true, '\n' :: rest⟩ := by
    intro b hb
    rw [← hargs, readArguments_list first others hb]
  unfold State.call
  simp only [List.take_left, List.drop_left, Lookbehind.past_append, readCallName_eq name hmark,
    atParenthesis_past name hmark, if_true, List.drop_succ_cons, List.drop_zero]
  rw [hlist _ rfl]
  rfl

end StoryScript.Canonical

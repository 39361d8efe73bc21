import StoryScript.Proofs.Text.Margins
import StoryScript.Text.Arguments
/-!
# Arguments put together

Arguments are cut apart at commas, and joining them with commas is the way back. What a comma does
depends on the parentheses, quotes and backslashes before it, of which `FieldScan` keeps count. A
text is one argument (`IsArgument`) if the count behind it is the count before it and none of its
commas cuts. So each argument is read with a fresh count, and a text is split into the arguments that
were joined, whatever white space is around the commas (`splitArguments_joined`).
-/

namespace StoryScript.Text

/-! ## Following a text -/

/-- A scan that keeps of each character whether it is a backslash is behind one if the text ends with
one. -/
theorem escaped_foldl {α : Type} {next : α → Char → α} {escaped : α → Bool}
    (h : ∀ a c, escaped (next a c) = (c == '\\')) {text : List Char} (hne : text ≠ []) (a : α) :
    escaped (text.foldl next a) = true ↔ text.getLast? = some '\\' := by
  rcases text.eq_nil_or_concat with rfl | ⟨front, c, rfl⟩
  · exact absurd rfl hne
  · rw [List.concat_eq_append, List.foldl_append, List.foldl_cons, List.foldl_nil, h,
      List.getLast?_concat]
    simp

/-- How far a text has been followed. The default is before its first character. -/
structure FieldScan where
  /-- How many more parentheses were opened than closed. -/
  depth : Int := 0
  /-- A double quote is open. -/
  quoted : Bool := false
  /-- The character before is a backslash. -/
  escaped : Bool := false
deriving DecidableEq, Repr

namespace FieldScan

/-- The scan after a character. What stands behind a backslash counts for nothing, and neither does
a parenthesis between quotes. -/
def next (p : FieldScan) (c : Char) : FieldScan :=
  let q := { p with escaped := c == '\\' }
  if p.escaped then q
  else if c = '"' then { q with quoted := !p.quoted }
  else if p.quoted then q
  else if c = '(' then { q with depth := p.depth + 1 }
  else if c = ')' then { q with depth := p.depth - 1 }
  else q

/-- The scan after a text. -/
def past (p : FieldScan) (text : List Char) : FieldScan := text.foldl next p

/-- Whether a character ends the field: a comma at depth zero, not escaped and not in quotes. -/
def cuts (p : FieldScan) (c : Char) : Bool := c == ',' && !p.escaped && !p.quoted && p.depth == 0

/-- No character of a text ends the field. -/
def Uncut (p : FieldScan) (text : List Char) : Prop :=
  ∀ i, (h : i < text.length) → (p.past (text.take i)).cuts text[i] = false

instance (p : FieldScan) (text : List Char) : Decidable (p.Uncut text) :=
  inferInstanceAs (Decidable
    (∀ i, (h : i < text.length) → (p.past (text.take i)).cuts text[i] = false))

/-- The field that a text begins with and the fields behind it. -/
def fields (p : FieldScan) (text : List Char) : List Char × List (List Char) :=
  splitFields p.depth p.quoted p.escaped text

variable {p : FieldScan} {c : Char} {cs text : List Char}

theorem past_cons (p : FieldScan) (c : Char) (cs : List Char) :
    p.past (c :: cs) = (p.next c).past cs := rfl

theorem past_append (p : FieldScan) (text cs : List Char) :
    p.past (text ++ cs) = (p.past text).past cs := List.foldl_append

theorem escaped_next (p : FieldScan) (c : Char) : (p.next c).escaped = (c == '\\') := by
  unfold next
  repeat' split
  all_goals rfl

theorem escaped_past (hne : text ≠ []) (p : FieldScan) :
    (p.past text).escaped = true ↔ text.getLast? = some '\\' := escaped_foldl escaped_next hne p

theorem uncut_cons : p.Uncut (c :: cs) ↔ p.cuts c = false ∧ (p.next c).Uncut cs := by
  constructor
  · intro h
    refine ⟨h 0 (Nat.succ_pos _), fun i hi => ?_⟩
    exact h (i + 1) (Nat.succ_lt_succ hi)
  · rintro ⟨hc, hcs⟩ i hi
    cases i with
    | zero => exact hc
    | succ i => exact hcs i (Nat.lt_of_succ_lt_succ hi)

theorem uncut_append : p.Uncut (text ++ cs) ↔ p.Uncut text ∧ (p.past text).Uncut cs := by
  induction text generalizing p with
  | nil => exact (and_iff_right nofun).symm
  | cons c text ih => rw [List.cons_append, uncut_cons, ih, uncut_cons, and_assoc, past_cons]

/-! ## White space -/

theorem ne_of_isBlank {d : Char} (hc : isBlank c = true) (hd : isBlank d = false) : c ≠ d := by
  rintro rfl
  rw [hd] at hc
  cases hc

/-- White space where nothing is escaped leaves the scan as it is. -/
theorem next_of_isBlank (hp : p.escaped = false) (hc : isBlank c = true) : p.next c = p := by
  have hne : ∀ d, isBlank d = false → c ≠ d := fun d => ne_of_isBlank hc
  have he : (c == '\\') = false := by simpa using hne '\\' (by decide)
  obtain ⟨depth, quoted, escaped⟩ := p
  obtain rfl : escaped = false := hp
  simp [next, he, hne '"' (by decide), hne '(' (by decide), hne ')' (by decide)]

theorem not_cuts_of_isBlank (hc : isBlank c = true) : p.cuts c = false := by
  have hne : c ≠ ',' := ne_of_isBlank hc (by decide)
  simp [cuts, hne]

theorem past_of_allBlank (hp : p.escaped = false) (h : allBlank text = true) : p.past text = p := by
  induction text with
  | nil => rfl
  | cons c cs ih =>
    rw [allBlank, List.all_cons, Bool.and_eq_true] at h
    rw [past_cons, next_of_isBlank hp h.1, ih h.2]

theorem uncut_of_allBlank (h : allBlank text = true) (p : FieldScan) : p.Uncut text := by
  intro i hi
  exact not_cuts_of_isBlank (List.all_eq_true.1 h _ (List.getElem_mem hi))

/-! ## Fields -/

/-- What a character does to the fields of a text. -/
theorem fields_cons (p : FieldScan) (c : Char) (cs : List Char) :
    p.fields (c :: cs) =
      let r := (p.next c).fields cs
      if p.cuts c then ([], r.1 :: r.2) else (c :: r.1, r.2) := by
  obtain ⟨depth, quoted, escaped⟩ := p
  unfold fields
  rw [splitFields]
  unfold next cuts
  cases escaped with
  | true => simp
  | false =>
    cases quoted with
    | true => by_cases hc : c = '"' <;> simp [hc]
    | false =>
      by_cases hquote : c = '"'
      · simp [hquote]
      by_cases hopen : c = '('
      · simp [hopen]
      by_cases hclose : c = ')'
      · simp [hclose]
      by_cases hcomma : c = ','
      · by_cases hdepth : depth = 0 <;> simp [hcomma, hdepth]
      · simp [hquote, hopen, hclose, hcomma]

/-- What no comma cuts is the beginning of a field. -/
theorem fields_append (h : p.Uncut text) (cs : List Char) :
    p.fields (text ++ cs) =
      let r := (p.past text).fields cs
      (text ++ r.1, r.2) := by
  induction text generalizing p with
  | nil => rfl
  | cons c text ih =>
    obtain ⟨hc, htext⟩ := uncut_cons.1 h
    rw [List.cons_append, fields_cons, ih htext, hc, past_cons]
    rfl

end FieldScan

/-! ## Arguments -/

/-- A text that is one argument: no white space stands at its ends, it leaves nothing open, and it
holds no comma that ends a field. -/
structure IsArgument (arg : List Char) : Prop where
  ne_nil : arg ≠ []
  trimmed : IsTrimmed arg
  /-- Behind a backslash no comma ends it. -/
  not_backslash : arg.getLast? ≠ some '\\'
  depth_past : (FieldScan.past {} arg).depth = 0
  quoted_past : (FieldScan.past {} arg).quoted = false
  uncut : FieldScan.Uncut {} arg

instance (arg : List Char) : Decidable (IsArgument arg) :=
  decidable_of_iff (arg ≠ [] ∧ IsTrimmed arg ∧ arg.getLast? ≠ some '\\' ∧
      (FieldScan.past {} arg).depth = 0 ∧ (FieldScan.past {} arg).quoted = false ∧
      FieldScan.Uncut {} arg) <| by
    constructor
    · rintro ⟨hne, ht, hb, hd, hq, hu⟩
      exact ⟨hne, ht, hb, hd, hq, hu⟩
    · rintro ⟨hne, ht, hb, hd, hq, hu⟩
      exact ⟨hne, ht, hb, hd, hq, hu⟩

/-- A text of arguments with a comma between each two, and any white space around the commas. -/
inductive Joined : List (List Char) → List Char → Prop
  | nil : Joined [] []
  | single (arg : List Char) : Joined [arg] arg
  | cons {arg next : List Char} {args : List (List Char)} {text : List Char}
      (before after : List Char) (hbefore : allBlank before = true)
      (hafter : allBlank after = true) (h : Joined (next :: args) text) :
      Joined (arg :: next :: args) (arg ++ before ++ ',' :: (after ++ text))

section
variable {arg : List Char} {args : List (List Char)} {text : List Char}

/-- Behind an argument a scan stands as before it. -/
theorem IsArgument.past_eq (h : IsArgument arg) : FieldScan.past {} arg = {} := by
  have hescaped : (FieldScan.past {} arg).escaped = false := by
    rw [← Bool.not_eq_true, FieldScan.escaped_past h.ne_nil]
    exact h.not_backslash
  have hdepth := h.depth_past
  have hquoted := h.quoted_past
  generalize FieldScan.past {} arg = q at hescaped hdepth hquoted
  obtain ⟨depth, quoted, escaped⟩ := q
  dsimp only at hescaped hdepth hquoted
  rw [hescaped, hdepth, hquoted]

theorem splitArguments_eq (text : List Char) :
    splitArguments text =
      (((FieldScan.fields {} text).1 :: (FieldScan.fields {} text).2).map trim).filter
        (!·.isEmpty) := rfl

/-- White space before the first argument is cut off. -/
theorem splitArguments_blank_append (h : allBlank text = true) (cs : List Char) :
    splitArguments (text ++ cs) = splitArguments cs := by
  rw [splitArguments_eq, FieldScan.fields_append (FieldScan.uncut_of_allBlank h {}),
    FieldScan.past_of_allBlank rfl h]
  simp only [List.map_cons, trim_blank_append h, splitArguments_eq]

/-- An argument, up to its comma. -/
theorem splitArguments_cons (harg : IsArgument arg) {before : List Char}
    (hbefore : allBlank before = true) (cs : List Char) :
    splitArguments (arg ++ before ++ ',' :: cs) = arg :: splitArguments cs := by
  have huncut : FieldScan.Uncut {} (arg ++ before) := by
    refine FieldScan.uncut_append.2 ⟨harg.uncut, ?_⟩
    exact FieldScan.uncut_of_allBlank hbefore _
  have hpast : FieldScan.past {} (arg ++ before) = {} := by
    rw [FieldScan.past_append, harg.past_eq, FieldScan.past_of_allBlank rfl hbefore]
  have hfields : FieldScan.fields {} (arg ++ before ++ ',' :: cs) =
      (arg ++ before, (FieldScan.fields {} cs).1 :: (FieldScan.fields {} cs).2) := by
    rw [FieldScan.fields_append huncut, hpast, FieldScan.fields_cons]
    simp [FieldScan.cuts, FieldScan.next]
  have htrim : trim (arg ++ before) = arg := by
    rw [trim_append_blank hbefore, harg.trimmed.trim_eq]
  have hne : (!arg.isEmpty) = true := by simpa using harg.ne_nil
  rw [splitArguments_eq, hfields, List.map_cons, htrim, List.filter_cons, if_pos hne,
    splitArguments_eq]

theorem splitArguments_single (harg : IsArgument arg) : splitArguments arg = [arg] := by
  have hfields : FieldScan.fields {} arg = (arg, []) := by
    have h := FieldScan.fields_append harg.uncut []
    rw [List.append_nil, harg.past_eq] at h
    simpa [FieldScan.fields, splitFields] using h
  have hne : (!arg.isEmpty) = true := by simpa using harg.ne_nil
  rw [splitArguments_eq, hfields, List.map_cons, harg.trimmed.trim_eq, List.filter_cons, if_pos hne]
  rfl

/-- Nothing is split off but what is trimmed, and no empty text. -/
theorem trimmed_splitArguments (text : List Char) :
    ∀ arg ∈ splitArguments text, arg ≠ [] ∧ IsTrimmed arg := by
  intro arg h
  obtain ⟨hmem, hne⟩ := List.mem_filter.1 h
  obtain ⟨field, -, rfl⟩ := List.mem_map.1 hmem
  exact ⟨by simpa using hne, isTrimmed_trim field⟩

end

/-- Arguments that are joined by commas are split into the same arguments. Whatever a text is, its
arguments are not empty and have no white space at their ends. -/
theorem splitArguments_joined (args : List (List Char)) (text : List Char) :
    ((∀ arg ∈ args, IsArgument arg) → Joined args text → splitArguments text = args) ∧
      ∀ arg ∈ splitArguments text, arg ≠ [] ∧ IsTrimmed arg := by
  refine ⟨fun hargs h => ?_, trimmed_splitArguments text⟩
  induction h with
  | nil => rfl
  | single arg => exact splitArguments_single (hargs arg List.mem_cons_self)
  | cons before after hbefore hafter _ ih =>
    obtain ⟨harg, hrest⟩ := List.forall_mem_cons.1 hargs
    rw [splitArguments_cons harg hbefore, splitArguments_blank_append hafter, ih hrest]

/-- Commas between quotes, between parentheses, below depth zero and behind a backslash stay. -/
theorem splitArguments_joined_nested :
    let args := ["f(a, b)", "\"c, (d\"", "),(", "u\\,\\\"v"].map String.toList
    let text := "f(a, b) ,\t\"c, (d\",),(\u00a0, u\\,\\\"v".toList
    (∀ arg ∈ args, IsArgument arg) ∧ Joined args text ∧ splitArguments text = args ∧
      ∀ arg ∈ splitArguments text, arg ≠ [] ∧ IsTrimmed arg := by
  intro args text
  have hargs : ∀ arg ∈ args, IsArgument arg := by decide
  have hjoined : Joined args text :=
    .cons [' '] ['\t'] (by decide) (by decide) <| .cons [] [] (by decide) (by decide) <|
      .cons ['\u00a0'] [' '] (by decide) (by decide) (.single _)
  obtain ⟨hsplit, htrimmed⟩ := splitArguments_joined args text
  exact ⟨hargs, hjoined, hsplit hargs hjoined, htrimmed⟩

end StoryScript.Text

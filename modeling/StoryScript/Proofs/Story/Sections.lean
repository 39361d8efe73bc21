import StoryScript.Proofs.Story.Joining
import StoryScript.Proofs.Story.Statements
/-!
# Which sections there are

A story has one section for each header with a name, and one for what stands before the first header
if anything there asks for it. Each holds the statements that begin in its own window and no others
(`sections_found`). A header without a name is an error, and whatever stands behind it up to the next
header has no effect at all: without those tokens the same is read and the same is said.
-/

namespace StoryScript

open Token (Kind)

/-! ## Headers and windows -/

/-- Each header, with the tokens behind it. -/
def headers : List Token → List (Token × List Token)
  | [] => []
  | t :: ts => if t.kind = .header then (t, ts) :: headers ts else headers ts

/-- The tokens up to the next header. -/
def upToHeader (ts : List Token) : List Token := ts.takeWhile (·.kind ≠ .header)

/-- The name that tokens begin with. -/
def nameAt? : List Token → Option String
  | ⟨.identifier name, _⟩ :: _ => some name
  | _ => none

theorem windows_eq (ts : List Token) :
    windows ts = (upToHeader ts, (headers ts).map fun h => (h.1, upToHeader h.2)) := by
  induction ts with
  | nil => rfl
  | cons t ts ih =>
    by_cases h : t.kind = .header
    · simp [windows, ih, headers, upToHeader, h]
    · simp [windows, ih, headers, upToHeader, h]

theorem nameAt?_upToHeader (ts : List Token) : nameAt? (upToHeader ts) = nameAt? ts := by
  cases ts with
  | nil => rfl
  | cons t ts =>
    obtain ⟨kind, span⟩ := t
    cases kind <;> rfl

theorem isSome_nameAt? (ts : List Token) : (nameAt? ts).isSome = beginsWithName ts := by
  cases ts with
  | nil => rfl
  | cons t ts =>
    obtain ⟨kind, span⟩ := t
    cases kind <;> rfl

/-! ## Sections -/

/-- A section by its name and by where its statements begin and what they are. -/
def Section.entry (s : Section) : String × List Outline :=
  (s.name, s.preorder.map Statement.outline)

/-- A name and the statements that begin at tokens. -/
def entryOf (ts : List Token) (name : String) : String × List Outline :=
  (name, collect Token.outline ts)

/-- The kinds that stand before the first header without asking for a section: line ends and
comments, levels and tags. -/
def Token.Kind.asksSection : Kind → Bool
  | .newline | .comment _ | .commentText _ | .commentOpen | .commentClose | .indent | .dedent
  | .tag _ | .choiceTag _ | .tagValue _ => false
  | _ => true

/-- The sections of tokens with no end among them. Without a header, all is the main section. With
one, the main section is there if a token before the first header asks for it, or if there would be
no section at all. -/
def entries (ts : List Token) : List (String × List Outline) :=
  let main := entryOf (upToHeader ts) Section.mainName
  let named := (headers ts).filterMap fun h => (nameAt? h.2).map (entryOf (upToHeader h.2))
  if (headers ts).isEmpty then [main]
  else
    let all := (if (upToHeader ts).any (·.kind.asksSection) then [main] else []) ++ named
    if all.isEmpty then [(Section.mainName, [])] else all

theorem isContent_eq (t : Token) : t.isContent = t.kind.asksSection := by
  obtain ⟨kind, span⟩ := t
  cases kind <;> rfl

theorem entry_mainSection (ts us : List Token) :
    (mainSection (parseBlock [] [] ts).statements us).entry = entryOf ts Section.mainName := by
  rw [entryOf, ← outline_parseBlock]
  rfl

theorem entry_parseWindows (tags : List Tag) (ws : List (Token × List Token)) :
    (parseWindows tags ws).1.map Section.entry =
      ws.filterMap fun w => (nameAt? w.2).map (entryOf w.2) := by
  induction tags, ws using parseWindows.induct with
  | case1 tags => rfl
  | case2 tags header name span inside rest block ih =>
    have hentry : entryOf (⟨.identifier name, span⟩ :: inside) name =
        (name, (Statement.preorders block.statements).map Statement.outline) := by
      rw [entryOf, collect_identifier found_outline, ← outline_parseBlock]
    have hcons : ((header, ⟨.identifier name, span⟩ :: inside) :: rest).filterMap
          (fun w => (nameAt? w.2).map (entryOf w.2)) =
        entryOf (⟨.identifier name, span⟩ :: inside) name ::
          rest.filterMap fun w => (nameAt? w.2).map (entryOf w.2) := rfl
    rw [parseWindows, List.map_cons, ih, hcons, hentry]
    rfl
  | case3 tags header ts rest hname ih =>
    have hnone : nameAt? ts = none := by
      rw [← Option.not_isSome_iff_eq_none, isSome_nameAt?, beginsWithName_eq_false hname]
      exact Bool.false_ne_true
    rw [parseWindows, ih, List.filterMap_cons_none (by rw [hnone]; rfl)]
    exact hname

theorem entry_sections (tokens : List Token) :
    (parse tokens).story.sections.map Section.entry = entries (beforeEnd tokens) := by
  have hnamed := entry_parseWindows
    (parseBlock [] [] (upToHeader (beforeEnd tokens))).dangling (windows (beforeEnd tokens)).2
  have hcontent : (upToHeader (beforeEnd tokens)).any Token.isContent =
      (upToHeader (beforeEnd tokens)).any (·.kind.asksSection) :=
    congrArg _ (funext isContent_eq)
  rw [windows_eq, List.filterMap_map] at hnamed
  simp only [Function.comp_def, nameAt?_upToHeader] at hnamed
  unfold parse entries
  rw [← beforeEnd, windows_eq]
  dsimp only
  rw [List.isEmpty_map, hcontent, ← hnamed]
  generalize parseWindows (parseBlock [] [] (upToHeader (beforeEnd tokens))).dangling _ = later
  split
  · exact congrArg ([·]) (entry_mainSection _ _)
  · have hmain : (if (upToHeader (beforeEnd tokens)).any (·.kind.asksSection) then
          [entryOf (upToHeader (beforeEnd tokens)) Section.mainName] else []) =
        (if (upToHeader (beforeEnd tokens)).any (·.kind.asksSection) then
          [mainSection (parseBlock [] [] (upToHeader (beforeEnd tokens))).statements
            (upToHeader (beforeEnd tokens))] else []).map Section.entry := by
      split
      · exact congrArg ([·]) (entry_mainSection _ _).symm
      · rfl
    rw [hmain, ← List.map_append, List.isEmpty_map]
    exact apply_ite (List.map Section.entry) ..

/-! ## Headers without a name -/

/-- Whether a finding is a header without a name. -/
def Finding.isNameless (f : Finding) : Bool := f = .headerWithoutName

theorem Finding.isKind_headerWithoutName : IsKind isNameless fun _ : Unit => headerWithoutName where
  ctorIdx f _ := by cases f <;> rfl
  exists_eq _ h := ⟨(), of_decide_eq_true h⟩

theorem reportsItems_isNameless : ReportsItems Finding.isNameless fun _ _ => [] where
  atOpening := ⟨fun _ _ _ => rfl, fun _ _ _ _ => rfl⟩
  item t ts := by
    have htext : ∀ f : Finding, f.isOfText → f.isNameless = false := by
      intro f hf
      cases f <;> first | rfl | cases hf
    rw [reports_readItem htext]
    exact reports_eq_nil (List.forall_mem_map.2 fun _ _ => rfl)
  looseTags _ := reports_eq_nil (List.forall_mem_map.2 fun _ _ => rfl)
  looseChoiceTags _ := reports_eq_nil (List.forall_mem_map.2 fun _ _ => rfl)

theorem reports_nameless_parseBlock (tags choiceTags : List Tag) (ts : List Token) :
    reports Finding.isNameless (parseBlock tags choiceTags ts).diagnostics = [] := by
  rw [reports_parseBlock reportsItems_isNameless]
  induction ts with
  | nil => rfl
  | cons t ts ih => rw [collect, ih, List.nil_append]

theorem reports_nameless_parseWindows (tags : List Tag) (ws : List (Token × List Token)) :
    reports Finding.isNameless (parseWindows tags ws).2 =
      (ws.filter fun w => (nameAt? w.2).isNone).map fun w => ⟨.headerWithoutName, w.1.span⟩ := by
  induction tags, ws using parseWindows.induct with
  | case1 tags => exact reportsItems_isNameless.looseTags tags
  | case2 tags header name span inside rest block ih =>
    rw [parseWindows, reports_append, reports_nameless_parseBlock, ih, List.nil_append,
      List.filter_cons_of_neg (by simp [nameAt?])]
  | case3 tags header ts rest hname ih =>
    have hnone : (nameAt? ts).isNone = true := by
      rw [Option.isNone_iff_eq_none, ← Option.not_isSome_iff_eq_none, isSome_nameAt?,
        beginsWithName_eq_false hname]
      exact Bool.false_ne_true
    rw [parseWindows, List.filter_cons, if_pos hnone, List.map_cons, ← ih, List.cons_append]
    · rw [← List.singleton_append, reports_append, reports_append, reportsItems_isNameless.looseTags]
      rfl
    · exact hname

theorem reports_nameless_parse (tokens : List Token) :
    reports Finding.isNameless (parse tokens).diagnostics =
      ((headers (beforeEnd tokens)).filter fun h => (nameAt? h.2).isNone).map fun h =>
        ⟨.headerWithoutName, h.1.span⟩ := by
  rw [diagnostics_parse, reports_append, reports_nameless_parseBlock,
    reports_nameless_parseWindows, windows_eq, List.nil_append, List.filter_map, List.map_map]
  simp only [Function.comp_def, nameAt?_upToHeader]

/-! ## Windows that are not read -/

/-- Tokens without those behind a header that lacks its name, up to the next header or to the end.
The header itself stays. -/
def unmuted (muted : Bool) : List Token → List Token
  | [] => []
  | t :: ts =>
    if t.kind = .eof then t :: ts
    else if t.kind = .header then t :: unmuted (!beginsWithName ts) ts
    else if muted then unmuted true ts
    else t :: unmuted false ts

/-- A window of which only the header is left if it lacks its name. -/
def emptied (w : Token × List Token) : Token × List Token :=
  if beginsWithName w.2 then w else (w.1, [])

theorem windows_unmuted (muted : Bool) (tokens : List Token) :
    windows (beforeEnd (unmuted muted tokens)) =
      (if muted then [] else (windows (beforeEnd tokens)).1,
        (windows (beforeEnd tokens)).2.map emptied) := by
  induction tokens generalizing muted with
  | nil => cases muted <;> rfl
  | cons t ts ih =>
    have hcons : t.kind ≠ .eof → ∀ us, beforeEnd (t :: us) = t :: beforeEnd us := by
      intro he us
      simp [beforeEnd, he]
    rw [unmuted]
    by_cases he : t.kind = .eof
    · rw [if_pos he]
      cases muted <;> simp [beforeEnd, he, windows]
    · rw [if_neg he, hcons he]
      by_cases hh : t.kind = .header
      · rw [if_pos hh, hcons he, windows, if_pos hh, ih, windows, if_pos hh, List.map_cons, emptied,
          beginsWithName_windows]
        cases beginsWithName ts <;> cases muted <;> rfl
      · rw [if_neg hh, windows, if_neg hh]
        cases muted with
        | true => rw [if_pos rfl, ih]; rfl
        | false => rw [if_neg Bool.false_ne_true, hcons he, windows, if_neg hh, ih]; rfl

theorem parseWindows_emptied (tags : List Tag) (ws : List (Token × List Token)) :
    parseWindows tags (ws.map emptied) = parseWindows tags ws := by
  induction tags, ws using parseWindows.induct with
  | case1 tags => rfl
  | case2 tags header name span inside rest block ih =>
    have hself : emptied (header, ⟨.identifier name, span⟩ :: inside) =
        (header, ⟨.identifier name, span⟩ :: inside) := rfl
    rw [List.map_cons, hself, parseWindows, parseWindows, ih]
  | case3 tags header ts rest hname ih =>
    have hempty : emptied (header, ts) = (header, []) := by
      rw [emptied, beginsWithName_eq_false hname]
      rfl
    rw [List.map_cons, hempty, parseWindows, ih, parseWindows]
    · exact hname
    · rintro _ _ _ ⟨⟩

/-- What stands behind a header without a name is not read. -/
theorem parse_unmuted (tokens : List Token) : parse (unmuted false tokens) = parse tokens := by
  unfold parse
  rw [← beforeEnd, ← beforeEnd, windows_unmuted]
  dsimp only
  rw [if_neg Bool.false_ne_true, List.isEmpty_map, parseWindows_emptied]

/-! ## Stories -/

/-- The sections of a story are those that its headers and the tokens before the first of them ask
for, each with the statements that begin in its window. The headers without a name are reported in
order, and all that stands in their windows could as well not be there. -/
theorem sections_found (tokens : List Token) :
    (parse tokens).story.sections.map Section.entry = entries (beforeEnd tokens) ∧
      (parse tokens).issues.filter (·.message = "Expected section name after '==' header") =
        ((headers (beforeEnd tokens)).filter fun h => (nameAt? h.2).isNone).map (fun h =>
          ⟨.error, "Expected section name after '==' header", some h.1.span⟩) ∧
      parse (unmuted false tokens) = parse tokens := by
  refine ⟨entry_sections tokens, ?_, parse_unmuted tokens⟩
  refine (filter_message Finding.isKind_headerWithoutName _).trans ?_
  rw [reports_nameless_parse, List.map_map]
  rfl

end StoryScript

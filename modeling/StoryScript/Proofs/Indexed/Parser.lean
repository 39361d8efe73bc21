import StoryScript.Proofs.Indexed.Blocks
import StoryScript.Proofs.Story.Statements
/-!
# The parser by index

The whole parser, by index: the headers cut the tokens before the end of the source into windows, and
each window is read as a block. Whatever the tokens are, no guard fires, and the story is the one that
`parse` tells (`guards_hold`).
-/

namespace StoryScript.Indexed

open Token (Kind)

variable {tokens ts : List Token} {t : Token} {i stop : Nat}

/-- The indices of the headers among tokens, the first of which stands at `i`. -/
def headersFrom : Nat → List Token → List Nat
  | _, [] => []
  | i, t :: ts => if t.kind = .header then i :: headersFrom (i + 1) ts else headersFrom (i + 1) ts

/-- Whether a token of a window asks for a section of its own. -/
def hasContent (tokens : List Token) (start stop : Nat) : Guarded Bool := do
  let ts ← window tokens start stop
  return ts.any fun t => t.isContent && t.kind != .eof

/-- The sections of headers, when `leading` stand before the first of them. -/
def sectionsFrom (tokens : List Token) (stop : Nat) :
    List Nat → List Tag → Guarded (List Section × List Diagnostic)
  | [], _ => return ([], [])
  | header :: headers, leading => do
    let windowStop := headers.head?.getD stop
    match kindAt tokens (header + 1) windowStop with
    | some (.identifier name) =>
      let block ← blockAt tokens (header + 2) windowStop
      let t ← tokenAt tokens header
      let span := (extentAt tokens header windowStop).getD t.span
      -- tags at the end of the last window belong to nothing
      let told := if headers.isEmpty then looseTags block.dangling else []
      let later ← sectionsFrom tokens stop headers (if headers.isEmpty then [] else block.dangling)
      return (⟨name, leading, block.statements, span⟩ :: later.1, block.diagnostics ++ told ++ later.2)
    | _ =>
      let t ← tokenAt tokens header
      let later ← sectionsFrom tokens stop headers []
      return (later.1, ⟨.headerWithoutName, t.span⟩ :: looseTags leading ++ later.2)

/-- A section of what stands under no header. -/
def mainSectionAt (tokens : List Token) (stop : Nat) (statements : List Statement) : Section :=
  ⟨Section.mainName, [], statements, (extentAt tokens 0 stop).getD Span.origin⟩

/-- The story that tokens tell. -/
def parse (tokens : List Token) : Guarded Parsed := do
  let stop := tokens.findIdx (·.kind = .eof)
  let headers := headersFrom 0 (← window tokens 0 stop)
  let first := headers.head?.getD stop
  let block ← blockAt tokens 0 first
  if headers.isEmpty then
    return ⟨⟨[mainSectionAt tokens stop block.statements]⟩,
      block.diagnostics ++ looseTags block.dangling⟩
  else
    let content ← hasContent tokens 0 first
    let main := if !block.statements.isEmpty || content then
      [mainSectionAt tokens first block.statements] else []
    let named ← sectionsFrom tokens stop headers block.dangling
    let sections := main ++ named.1
    return ⟨⟨if sections.isEmpty then [mainSection [] []] else sections⟩,
      block.diagnostics ++ named.2⟩

/-! ## Windows -/

/-- Each window stands between its header and the next one, or the stop. -/
inductive WindowsAt (tokens : List Token) (stop : Nat) :
    List Nat → List (Token × List Token) → Prop where
  | nil : WindowsAt tokens stop [] []
  | cons {header : Nat} {headers : List Nat} {t : Token} {inside : List Token}
      {windows : List (Token × List Token)}
      (h : At tokens header (headers.head?.getD stop) (t :: inside))
      (hs : WindowsAt tokens stop headers windows) :
    WindowsAt tokens stop (header :: headers) ((t, inside) :: windows)

theorem At.cons {stop' : Nat} {us : List Token} (h : At tokens i stop (t :: ts))
    (hu : At tokens (i + 1) stop' us) : At tokens i stop' (t :: us) := by
  obtain ⟨before, after, htokens, rfl, -⟩ := h
  obtain ⟨before', after', htokens', hlength, hstop⟩ := hu
  have hsame : before ++ [t] ++ (ts ++ after) = before' ++ (us ++ after') := by
    rw [← List.append_assoc before', ← htokens', htokens]
    simp
  obtain rfl : before ++ [t] = before' :=
    List.append_inj_left hsame (by rw [hlength, List.length_append]; rfl)
  refine ⟨before, after', ?_, rfl, by rw [List.length_cons]; omega⟩
  rw [htokens']
  simp

/-- The headers cut the tokens at their windows. -/
theorem At.windows (h : At tokens i stop ts) :
    At tokens i ((headersFrom i ts).head?.getD stop) (windows ts).1 ∧
      WindowsAt tokens stop (headersFrom i ts) (windows ts).2 := by
  induction ts generalizing i with
  | nil => exact ⟨h, .nil⟩
  | cons t ts ih =>
    obtain ⟨hfirst, hwindows⟩ := ih h.tail
    rw [headersFrom, StoryScript.windows]
    by_cases ht : t.kind = .header
    · rw [if_pos ht, if_pos ht]
      have hnone : At tokens i stop ([] ++ t :: ts) := h
      exact ⟨hnone.of_append_left, .cons (h.cons hfirst) hwindows⟩
    · rw [if_neg ht, if_neg ht]
      exact ⟨h.cons hfirst, hwindows⟩

theorem sectionsFrom_eq {headers : List Nat} {windows : List (Token × List Token)}
    (h : WindowsAt tokens stop headers windows) {leading : List Tag}
    (hleading : headers = [] → leading = []) :
    sectionsFrom tokens stop headers leading = pure (parseWindows leading windows) := by
  induction h generalizing leading with
  | nil =>
    rw [hleading rfl]
    rfl
  | @cons header headers t inside windows hat hs ih =>
    have htail := hat.tail
    rw [sectionsFrom, htail.kindAt_eq]
    cases inside with
    | nil =>
      -- a header at the end of its window has no name
      rw [List.head?_nil, Option.map_none]
      dsimp only
      rw [hat.tokenAt_eq, pure_bind, ih (fun _ => rfl)]
      rfl
    | cons u us =>
      obtain ⟨kind, span⟩ := u
      rw [List.head?_cons, Option.map_some]
      cases kind with
      | identifier name =>
        dsimp only
        rw [htail.tail.blockAt_eq, pure_bind, hat.tokenAt_eq, pure_bind, hat.extentAt_eq]
        cases hs with
        | nil =>
          rw [List.isEmpty_nil, if_pos rfl, if_pos rfl, ih (fun _ => rfl), pure_bind, parseWindows]
          simp only [parseWindows, looseTags_nil, List.append_nil]
        | cons hat' hs' =>
          rw [List.isEmpty_cons, if_neg Bool.false_ne_true, if_neg Bool.false_ne_true,
            ih (fun h => absurd h (List.cons_ne_nil _ _)),
            pure_bind, List.append_nil, parseWindows]
      | _ =>
        dsimp only
        rw [hat.tokenAt_eq, pure_bind, ih (fun _ => rfl)]
        rfl

theorem At.hasContent_eq (h : At tokens i stop ts) (heof : ∀ t ∈ ts, t.kind ≠ .eof) :
    hasContent tokens i stop = pure (ts.any Token.isContent) := by
  have hany : (ts.any fun t => t.isContent && t.kind != .eof) = ts.any Token.isContent := by
    rw [Bool.eq_iff_iff, List.any_eq_true, List.any_eq_true]
    refine exists_congr fun t => and_congr_right fun ht => ?_
    simp [heof t ht]
  rw [hasContent, h.window_eq, pure_bind, hany]

/-- The tokens up to the first end of a source. -/
theorem at_beforeEnd (tokens : List Token) :
    At tokens 0 (tokens.findIdx (·.kind = .eof)) (beforeEnd tokens) := by
  refine ⟨[], tokens.dropWhile (·.kind ≠ .eof), ?_, rfl, ?_⟩
  · rw [List.nil_append, beforeEnd, List.takeWhile_append_dropWhile]
  · rw [Nat.zero_add]
    induction tokens with
    | nil => rfl
    | cons t ts ih =>
      rw [beforeEnd, List.findIdx_cons]
      by_cases ht : t.kind = .eof
      · simp [ht]
      · simpa [ht, beforeEnd] using ih

theorem ne_eof_of_mem_beforeEnd {tokens : List Token} {t : Token} (h : t ∈ beforeEnd tokens) :
    t.kind ≠ .eof :=
  of_decide_eq_true (List.all_eq_true.1 List.all_takeWhile t h)

/-- There is a header exactly if there is a window. -/
theorem WindowsAt.isEmpty_eq {headers : List Nat} {windows : List (Token × List Token)}
    (h : WindowsAt tokens stop headers windows) : headers.isEmpty = windows.isEmpty := by
  cases h <;> rfl

theorem At.mainSectionAt_eq (h : At tokens 0 stop ts) (statements : List Statement) :
    mainSectionAt tokens stop statements = mainSection statements ts := by
  rw [mainSectionAt, mainSection, h.extentAt_eq]

/-- What has statements has content, so nothing but content asks for a section. -/
theorem statements_or_content (ts : List Token) :
    (!(parseBlock [] [] ts).statements.isEmpty || ts.any Token.isContent) =
      ts.any Token.isContent := by
  cases hcontent : ts.any Token.isContent with
  | true => exact Bool.or_true _
  | false =>
    rw [statements_of_no_content hcontent]
    rfl

/-- No guard of the parser fires: no loop takes more turns and no body lies deeper than is allowed, and
all that is looked at is there. -/
theorem guards_hold (tokens : List Token) :
    Indexed.parse tokens = .ok (StoryScript.parse tokens) := by
  have hall := at_beforeEnd tokens
  obtain ⟨hfirst, hwindows⟩ := hall.windows
  have heof : ∀ t ∈ (windows (beforeEnd tokens)).1, t.kind ≠ .eof := fun t ht =>
    ne_eof_of_mem_beforeEnd ((sublist_windows (beforeEnd tokens)).1.subset ht)
  rw [Indexed.parse, StoryScript.parse, ← beforeEnd]
  dsimp only
  rw [hall.window_eq, pure_bind, hfirst.blockAt_eq, pure_bind, hwindows.isEmpty_eq]
  by_cases hempty : (windows (beforeEnd tokens)).2.isEmpty
  · -- without a header the first window runs up to the end
    have hnone : (headersFrom 0 (beforeEnd tokens)).head? = none := by
      rw [← hwindows.isEmpty_eq, List.isEmpty_iff] at hempty
      rw [hempty, List.head?_nil]
    rw [hnone, Option.getD_none] at hfirst
    rw [if_pos hempty, if_pos hempty, hfirst.mainSectionAt_eq]
    rfl
  · have hheaders : headersFrom 0 (beforeEnd tokens) ≠ [] := by
      rwa [← hwindows.isEmpty_eq, List.isEmpty_iff] at hempty
    rw [if_neg hempty, if_neg hempty, hfirst.hasContent_eq heof, pure_bind,
      statements_or_content, hfirst.mainSectionAt_eq,
      sectionsFrom_eq hwindows fun h => absurd h hheaders]
    rfl

end StoryScript.Indexed

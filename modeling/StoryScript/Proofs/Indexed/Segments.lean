import StoryScript.Proofs.Indexed.Guarded
import StoryScript.Proofs.Story.Slices
/-!
# Segments by bytes

A text that is glued from several tokens keeps where its pieces begin, in bytes, and is cut at its
inline calls by byte offsets. Every offset that comes up is a place between two characters of the
text, so no cut fails, and the segments are those of the runs the text was glued from
(`segmentText_eq`).
-/

namespace StoryScript.Indexed

open String (utf8Len utf8Len_append utf8Len_cons utf8Len_nil)

/-! ## Texts with places -/

/-- A part of a glued text that stands in one piece in the source. -/
structure Piece where
  offset : Nat
  length : Nat
  start : Position
deriving Repr

/-- A glued text and its pieces, the last one first. -/
structure TextMap where
  /-- What is told as the place of a text without pieces. -/
  origin : Position
  text : List Char := []
  pieces : List Piece := []
deriving Repr

namespace TextMap

/-- Glue on a text that stands at a place. -/
def push (m : TextMap) (text : List Char) (start : Position) : TextMap :=
  { m with text := m.text ++ text, pieces := ⟨utf8Len m.text, utf8Len text, start⟩ :: m.pieces }

/-- Glue on a line feed that stands nowhere. -/
def pushSeparator (m : TextMap) : TextMap := { m with text := m.text ++ ['\n'] }

/-- Where a byte of the text stands: in the last piece that begins at it or before it, or at the end
of that piece. -/
def position (m : TextMap) (offset : Nat) : Guarded Position :=
  match m.pieces.find? (·.offset ≤ offset) with
  | none => pure m.origin
  | some piece => do
    return piece.start.advance
      (← sliceText m.text piece.offset (min offset (piece.offset + piece.length)))

/-- Where the bytes between two offsets stand. -/
def span (m : TextMap) (start stop : Nat) : Guarded Span := do
  return ⟨← m.position start, ← m.position stop⟩

end TextMap

theorem exists_of_dropBytes {n : Nat} {cs rest : List Char} (h : dropBytes n cs = some rest) :
    ∃ before, cs = before ++ rest ∧ utf8Len before = n := by
  fun_induction dropBytes n cs with
  | case1 cs =>
    obtain rfl : cs = rest := Option.some.inj h
    exact ⟨[], rfl, rfl⟩
  | case2 | case4 => cases h
  | case3 n c cs hc ih =>
    obtain ⟨before, rfl, hlen⟩ := ih h
    exact ⟨c :: before, rfl, by rw [utf8Len_cons]; omega⟩

/-- What can be cut out of a text can be cut out of a longer one. -/
theorem sliceText_append {text part : List Char} {start stop : Nat}
    (h : sliceText text start stop = pure part) (more : List Char) :
    sliceText (text ++ more) start stop = pure part := by
  rw [sliceText] at h
  split at h
  · next found hfound =>
    split at hfound
    · next hle =>
      obtain rfl : found = part := Except.ok.inj h
      obtain ⟨rest, hdrop, htake⟩ := Option.bind_eq_some_iff.1 hfound
      obtain ⟨before, rfl, hstart⟩ := exists_of_dropBytes hdrop
      obtain ⟨after, rfl, hlen⟩ := takeBytes_eq_some htake
      have hstop : stop = utf8Len (before ++ found) := by
        rw [utf8Len_append]
        omega
      rw [← hstart, hstop, show before ++ (found ++ after) ++ more = before ++ found ++ (after ++ more) by
        simp]
      exact sliceText_eq before found (after ++ more)
    · cases hfound
  · cases h

/-- A text before its end stands where the runs say. -/
structure Covers (m : TextMap) (runs : List Run) : Prop where
  text_eq : m.text = Run.glued runs
  inside : ∀ before after, Run.glued runs = before ++ after → after ≠ [] →
    m.position (utf8Len before) = pure (Run.placeAt runs before.length)

/-- A text and its end stand where the runs say. -/
structure Maps (m : TextMap) (runs : List Run) : Prop extends Covers m runs where
  stop : runs ≠ [] → m.position (utf8Len m.text) = pure (Run.gluedStop runs)

theorem maps_nil (origin : Position) : Maps { origin } [] where
  text_eq := rfl
  inside before after h hne := by
    obtain ⟨-, rfl⟩ := List.append_eq_nil_iff.1 h.symm
    exact absurd rfl hne
  stop h := absurd rfl h

theorem glued_concat (runs : List Run) (r : Run) :
    Run.glued (runs ++ [r]) = Run.glued runs ++ r.text := by
  rw [Run.glued, List.flatMap_append, List.flatMap_singleton]
  rfl

/-- More text behind the pieces does not move them. -/
theorem TextMap.position_append {m m' : TextMap} {offset : Nat} {more : List Char} {p : Position}
    (htext : m'.text = m.text ++ more) (horigin : m'.origin = m.origin)
    (hpieces : m'.pieces.find? (·.offset ≤ offset) = m.pieces.find? (·.offset ≤ offset))
    (h : m.position offset = pure p) : m'.position offset = pure p := by
  rw [position] at h ⊢
  rw [hpieces, htext, horigin]
  cases hfind : m.pieces.find? (·.offset ≤ offset) with
  | none => rwa [hfind] at h
  | some piece =>
    rw [hfind] at h
    dsimp only at h ⊢
    cases hpart : sliceText m.text piece.offset (min offset (piece.offset + piece.length)) with
    | error fault => rw [hpart] at h; cases h
    | ok part =>
      rw [sliceText_append hpart]
      rwa [hpart] at h

theorem placeAt_append_left {runs : List Run} {n : Nat} (h : n < (Run.glued runs).length)
    (more : List Run) : Run.placeAt (runs ++ more) n = Run.placeAt runs n := by
  have hlt : n < (Run.gluedPlaces runs).length := by rwa [Run.length_gluedPlaces]
  have happend : Run.gluedPlaces (runs ++ more) = Run.gluedPlaces runs ++ Run.gluedPlaces more :=
    List.flatMap_append
  rw [Run.placeAt, Run.placeAt, happend, List.drop_append_of_le_length hlt.le,
    List.drop_eq_getElem_cons hlt]
  rfl

theorem placeAt_length (runs : List Run) :
    Run.placeAt runs (Run.glued runs).length = Run.gluedStop runs := by
  rw [Run.placeAt, ← Run.length_gluedPlaces, List.drop_length]
  rfl

/-- A piece that begins behind an offset is not looked at. -/
theorem find?_piece {piece : Piece} {pieces : List Piece} {offset : Nat}
    (h : offset < piece.offset) :
    (piece :: pieces).find? (·.offset ≤ offset) = pieces.find? (·.offset ≤ offset) :=
  List.find?_cons_of_neg (by simpa using h)

/-- A byte of a text that was glued on stands in its piece. -/
theorem TextMap.position_push (m : TextMap) (start : Position) (left right : List Char) :
    (m.push (left ++ right) start).position (utf8Len (m.text ++ left)) =
      pure (start.advance left) := by
  have hle : utf8Len m.text ≤ utf8Len (m.text ++ left) := by
    rw [utf8Len_append]
    omega
  have hmin : min (utf8Len (m.text ++ left)) (utf8Len m.text + utf8Len (left ++ right)) =
      utf8Len (m.text ++ left) := by
    rw [utf8Len_append, utf8Len_append]
    omega
  rw [position, push, List.find?_cons_of_pos (by exact decide_eq_true hle)]
  dsimp only
  rw [hmin, ← List.append_assoc, sliceText_eq]
  rfl

theorem Covers.push {m : TextMap} {runs : List Run} (h : Covers m runs) (text : List Char)
    (start : Position) : Maps (m.push text start) (runs ++ [⟨text, start⟩]) := by
  have htext : (m.push text start).text = Run.glued (runs ++ [⟨text, start⟩]) := by
    rw [glued_concat, ← h.text_eq]
    rfl
  refine ⟨⟨htext, fun before after hsplit hne => ?_⟩, fun _ => ?_⟩
  · have hnew : ∀ left, before = Run.glued runs ++ left → text = left ++ after →
        (m.push text start).position (utf8Len before) =
          pure (Run.placeAt (runs ++ [⟨text, start⟩]) before.length) := by
      rintro left rfl rfl
      rw [← h.text_eq, TextMap.position_push, h.text_eq, List.length_append,
        Run.placeAt_inside runs [] rfl hne]
    rw [glued_concat] at hsplit
    rcases List.append_eq_append_iff.1 hsplit with ⟨left, hbefore, hright⟩ | ⟨more, hold, hafter⟩
    · exact hnew left hbefore hright
    · by_cases hmore : more = []
      · subst hmore
        exact hnew [] (by simpa using hold.symm) hafter.symm
      · -- the new piece begins behind the byte, so an earlier one is found
        have hlt : utf8Len before < utf8Len m.text := by
          have := utf8Len_pos hmore
          rw [h.text_eq, hold, utf8Len_append]
          omega
        have hlength : before.length < (Run.glued runs).length := by
          have := List.length_pos_iff.2 hmore
          rw [hold, List.length_append]
          omega
        rw [placeAt_append_left hlength]
        exact TextMap.position_append rfl rfl (find?_piece hlt) (h.inside before more hold hmore)
  · have hstop := m.position_push start text []
    rw [List.append_nil] at hstop
    rw [Run.gluedStop, List.getLast?_concat]
    exact hstop

theorem Maps.pushSeparator {m : TextMap} {runs : List Run} (h : Maps m runs) (hne : runs ≠ []) :
    Covers m.pushSeparator (runs ++ [⟨['\n'], Run.gluedStop runs⟩]) := by
  have htext : m.pushSeparator.text = Run.glued (runs ++ [⟨['\n'], Run.gluedStop runs⟩]) := by
    rw [glued_concat, ← h.text_eq]
    rfl
  refine ⟨htext, fun before after hsplit hafter => ?_⟩
  rw [glued_concat] at hsplit
  -- nothing of the separator but its own place comes before its end
  obtain ⟨more, hold⟩ : ∃ more, Run.glued runs = before ++ more := by
    rcases List.append_eq_append_iff.1 hsplit with ⟨left, hbefore, hright⟩ | ⟨more, hold, -⟩
    · rcases List.append_eq_singleton_iff.1 hright.symm with ⟨rfl, -⟩ | ⟨-, rfl⟩
      · exact ⟨[], by rw [hbefore, List.append_nil, List.append_nil]⟩
      · exact absurd rfl hafter
    · exact ⟨more, hold⟩
  by_cases hmore : more = []
  · subst hmore
    rw [List.append_nil] at hold
    subst hold
    have hplace := Run.placeAt_inside runs [] (r := ⟨['\n'], Run.gluedStop runs⟩)
      (List.nil_append _).symm (List.cons_ne_nil _ _)
    rw [List.length_nil, Nat.add_zero] at hplace
    rw [hplace]
    refine TextMap.position_append (m := m) rfl rfl rfl ?_
    rw [← h.text_eq]
    exact h.stop hne
  · have hlength : before.length < (Run.glued runs).length := by
      have := List.length_pos_iff.2 hmore
      rw [hold, List.length_append]
      omega
    rw [placeAt_append_left hlength]
    exact TextMap.position_append rfl rfl rfl (h.inside before more hold hmore)

/-- Every place between two characters of a text is found. -/
theorem Maps.position_eq {m : TextMap} {runs : List Run} (h : Maps m runs) {before after : List Char}
    (hsplit : m.text = before ++ after) (hne : m.text ≠ []) :
    m.position (utf8Len before) = pure (Run.placeAt runs before.length) := by
  by_cases hafter : after = []
  · subst hafter
    rw [List.append_nil] at hsplit
    have hruns : runs ≠ [] := by
      rintro rfl
      exact hne h.text_eq
    rw [← hsplit, h.stop hruns, h.text_eq, placeAt_length]
  · exact h.inside before after (h.text_eq ▸ hsplit) hafter

/-! ## Inline calls -/

/-- How many bytes stand before the first mark of an inline call. -/
def findMark : List Char → Option Nat
  | [] => none
  | c :: cs =>
    if inlineCallMark.isPrefixOf (c :: cs) then some 0 else (findMark cs).map (· + c.utf8Size)

/-- How many backslashes a text ends in. -/
def trailingBackslashes (text : List Char) : Nat := (text.reverse.takeWhile (· = '\\')).length

/-- Where the next inline call begins, from a byte on. -/
def findStartWithin (text : List Char) : (turns : Nat) → (search : Nat) → Guarded (Option Nat)
  | 0, _ => throw .turns
  | turns + 1, search => do
    match findMark (← sliceText text search (utf8Len text)) with
    | none => return none
    | some found =>
      let start := search + found
      if trailingBackslashes (← sliceText text 0 start) % 2 = 0 then return some start
      else findStartWithin text turns (start + 1)

@[inherit_doc findStartWithin]
def findStart (text : List Char) (search : Nat) : Guarded (Option Nat) :=
  findStartWithin text (utf8Len text + 1) search

/-- Where the brace stands that closes the inline call at a byte. -/
def findStop (text : List Char) (start : Nat) : Guarded (Option Nat) := do
  let body := start + utf8Len inlineCallMark
  let inner ← sliceText text body (utf8Len text)
  return (findInlineEnd 0 false false inner).map fun r => body + utf8Len r.1

/-- The name and the arguments of an inline call, cut at its first parenthesis. -/
def splitCall (inner : List Char) : Guarded (List Char × List (List Char)) := do
  let name := readUntil (fun b cs => b.atParenthesis cs) {} inner
  match name.2 with
  | [] => return (Text.trim inner, [])
  | _ :: _ =>
    let parenthesis := utf8Len name.1
    let list := Text.trimEnd (← sliceText inner (parenthesis + 1) (utf8Len inner))
    let list := if list.getLast? = some ')' then list.dropLast else list
    return (Text.trim (← sliceText inner 0 parenthesis), Text.splitArguments list)

/-- The plain text between two bytes. There is no empty one. -/
def plainSegment (m : TextMap) (start stop : Nat) : Guarded (List Segment) := do
  if start < stop then
    return [.text (String.ofList (← sliceText m.text start stop)) (← m.span start stop)]
  else return []

/-- The segments of a text from a byte on, behind those before it. -/
def segmentFrom (m : TextMap) : (turns : Nat) → (cursor : Nat) → (done : List Segment) →
    Guarded (List Segment × List Diagnostic)
  | 0, _, _ => throw .turns
  | turns + 1, cursor, done => do
    match ← findStart m.text cursor with
    | none => return (done ++ (← plainSegment m cursor (utf8Len m.text)), [])
    | some start =>
      match ← findStop m.text start with
      | none =>
        let complaint := ⟨.openInlineCall, .point (← m.position start)⟩
        return (done ++ (← plainSegment m cursor (utf8Len m.text)), [complaint])
      | some stop =>
        let before ← plainSegment m cursor start
        let call ← splitCall (← sliceText m.text (start + utf8Len inlineCallMark) stop)
        let segment :=
          .inlineCall (String.ofList call.1) (call.2.map String.ofList) (← m.span start (stop + 1))
        segmentFrom m turns (stop + 1) (done ++ before ++ [segment])

/-- The segments of a text. -/
def segmentText (m : TextMap) : Guarded (List Segment × List Diagnostic) :=
  segmentFrom m (utf8Len m.text + 1) 0 []

/-! ## No cut fails -/

theorem trailingBackslashes_concat (text : List Char) (c : Char) :
    trailingBackslashes (text ++ [c]) = if c = '\\' then trailingBackslashes text + 1 else 0 := by
  rw [trailingBackslashes, List.reverse_append, List.reverse_singleton, List.singleton_append,
    List.takeWhile_cons]
  by_cases hc : c = '\\'
  · simp [hc, trailingBackslashes]
  · simp [hc]

theorem findInlineStart_eq_none {cs : List Char} (h : findMark cs = none) (n : Nat) :
    findInlineStart n cs = none := by
  induction cs generalizing n with
  | nil => rfl
  | cons c cs ih =>
    rw [findMark] at h
    split at h
    · cases h
    · next hmark =>
      rw [findInlineStart, if_neg (fun hp => hmark hp.1), ih (by simpa using h)]
      rfl

/-- The first mark of a text opens a call unless the backslashes before it are odd in number. Then the
search goes on behind its brace. -/
theorem findInlineStart_of_findMark {cs : List Char} {found : Nat} (h : findMark cs = some found) :
    ∃ before body, cs = before ++ '{' :: body ∧ utf8Len before = found ∧
      ∀ past, findInlineStart (trailingBackslashes past) cs =
        if trailingBackslashes (past ++ before) % 2 = 0 then
          some (before, ('{' :: body).drop inlineCallMark.length)
        else (findInlineStart 0 body).map fun r => (before ++ '{' :: r.1, r.2) := by
  induction cs generalizing found with
  | nil => cases h
  | cons c cs ih =>
    rw [findMark] at h
    split at h
    · next hmark =>
      obtain ⟨rest, hrest⟩ := List.isPrefixOf_iff_prefix.1 hmark
      obtain rfl : '{' = c := (List.cons.inj hrest).1
      refine ⟨[], cs, rfl, Option.some.inj h, fun past => ?_⟩
      rw [findInlineStart, List.append_nil]
      by_cases heven : trailingBackslashes past % 2 = 0
      · rw [if_pos ⟨hmark, heven⟩, if_pos heven]
      · rw [if_neg (fun hp => heven hp.2), if_neg heven]
        rfl
    · next hmark =>
      obtain ⟨more, hmore, rfl⟩ := Option.map_eq_some_iff.1 h
      obtain ⟨before, body, rfl, rfl, hfind⟩ := ih hmore
      refine ⟨c :: before, body, rfl, utf8Len_cons .., fun past => ?_⟩
      rw [findInlineStart, if_neg (fun hp => hmark hp.1), ← trailingBackslashes_concat, hfind,
        List.append_assoc, List.singleton_append]
      split <;> simp [Function.comp_def]

/-- Each turn of the search leaves less ahead. -/
theorem findStartWithin_eq {turns : Nat} (past ahead : List Char) (hturns : ahead.length < turns) :
    findStartWithin (past ++ ahead) turns (utf8Len past) =
      pure ((findInlineStart (trailingBackslashes past) ahead).map fun r =>
        utf8Len (past ++ r.1)) := by
  induction turns generalizing past ahead with
  | zero => omega
  | succ turns ih =>
    rw [findStartWithin, sliceText_right, pure_bind]
    cases hmark : findMark ahead with
    | none => rw [findInlineStart_eq_none hmark]; rfl
    | some found =>
      obtain ⟨before, body, rfl, rfl, hfind⟩ := findInlineStart_of_findMark hmark
      dsimp only
      rw [← utf8Len_append, ← List.append_assoc, sliceText_left, pure_bind, hfind]
      split
      · rfl
      · have hnext : utf8Len (past ++ before) + 1 = utf8Len (past ++ before ++ ['{']) := by
          rw [utf8Len_append (past ++ before)]
          rfl
        have hbody : body.length < turns := by
          simp only [List.length_append, List.length_cons] at hturns
          omega
        rw [hnext, List.append_cons, ih _ body hbody, trailingBackslashes_concat, if_neg (by decide),
          Option.map_map]
        simp [Function.comp_def]

theorem findStart_eq (past ahead : List Char) :
    findStart (past ++ ahead) (utf8Len past) =
      pure ((findInlineStart (trailingBackslashes past) ahead).map fun r =>
        utf8Len (past ++ r.1)) := by
  refine findStartWithin_eq past ahead ?_
  have hle := length_le_utf8Len ahead
  rw [utf8Len_append]
  omega

theorem findStop_eq (past body : List Char) :
    findStop (past ++ inlineCallMark ++ body) (utf8Len past) =
      pure ((findInlineEnd 0 false false body).map fun r =>
        utf8Len (past ++ inlineCallMark ++ r.1)) := by
  rw [findStop, ← utf8Len_append, sliceText_right, pure_bind]
  simp only [utf8Len_append]

theorem splitCall_eq (inner : List Char) : splitCall inner = pure (splitInlineCall inner) := by
  have hsplit := readUntil_append (fun b cs => b.atParenthesis cs) {} inner
  have hstop := stopped_readUntil (fun b cs => b.atParenthesis cs) {} inner
  rw [splitCall, splitInlineCall]
  generalize readUntil (fun b cs => b.atParenthesis cs) {} inner = name at hsplit hstop
  obtain ⟨name, ahead⟩ := name
  cases ahead with
  | nil => rfl
  | cons c list =>
    have hparenthesis := hstop.resolve_left (List.cons_ne_nil _ _)
    obtain ⟨list', hlist⟩ := Lookbehind.cons_of_atParenthesis hparenthesis
    obtain ⟨rfl, rfl⟩ := List.cons.inj hlist
    dsimp only at hsplit ⊢
    subst hsplit
    have hnext : utf8Len name + 1 = utf8Len (name ++ ['(']) := by
      rw [utf8Len_append]
      rfl
    rw [hnext, sliceText_left, List.append_cons, sliceText_right]
    rfl

theorem TextMap.span_eq {m : TextMap} {start stop : Nat} {p q : Position}
    (hp : m.position start = pure p) (hq : m.position stop = pure q) :
    m.span start stop = pure ⟨p, q⟩ := by
  rw [span, hp, hq]
  rfl

/-- Where fragments are placed that begin behind some text. -/
def placedBehind (runs : List Run) (before : List Char) (fs : List Fragment) : List Segment :=
  placeFragments (Run.gluedStop runs) ((Run.gluedPlaces runs).drop before.length) fs

theorem placedBehind_cons (runs : List Run) (before : List Char) (f : Fragment) (fs : List Fragment) :
    placedBehind runs before (f :: fs) =
      f.segment ⟨Run.placeAt runs before.length, Run.placeAt runs (before ++ f.text).length⟩ ::
        placedBehind runs (before ++ f.text) fs := by
  rw [placedBehind, placeFragments, List.drop_drop, ← List.length_append]
  rfl

theorem placedBehind_ofPlain (runs : List Run) (before text : List Char) (fs : List Fragment) :
    placedBehind runs before (Fragment.ofPlain text ++ fs) =
      placedBehind runs before (Fragment.ofPlain text) ++ placedBehind runs (before ++ text) fs := by
  cases text with
  | nil => rw [List.append_nil]; rfl
  | cons c cs =>
    change placedBehind runs before (.plain (c :: cs) :: fs) =
      placedBehind runs before [.plain (c :: cs)] ++ _
    rw [placedBehind_cons, placedBehind_cons]
    rfl

section
variable {m : TextMap} {runs : List Run}

theorem Maps.plainSegment_eq (h : Maps m runs) {before text after : List Char}
    (hsplit : m.text = before ++ text ++ after) :
    plainSegment m (utf8Len before) (utf8Len (before ++ text)) =
      pure (placedBehind runs before (Fragment.ofPlain text)) := by
  cases text with
  | nil => rw [List.append_nil, plainSegment, if_neg (Nat.lt_irrefl _)]; rfl
  | cons c cs =>
    have hpos := utf8Len_pos (List.cons_ne_nil c cs)
    have hne : m.text ≠ [] := by simp [hsplit]
    have hspan := TextMap.span_eq (h.position_eq ((List.append_assoc ..) ▸ hsplit) hne)
      (h.position_eq hsplit hne)
    rw [plainSegment, if_pos (by rw [utf8Len_append]; omega), hsplit, sliceText_eq, hspan]
    rw [Fragment.ofPlain, if_neg (by simp), placedBehind_cons]
    rfl

theorem Maps.plainSegment_rest (h : Maps m runs) {past ahead : List Char}
    (hsplit : m.text = past ++ ahead) :
    plainSegment m (utf8Len past) (utf8Len m.text) =
      pure (placedBehind runs past (Fragment.ofPlain ahead)) := by
  have hplain := h.plainSegment_eq (hsplit.trans (List.append_nil _).symm)
  rwa [← hsplit] at hplain

theorem findStart_of_findInlineStart {past ahead before body : List Char}
    (hpast : trailingBackslashes past = 0) (hs : findInlineStart 0 ahead = some (before, body)) :
    findStart (past ++ ahead) (utf8Len past) = pure (some (utf8Len (past ++ before))) := by
  rw [findStart_eq, hpast, hs]
  rfl

/-- One turn: the search goes on behind the brace that closes a call. -/
theorem Maps.segmentFrom_call (h : Maps m runs) {past ahead before body inner rest : List Char}
    (hsplit : m.text = past ++ ahead) (hpast : trailingBackslashes past = 0)
    (hs : findInlineStart 0 ahead = some (before, body))
    (he : findInlineEnd 0 false false body = some (inner, rest)) (turns : Nat)
    (done : List Segment) :
    segmentFrom m (turns + 1) (utf8Len past) done =
      segmentFrom m turns (utf8Len (past ++ before ++ (Fragment.call inner).text))
        (done ++ placedBehind runs past (Fragment.ofPlain before ++ [.call inner])) := by
  have hahead : ahead = before ++ inlineCallMark ++ (inner ++ '}' :: rest) := by
    rw [append_of_findInlineEnd he, append_of_findInlineStart hs]
  have hstart := findStart_of_findInlineStart hpast hs
  have hstop := findStop_eq (past ++ before) body
  have hinner := sliceText_eq (past ++ before ++ inlineCallMark) inner ('}' :: rest)
  have hcursor : utf8Len (past ++ before ++ inlineCallMark ++ inner) + 1 =
      utf8Len (past ++ before ++ (Fragment.call inner).text) := by
    rw [Fragment.text, ← List.append_assoc, ← List.append_assoc, utf8Len_append _ ['}']]
    rfl
  -- the same text, split before and behind the call
  have hbefore : m.text = past ++ before ++ ((Fragment.call inner).text ++ rest) := by
    simp [hsplit, hahead, Fragment.text]
  have hbehind : m.text = past ++ before ++ (Fragment.call inner).text ++ rest := by
    rw [hbefore, List.append_assoc (past ++ before)]
  have hne : m.text ≠ [] := by simp [hbefore, Fragment.text]
  have hspan := TextMap.span_eq (h.position_eq hbefore hne) (h.position_eq hbehind hne)
  rw [← hsplit] at hstart
  rw [he, ← append_of_findInlineEnd he, show past ++ before ++ inlineCallMark ++
    (inner ++ '}' :: rest) = m.text by simp [hsplit, hahead]] at hstop
  rw [show past ++ before ++ inlineCallMark ++ inner ++ '}' :: rest = m.text by
    simp [hsplit, hahead], utf8Len_append (past ++ before)] at hinner
  rw [segmentFrom, hstart, pure_bind]
  dsimp only
  rw [hstop, pure_bind]
  dsimp only [Option.map_some]
  rw [h.plainSegment_eq hbefore, pure_bind, hinner, pure_bind, splitCall_eq, pure_bind, hcursor,
    hspan, pure_bind, placedBehind_ofPlain, placedBehind_cons, List.append_assoc done]
  rfl

/-- From a byte on whose text ends in no backslash, the segments are those of the runs. -/
theorem Maps.segmentFrom_eq (h : Maps m runs) {past ahead : List Char}
    (hsplit : m.text = past ++ ahead) (hpast : trailingBackslashes past = 0) {turns : Nat}
    (hturns : ahead.length ≤ turns) (done : List Segment) :
    segmentFrom m (turns + 1) (utf8Len past) done =
      pure (done ++ placedBehind runs past (cutInlineCalls past.length ahead).fragments,
        (cutInlineCalls past.length ahead).openAt.toList.map fun n =>
          ⟨.openInlineCall, .point (Run.placeAt runs n)⟩) := by
  generalize hoffset : past.length = offset
  fun_induction cutInlineCalls offset ahead generalizing past turns done with
  | case1 offset ahead hs =>
    have hstart : findStart m.text (utf8Len past) = pure none := by
      rw [hsplit, findStart_eq, hpast, hs]
      rfl
    rw [segmentFrom, hstart, pure_bind]
    dsimp only
    rw [h.plainSegment_rest hsplit]
    rfl
  | case2 offset ahead before body hs he =>
    -- a call that does not close is told of, and stays in the plain text
    have hstart := findStart_of_findInlineStart hpast hs
    rw [← hsplit] at hstart
    have htext : m.text = past ++ before ++ (inlineCallMark ++ body) := by
      rw [hsplit, ← append_of_findInlineStart hs, List.append_assoc, List.append_assoc]
    have hstop : findStop m.text (utf8Len (past ++ before)) = pure none := by
      rw [htext, ← List.append_assoc, findStop_eq, he]
      rfl
    have hmark : inlineCallMark ++ body ≠ [] := List.append_ne_nil_of_left_ne_nil (by decide) body
    have hplace := h.position_eq htext
      (htext ▸ List.append_ne_nil_of_right_ne_nil (past ++ before) hmark)
    rw [segmentFrom, hstart, pure_bind]
    dsimp only
    rw [hstop, pure_bind]
    dsimp only
    rw [hplace, h.plainSegment_rest hsplit, List.length_append, hoffset]
    rfl
  | case3 offset ahead before body hs inner rest he hlt call cut =>
    rename_i ih
    have hrest : m.text = past ++ before ++ call.text ++ rest := by
      rw [hsplit, ← append_of_findInlineStart hs, ← append_of_findInlineEnd he]
      simp [call, Fragment.text]
    -- a call ends in its brace
    have hback : trailingBackslashes (past ++ before ++ call.text) = 0 := by
      rw [show past ++ before ++ call.text = past ++ before ++ inlineCallMark ++ inner ++ ['}'] by
        simp [call, Fragment.text], trailingBackslashes_concat, if_neg (by decide)]
    obtain ⟨turns, rfl⟩ := Nat.exists_eq_add_one_of_ne_zero
      (Nat.ne_zero_of_lt (Nat.lt_of_lt_of_le hlt hturns))
    rw [h.segmentFrom_call hsplit hpast hs he,
      ih hrest hback (by omega) _ (by simp [hoffset, Nat.add_assoc])]
    rw [placedBehind_ofPlain, placedBehind_ofPlain, placedBehind_cons runs _ call cut.fragments,
      placedBehind_cons]
    simp only [List.append_assoc]
    rfl

/-- The segments of a text are those of the runs it was glued from. -/
theorem Maps.segmentText_eq (h : Maps m runs) : segmentText m = pure (segmentsOf runs) := by
  have hall := h.segmentFrom_eq (show m.text = [] ++ m.text from rfl) rfl
    (length_le_utf8Len m.text) []
  rw [segmentText, segmentsOf, ← h.text_eq]
  exact hall

end

end StoryScript.Indexed

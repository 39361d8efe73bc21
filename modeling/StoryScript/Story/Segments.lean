import StoryScript.Issue
import StoryScript.Story
import StoryScript.Text.Arguments
import StoryScript.Token.Reader
/-!
# Segments of a text

The text of a replica or a choice is glued from runs that stand at several places of the source. It
is cut into plain text and inline calls without regard to places (`fragments`), and the parts are
placed afterwards.
-/

namespace StoryScript

/-! ## Cutting -/

/-- A part of a text: plain, or what stands between the marks of an inline call. -/
inductive Fragment where
  | plain (text : List Char)
  | call (inner : List Char)
deriving DecidableEq, Repr

/-- A fragment as it stands in the text. -/
def Fragment.text : Fragment → List Char
  | plain text => text
  | call inner => inlineCallMark ++ inner ++ ['}']

/-- The text before the first inline call and the text behind the mark that opens it. After an odd
number of backslashes the mark is text. -/
def findInlineStart (backslashes : Nat) : List Char → Option (List Char × List Char)
  | [] => none
  | c :: cs =>
    if inlineCallMark.isPrefixOf (c :: cs) ∧ backslashes % 2 = 0 then
      some ([], (c :: cs).drop inlineCallMark.length)
    else
      (findInlineStart (if c = '\\' then backslashes + 1 else 0) cs).map fun r => (c :: r.1, r.2)

/-- What stands up to the brace that closes an inline call, and what stands behind it. The brace
closes outside quotes where no parenthesis is open. -/
def findInlineEnd (depth : Int) (quoted escaped : Bool) :
    List Char → Option (List Char × List Char)
  | [] => none
  | c :: cs =>
    let keep := fun (r : Option (List Char × List Char)) => r.map fun r => (c :: r.1, r.2)
    let escapes := c == '\\'
    if escaped then keep (findInlineEnd depth quoted escapes cs)
    else if c = '"' then keep (findInlineEnd depth (!quoted) escapes cs)
    else if quoted then keep (findInlineEnd depth quoted escapes cs)
    else if c = '(' then keep (findInlineEnd (depth + 1) quoted escapes cs)
    else if c = ')' then keep (findInlineEnd (depth - 1) quoted escapes cs)
    else if c = '}' ∧ depth ≤ 0 then some ([], cs)
    else keep (findInlineEnd depth quoted escapes cs)

theorem append_of_findInlineStart {n : Nat} {cs before body : List Char}
    (h : findInlineStart n cs = some (before, body)) : before ++ inlineCallMark ++ body = cs := by
  induction cs generalizing n before with
  | nil => simp [findInlineStart] at h
  | cons c cs ih =>
    rw [findInlineStart] at h
    split at h
    · next hp =>
      obtain ⟨rfl, rfl⟩ := Prod.mk.inj (Option.some.inj h)
      exact List.prefix_iff_eq_append.1 (List.isPrefixOf_iff_prefix.1 hp.1)
    · obtain ⟨⟨b, r⟩, hr, he⟩ := Option.map_eq_some_iff.1 h
      obtain ⟨rfl, rfl⟩ := Prod.mk.inj he
      simp [← ih hr]

theorem append_of_findInlineEnd {depth : Int} {quoted escaped : Bool} {cs inner rest : List Char}
    (h : findInlineEnd depth quoted escaped cs = some (inner, rest)) :
    inner ++ '}' :: rest = cs := by
  induction cs generalizing depth quoted escaped inner with
  | nil => simp [findInlineEnd] at h
  | cons c cs ih =>
    have step : ∀ d q e,
        (findInlineEnd d q e cs).map (fun r => (c :: r.1, r.2)) = some (inner, rest) →
          inner ++ '}' :: rest = c :: cs := by
      intro d q e hm
      obtain ⟨⟨b, r⟩, hr, he⟩ := Option.map_eq_some_iff.1 hm
      obtain ⟨rfl, rfl⟩ := Prod.mk.inj he
      simp [← ih hr]
    rw [findInlineEnd] at h
    repeat' split at h
    all_goals first
      | exact step _ _ _ h
      | obtain ⟨rfl, rfl⟩ := Prod.mk.inj (Option.some.inj h)
        simp_all

/-- A text cut at its inline calls. -/
structure Cut where
  fragments : List Fragment
  /-- How many characters stand before a call that does not close. -/
  openAt : Option Nat
deriving DecidableEq, Repr

/-- Plain text as a fragment. There is no empty one. -/
def Fragment.ofPlain (text : List Char) : List Fragment :=
  if text.isEmpty then [] else [.plain text]

/-- Cut a text that `offset` characters stand before. From a call that does not close on, all is
plain text. -/
def cutInlineCalls (offset : Nat) (text : List Char) : Cut :=
  match hs : findInlineStart 0 text with
  | none => ⟨Fragment.ofPlain text, none⟩
  | some (before, body) =>
    match he : findInlineEnd 0 false false body with
    | none => ⟨Fragment.ofPlain text, some (offset + before.length)⟩
    | some (inner, rest) =>
      have : rest.length < text.length := by
        rw [← append_of_findInlineStart hs, ← append_of_findInlineEnd he]
        simp only [List.length_append, List.length_cons]
        omega
      let call := Fragment.call inner
      let cut := cutInlineCalls (offset + before.length + call.text.length) rest
      ⟨Fragment.ofPlain before ++ call :: cut.fragments, cut.openAt⟩
termination_by text.length

/-- The name and the arguments of an inline call. The arguments stand behind the first parenthesis,
and a parenthesis at the end is not one of them. -/
def splitInlineCall (inner : List Char) : List Char × List (List Char) :=
  let name := readUntil (fun b cs => b.atParenthesis cs) {} inner
  match name.2 with
  | [] => (Text.trim inner, [])
  | _ :: list =>
    let list := Text.trimEnd list
    let list := if list.getLast? = some ')' then list.dropLast else list
    (Text.trim name.1, Text.splitArguments list)

/-! ## Placing -/

/-- A text that stands in one piece in the source. -/
structure Run where
  text : List Char
  start : Position
deriving DecidableEq, Repr

namespace Run

/-- Where a run ends. -/
def stop (r : Run) : Position := r.start.advance r.text

/-- Where each of the characters stands that follow each other from `p` on. -/
def places (p : Position) : List Char → List Position
  | [] => []
  | c :: cs => p :: places (p.next c) cs

/-- The glued text. -/
def glued (runs : List Run) : List Char := runs.flatMap text

/-- Where each character of the glued text stands. -/
def gluedPlaces (runs : List Run) : List Position := runs.flatMap fun r => places r.start r.text

/-- Where the glued text ends. -/
def gluedStop (runs : List Run) : Position := (runs.getLast?.map stop).getD Position.origin

end Run

/-- The segment that a fragment at a place is. -/
def Fragment.segment (span : Span) : Fragment → Segment
  | plain text => .text (String.ofList text) span
  | call inner =>
    let c := splitInlineCall inner
    .inlineCall (String.ofList c.1) (c.2.map String.ofList) span

/-- Place fragments one after the other on the places of their characters. -/
def placeFragments (stop : Position) : List Position → List Fragment → List Segment
  | _, [] => []
  | places, f :: fs =>
    let after := places.drop f.text.length
    f.segment ⟨places.headD stop, after.headD stop⟩ :: placeFragments stop after fs

/-- The segments of a glued text, and the complaint about a call that does not close. -/
def segmentsOf (runs : List Run) : List Segment × List Diagnostic :=
  let cut := cutInlineCalls 0 (Run.glued runs)
  let places := Run.gluedPlaces runs
  let stop := Run.gluedStop runs
  (placeFragments stop places cut.fragments,
    cut.openAt.toList.map fun n => ⟨.openInlineCall, .point ((places.drop n).headD stop)⟩)

/-- The text segments put together. -/
def plainText (segments : List Segment) : String := String.join (segments.filterMap Segment.text?)

end StoryScript

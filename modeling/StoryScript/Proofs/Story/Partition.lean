import Mathlib.Data.List.Forall2
import StoryScript.Proofs.Indexed.Segments
/-!
# The parts of a text

The text of a replica or a choice falls into plain text and inline calls, from left to right and
without loss. A call goes from the first mark that can open one to the first brace that closes it,
and plain text holds no such mark, except where a call does not close: then all from its mark on is
plain, and this is reported once for the text (`texts_partitioned`).
-/

namespace StoryScript

open Token (Kind)
open Indexed (trailingBackslashes trailingBackslashes_concat)

/-! ## Marks that open a call -/

/-- Somewhere in a text that stands behind `before` is a mark that opens a call: the backslashes
right before it are even in number. -/
def HasStart (before text : List Char) : Prop :=
  ∃ left right, text = left ++ inlineCallMark ++ right ∧
    trailingBackslashes (before ++ left) % 2 = 0

theorem not_hasStart_nil (before : List Char) : ¬HasStart before [] := by
  rintro ⟨left, right, h, -⟩
  have hlength := congrArg List.length h
  have hmark : inlineCallMark.length = 6 := rfl
  simp only [List.length_append, List.length_nil] at hlength
  omega

theorem hasStart_cons {before : List Char} {c : Char} {cs : List Char} :
    HasStart before (c :: cs) ↔
      (inlineCallMark <+: c :: cs ∧ trailingBackslashes before % 2 = 0) ∨
        HasStart (before ++ [c]) cs := by
  constructor
  · rintro ⟨left, right, h, heven⟩
    cases left with
    | nil => exact .inl ⟨⟨right, h.symm⟩, by simpa using heven⟩
    | cons d left =>
      obtain ⟨rfl, rfl⟩ := List.cons.inj h
      exact .inr ⟨left, right, rfl, by simpa using heven⟩
  · rintro (⟨⟨right, h⟩, heven⟩ | ⟨left, right, rfl, heven⟩)
    · exact ⟨[], right, h.symm, by simpa using heven⟩
    · exact ⟨c :: left, right, rfl, by simpa using heven⟩

theorem findInlineStart_cons (before : List Char) (c : Char) (cs : List Char) :
    findInlineStart (trailingBackslashes before) (c :: cs) =
      if inlineCallMark <+: c :: cs ∧ trailingBackslashes before % 2 = 0 then
        some ([], (c :: cs).drop inlineCallMark.length)
      else
        (findInlineStart (trailingBackslashes (before ++ [c])) cs).map
          fun r => (c :: r.1, r.2) := by
  rw [findInlineStart, trailingBackslashes_concat]
  simp only [List.isPrefixOf_iff_prefix]

/-- The search for a start finds none only where there is none. -/
theorem not_hasStart_of_none {before text : List Char}
    (h : findInlineStart (trailingBackslashes before) text = none) : ¬HasStart before text := by
  induction text generalizing before with
  | nil => exact not_hasStart_nil before
  | cons c cs ih =>
    rw [findInlineStart_cons] at h
    split at h
    · cases h
    · next hmark =>
      rw [hasStart_cons, not_or]
      exact ⟨hmark, ih (Option.map_eq_none_iff.1 h)⟩

/-- What the search finds is a start, and the first one. -/
theorem first_of_findInlineStart {past text before body : List Char}
    (h : findInlineStart (trailingBackslashes past) text = some (before, body)) :
    trailingBackslashes (past ++ before) % 2 = 0 ∧ ¬HasStart past before := by
  induction text generalizing past before with
  | nil => cases h
  | cons c cs ih =>
    rw [findInlineStart_cons] at h
    split at h
    · next hmark =>
      obtain ⟨rfl, -⟩ := Prod.mk.inj (Option.some.inj h)
      exact ⟨by simpa using hmark.2, not_hasStart_nil past⟩
    · next hmark =>
      obtain ⟨⟨left, rest⟩, hfind, heq⟩ := Option.map_eq_some_iff.1 h
      obtain ⟨rfl, rfl⟩ := Prod.mk.inj heq
      obtain ⟨heven, hfirst⟩ := ih hfind
      refine ⟨by simpa using heven, ?_⟩
      rw [hasStart_cons, not_or]
      refine ⟨fun hstart => hmark ⟨hstart.1.trans ?_, hstart.2⟩, hfirst⟩
      rw [← append_of_findInlineStart hfind, List.append_assoc]
      exact List.prefix_append (c :: left) _

/-! ## Braces that close a call -/

/-- What the text of an inline call before a place tells about the place. -/
structure CallPlace where
  /-- Parentheses open there. More may have closed than opened. -/
  depth : Int := 0
  quoted : Bool := false
  /-- The character before is a backslash. -/
  escaped : Bool := false

namespace CallPlace

/-- The place behind one more character. -/
def next (p : CallPlace) (c : Char) : CallPlace where
  depth :=
    if p.escaped || p.quoted then p.depth
    else if c = '(' then p.depth + 1
    else if c = ')' then p.depth - 1
    else p.depth
  quoted := if c = '"' && !p.escaped then !p.quoted else p.quoted
  escaped := c == '\\'

/-- The place behind a text. -/
def past (p : CallPlace) (text : List Char) : CallPlace := text.foldl next p

/-- A brace that stands there closes the call. -/
def Closes (p : CallPlace) : Prop := p.escaped = false ∧ p.quoted = false ∧ p.depth ≤ 0

instance (p : CallPlace) : Decidable p.Closes := inferInstanceAs (Decidable (_ ∧ _ ∧ _))

/-- A text that begins there holds a brace that closes the call. -/
def ClosesIn (p : CallPlace) (text : List Char) : Prop :=
  ∃ left right, text = left ++ '}' :: right ∧ (p.past left).Closes

variable {p : CallPlace}

theorem not_closesIn_nil : ¬p.ClosesIn [] := by
  rintro ⟨left, right, h, -⟩
  exact List.append_ne_nil_of_right_ne_nil left (List.cons_ne_nil _ right) h.symm

theorem closesIn_cons {c : Char} {cs : List Char} :
    p.ClosesIn (c :: cs) ↔ (c = '}' ∧ p.Closes) ∨ (p.next c).ClosesIn cs := by
  constructor
  · rintro ⟨left, right, h, hcloses⟩
    cases left with
    | nil => exact .inl ⟨(List.cons.inj h).1, hcloses⟩
    | cons d left =>
      obtain ⟨rfl, rfl⟩ := List.cons.inj h
      exact .inr ⟨left, right, rfl, hcloses⟩
  · rintro (⟨rfl, hcloses⟩ | ⟨left, right, rfl, hcloses⟩)
    · exact ⟨[], cs, rfl, hcloses⟩
    · exact ⟨c :: left, right, rfl, hcloses⟩

/-- The search for the end of a call looks at each character once. -/
theorem findInlineEnd_cons (p : CallPlace) (c : Char) (cs : List Char) :
    findInlineEnd p.depth p.quoted p.escaped (c :: cs) =
      if c = '}' ∧ p.Closes then some ([], cs)
      else
        (findInlineEnd (p.next c).depth (p.next c).quoted (p.next c).escaped cs).map
          fun r => (c :: r.1, r.2) := by
  obtain ⟨depth, quoted, escaped⟩ := p
  rw [findInlineEnd]
  simp only [next, Closes]
  cases escaped with
  | true => simp
  | false =>
    cases quoted with
    | true => by_cases hquote : c = '"' <;> simp [hquote]
    | false =>
      by_cases hquote : c = '"'
      · simp [hquote]
      · by_cases hopen : c = '('
        · simp [hopen]
        · by_cases hclose : c = ')' <;> simp [hquote, hopen, hclose]

/-- The search for an end finds none only where there is none. -/
theorem not_closesIn_of_none {text : List Char}
    (h : findInlineEnd p.depth p.quoted p.escaped text = none) : ¬p.ClosesIn text := by
  induction text generalizing p with
  | nil => exact not_closesIn_nil
  | cons c cs ih =>
    rw [findInlineEnd_cons] at h
    split at h
    · cases h
    · next hbrace =>
      rw [closesIn_cons, not_or]
      exact ⟨hbrace, ih (Option.map_eq_none_iff.1 h)⟩

/-- What the search finds is an end, and the first one. -/
theorem first_of_findInlineEnd {text inner rest : List Char}
    (h : findInlineEnd p.depth p.quoted p.escaped text = some (inner, rest)) :
    (p.past inner).Closes ∧ ¬p.ClosesIn inner := by
  induction text generalizing p inner with
  | nil => cases h
  | cons c cs ih =>
    rw [findInlineEnd_cons] at h
    split at h
    · next hbrace =>
      obtain ⟨rfl, -⟩ := Prod.mk.inj (Option.some.inj h)
      exact ⟨hbrace.2, not_closesIn_nil⟩
    · next hbrace =>
      obtain ⟨⟨left, after⟩, hfind, heq⟩ := Option.map_eq_some_iff.1 h
      obtain ⟨rfl, rfl⟩ := Prod.mk.inj heq
      obtain ⟨hcloses, hfirst⟩ := ih hfind
      refine ⟨hcloses, ?_⟩
      rw [closesIn_cons, not_or]
      exact ⟨hbrace, hfirst⟩

end CallPlace

/-! ## Parts -/

/-- The text of parts in a row. -/
def Fragment.texts (fs : List Fragment) : List Char := fs.flatMap text

/-- How a part is cut from a text, behind `before`. -/
def Fragment.CutBehind (before : List Char) : Fragment → Prop
  | plain text => ¬HasStart before text
  | call inner => trailingBackslashes before % 2 = 0 ∧ CallPlace.Closes (.past {} inner) ∧
      ¬CallPlace.ClosesIn {} inner

/-- The parts of a text that stands behind `past`. If a call in it does not close, `opened` is how
many characters of the text stand before the call. -/
structure Fragment.Parts (past : List Char) (fs : List Fragment) (opened : Option Nat) : Prop where
  /-- Each is cut as it should, but for the last one where a call is left open. -/
  cut : ∀ earlier f later, fs = earlier ++ f :: later →
    f.CutBehind (past ++ texts earlier) ∨ (opened.isSome ∧ later = [])
  /-- The first start in the last part is that of the call that does not close. -/
  unclosed : ∀ n, opened = some n → ∃ earlier left right,
    fs = earlier ++ [plain (left ++ inlineCallMark ++ right)] ∧ n = (texts earlier ++ left).length ∧
      trailingBackslashes (past ++ texts earlier ++ left) % 2 = 0 ∧
      ¬HasStart (past ++ texts earlier) left ∧ ¬CallPlace.ClosesIn {} right

namespace Fragment.Parts

variable {past : List Char}

theorem nil (past : List Char) : Parts past [] none where
  cut earlier f later h := by simp at h
  unclosed := nofun

theorem cons {f : Fragment} {fs : List Fragment} {opened : Option Nat} (hf : f.CutBehind past)
    (h : Parts (past ++ f.text) fs opened) :
    Parts past (f :: fs) (opened.map (f.text.length + ·)) where
  cut earlier g later hfs := by
    cases earlier with
    | nil =>
      obtain ⟨rfl, -⟩ := List.cons.inj hfs
      exact .inl (by simpa [texts] using hf)
    | cons e earlier =>
      obtain ⟨rfl, rfl⟩ := List.cons.inj hfs
      simpa [texts] using h.cut earlier g later rfl
  unclosed n hn := by
    obtain ⟨m, hm, rfl⟩ := Option.map_eq_some_iff.1 hn
    obtain ⟨earlier, left, right, rfl, rfl, hstart⟩ := h.unclosed m hm
    refine ⟨f :: earlier, left, right, rfl, ?_, by simpa [texts] using hstart⟩
    simp [texts]

/-- Plain text in front, if there is any. -/
theorem plain_append {text : List Char} {fs : List Fragment} {opened : Option Nat}
    (ht : ¬HasStart past text) (h : Parts (past ++ text) fs opened) :
    Parts past (Fragment.ofPlain text ++ fs) (opened.map (text.length + ·)) := by
  unfold Fragment.ofPlain
  split
  · next hempty =>
    obtain rfl := List.isEmpty_iff.1 hempty
    simpa using h
  · exact cons (f := .plain text) ht h

/-- From a call that does not close on, all is one part. -/
theorem ofOpen {left right : List Char} (heven : trailingBackslashes (past ++ left) % 2 = 0)
    (hfirst : ¬HasStart past left) (hopen : ¬CallPlace.ClosesIn {} right) :
    Parts past [.plain (left ++ inlineCallMark ++ right)] (some left.length) where
  cut earlier f later hfs := by
    have hlength := congrArg List.length hfs
    simp only [List.length_append, List.length_cons, List.length_nil] at hlength
    exact .inr ⟨rfl, List.eq_nil_of_length_eq_zero (by omega)⟩
  unclosed n hn := by
    obtain rfl := Option.some.inj hn
    exact ⟨[], left, right, rfl, rfl, by simpa [texts] using heven, by simpa [texts] using hfirst,
      hopen⟩

end Fragment.Parts

/-- A text falls into its parts, wherever it stands. -/
theorem parts_cutInlineCalls (offset : Nat) (text : List Char) : ∀ past,
    trailingBackslashes past = 0 →
      ∃ opened, (cutInlineCalls offset text).openAt = opened.map (offset + ·) ∧
        Fragment.Parts past (cutInlineCalls offset text).fragments opened := by
  fun_induction cutInlineCalls offset text with
  | case1 offset text hs =>
    intro past hpast
    rw [← hpast] at hs
    refine ⟨none, rfl, ?_⟩
    simpa using Fragment.Parts.plain_append (not_hasStart_of_none hs) (.nil _)
  | case2 offset text before body hs he =>
    intro past hpast
    have htext := append_of_findInlineStart hs
    rw [← hpast] at hs
    obtain ⟨heven, hfirst⟩ := first_of_findInlineStart hs
    refine ⟨some before.length, rfl, ?_⟩
    have hmark : before ++ inlineCallMark ≠ [] :=
      List.append_ne_nil_of_right_ne_nil before (by decide)
    have hne := List.append_ne_nil_of_left_ne_nil hmark body
    rw [htext] at hne
    rw [Fragment.ofPlain, if_neg (by rwa [List.isEmpty_iff]), ← htext]
    exact .ofOpen heven hfirst (CallPlace.not_closesIn_of_none he)
  | case3 offset text before body hs inner rest he hlt call cut ih =>
    intro past hpast
    rw [← hpast] at hs
    obtain ⟨heven, hfirst⟩ := first_of_findInlineStart hs
    have hcall : call.CutBehind (past ++ before) := ⟨heven, CallPlace.first_of_findInlineEnd he⟩
    -- the brace parts the next mark from what stands before the call
    have hbrace : trailingBackslashes (past ++ before ++ call.text) = 0 := by
      rw [show past ++ before ++ call.text = past ++ before ++ inlineCallMark ++ inner ++ ['}'] by
        simp [call, Fragment.text], trailingBackslashes_concat, if_neg (by decide)]
    obtain ⟨opened, hopened, hparts⟩ := ih _ hbrace
    refine ⟨(opened.map (call.text.length + ·)).map (before.length + ·), ?_,
      .plain_append hfirst (.cons hcall hparts)⟩
    rw [hopened, Option.map_map, Option.map_map]
    refine congrArg (opened.map ·) (funext fun n => ?_)
    simp only [Function.comp_apply]
    omega

/-! ## Texts -/

/-- A text that was cut: what it was glued from, its parts, the segments these became, and how many
characters stand before a call in it that does not close. -/
structure CutText where
  runs : List Run
  fragments : List Fragment
  segments : List Segment
  openAt : Option Nat

namespace CutText

/-- The parts of a text are the text and nothing else; they are cut where calls begin and end; each
became one segment; and each segment begins where the one before it stops. -/
structure Partitions (cut : CutText) : Prop where
  lossless : Fragment.texts cut.fragments = Run.glued cut.runs
  parts : Fragment.Parts [] cut.fragments cut.openAt
  placed : List.Forall₂ (fun f s => ∃ span, s = f.segment span) cut.fragments cut.segments
  contiguous : cut.segments.IsChain fun s next => s.span.stop = next.span.start

/-- The cut of the text that is glued from runs. -/
def ofRuns (runs : List Run) : CutText where
  runs := runs
  fragments := (cutInlineCalls 0 (Run.glued runs)).fragments
  segments := (segmentsOf runs).1
  openAt := (cutInlineCalls 0 (Run.glued runs)).openAt

theorem forall₂_placeFragments (stop : Position) (places : List Position) (fs : List Fragment) :
    List.Forall₂ (fun f s => ∃ span, s = Fragment.segment span f) fs
      (placeFragments stop places fs) := by
  induction fs generalizing places with
  | nil => exact .nil
  | cons f fs ih => exact .cons ⟨_, rfl⟩ (ih _)

theorem contiguous_placeFragments (stop : Position) (places : List Position)
    (fs : List Fragment) :
    (placeFragments stop places fs).IsChain fun s next => s.span.stop = next.span.start := by
  induction fs generalizing places with
  | nil => exact .nil
  | cons f fs ih =>
    rw [placeFragments]
    refine List.isChain_cons.2 ⟨fun next hnext => ?_, ih _⟩
    cases fs with
    | nil => cases hnext
    | cons g gs =>
      obtain rfl := Option.some.inj hnext
      simp

theorem partitions_ofRuns (runs : List Run) : (ofRuns runs).Partitions where
  lossless := (texts_cutInlineCalls 0 (Run.glued runs)).1
  parts := by
    obtain ⟨opened, hopened, hparts⟩ := parts_cutInlineCalls 0 (Run.glued runs) [] rfl
    have hsame : (ofRuns runs).openAt = opened := by simpa [ofRuns] using hopened
    rw [hsame]
    exact hparts
  placed := forall₂_placeFragments _ _ _
  contiguous := contiguous_placeFragments _ _ _

/-- What is said about a call that does not close. -/
def reports (cut : CutText) : List Diagnostic :=
  cut.openAt.toList.map fun n => ⟨.openInlineCall, .point (Run.placeAt cut.runs n)⟩

theorem reports_ofRuns (runs : List Run) : (ofRuns runs).reports = (segmentsOf runs).2 := rfl

/-- The cut belongs to a statement: its segments are those of the statement, and a choice has kept
the text as it was. -/
def IsOf (cut : CutText) : Statement → Prop
  | .replica r => cut.segments = r.segments
  | .choice c _ => cut.segments = c.segments ∧ Run.glued cut.runs = (c.text?.getD "").toList
  | .goto _ | .call _ => False

end CutText

/-- The statements that have a text. -/
def Statement.holdsText : Statement → Bool
  | .replica _ | .choice .. => true
  | .goto _ | .call _ => false

/-- The text of the statement that begins at a token when `ts` follows, if it has one: the runs that
it is glued from. -/
def Token.texts (t : Token) (ts : List Token) : List (List Run) :=
  if t.kind.opensText then [(t.shares ts).map Share.toRun] else []

/-- The texts of all statements that begin at the tokens that are read. -/
def gluedTexts (tokens : List Token) : List (List Run) :=
  (heard false tokens).flatMap fun o => o.1.texts o.2

theorem found_texts : FoundAtOpening Token.texts where
  nil_of_not_opening := by
    intro t ts h
    unfold Token.texts
    cases hk : t.kind <;> simp_all [Kind.isOpening, Kind.opensText]
  append_detached := by
    intro t ts rest h
    rw [Token.texts, Token.texts, shares_append ts h]

/-! ## Statements and their texts -/

/-- The text that a choice keeps is the one that is cut. -/
theorem text_readChoiceText (ts : List Token) :
    ((((readChoiceText ts).inlineText <|> (readChoiceText ts).blockText).getD "").toList) =
      Run.glued (readChoiceText ts).runs := by
  unfold readChoiceText
  split
  · unfold readInlineText
    split
    · simp [Run.glued]
    · rfl
  · unfold readBlockText
    dsimp only
    split <;> exact String.toList_ofList
  · rfl

section
variable {t : Token} {ts : List Token} {tags choiceTags : List Tag} {body : List Statement}

theorem texts_of_statement? {s : Statement}
    (h : (readItem t ts).item.statement? tags choiceTags body = some s) :
    List.Forall₂ (fun runs s => (CutText.ofRuns runs).IsOf s) (t.texts ts)
      ([s].filter Statement.holdsText) := by
  have hsegments := segments_of_statement? h
  unfold Token.texts
  cases statementRead h with
  | goto hk | call hk =>
    rw [hk]
    exact .nil
  | replica hk =>
    rw [hk]
    exact .cons hsegments.symm .nil
  | choice hk _ hi =>
    obtain ⟨rfl, -⟩ := Item.choice.inj hi
    have htext := (text_readChoiceText ts).symm
    have hshares : t.shares ts = choiceShares ts := by rw [Token.shares, hk]
    rw [← runs_choiceShares, ← hshares] at htext
    rw [hk]
    exact .cons ⟨hsegments.symm, htext⟩ .nil

/-- What is no statement has no text. -/
theorem texts_of_no_statement (h : (readItem t ts).item.statement? [] [] [] = none) :
    t.texts ts = [] := by
  unfold readItem at h
  unfold Token.texts
  cases hk : t.kind with
  | replicaBegin => simp [hk, Item.statement?] at h
  | choice =>
    simp only [hk, readChoice] at h
    cases hb : readIndented (readChoiceText ts).rest <;> simp [hb, Item.statement?] at h
  | _ => rfl

theorem texts_parseBlock (tags choiceTags : List Tag) (ts : List Token) :
    List.Forall₂ (fun runs s => (CutText.ofRuns runs).IsOf s) (collect Token.texts ts)
      ((Statement.preorders (parseBlock tags choiceTags ts).statements).filter
        Statement.holdsText) := by
  -- an item without a statement has no text of its own and no body
  have skip : ∀ {t : Token} {ts : List Token} {us : List (List Run)},
      (readItem t ts).item.statement? [] [] [] = none →
      us = collect Token.texts (readItem t ts).rest → (readItem t ts).item.inside = [] →
      collect Token.texts (t :: ts) = us := by
    intro t ts us hnone hus hinside
    rw [collect_readItem found_texts, texts_of_no_statement hnone, hinside, hus]
    rfl
  refine parseBlock_induction (motive := fun _ _ ts block =>
    List.Forall₂ _ (collect Token.texts ts)
      ((Statement.preorders block.statements).filter Statement.holdsText))
    ?nil ?tag ?choiceTag ?skipped ?statement tags choiceTags ts
  case nil =>
    intro _ _
    exact .nil
  case tag =>
    intro _ _ t ts tag block hi ih
    rwa [skip (by rw [hi]; rfl) rfl (by rw [hi]; rfl)]
  case choiceTag =>
    intro _ _ t ts tag block hi ih
    rwa [skip (by rw [hi]; rfl) rfl (by rw [hi]; rfl)]
  case skipped =>
    intro _ _ t ts block hi ih
    rwa [skip (by rw [hi]; rfl) rfl (by rw [hi]; rfl)]
  case statement =>
    intro tags choiceTags t ts s body block hb hs ihbody ih
    subst hb
    have hitem := texts_of_statement? hs
    rw [collect_readItem found_texts, Block.push, Statement.preorders, preorder_of_statement? hs,
      List.filter_append, ← List.singleton_append, List.filter_append]
    exact List.rel_append (List.rel_append hitem ihbody) ih

theorem texts_parseWindows (tags : List Tag) (ws : List (Token × List Token)) :
    List.Forall₂ (fun runs s => (CutText.ofRuns runs).IsOf s)
      (ws.flatMap fun w => if beginsWithName w.2 then collect Token.texts w.2 else [])
      (((parseWindows tags ws).1.flatMap Section.preorder).filter Statement.holdsText) := by
  induction tags, ws using parseWindows.induct with
  | case1 tags => exact .nil
  | case2 tags header name span inside rest block ih =>
    rw [parseWindows, List.flatMap_cons, List.flatMap_cons, List.filter_append,
      if_pos (by rfl), collect_identifier found_texts]
    exact List.rel_append (texts_parseBlock [] [] inside) ih
  | case3 tags header ts rest hname ih =>
    rw [parseWindows, List.flatMap_cons, beginsWithName_eq_false hname]
    · exact ih
    · exact hname

/-- The texts of a story are those that begin at the tokens that are read, in the order of these. -/
theorem texts_parse (tokens : List Token) :
    List.Forall₂ (fun runs s => (CutText.ofRuns runs).IsOf s) (gluedTexts tokens)
      ((parse tokens).story.preorder.filter Statement.holdsText) := by
  rw [Story.preorder,
    flatMap_sections_parse Section.preorder Statement.preorders (fun _ _ => rfl) rfl tokens,
    gluedTexts, collect_heard found_texts, List.filter_append]
  exact List.rel_append (texts_parseBlock [] [] _) (texts_parseWindows _ _)

end

/-! ## Reports on texts -/

/-- What is found in the texts and arguments of statements is reported at the tokens that begin a
statement, and nowhere else. -/
theorem reports_text_parse {p : Finding → Bool} {found : Token → List Token → List Diagnostic}
    (hp : ∀ f, p f → f.isOfText) (hf : FoundAtOpening found)
    (hitem : ∀ t ts, reports p (readItem t ts).diagnostics = found t ts) (tokens : List Token) :
    reports p (parse tokens).diagnostics =
      (heard false tokens).flatMap fun o => found o.1 o.2 := by
  have hother : ∀ f : Finding, f.isOfText = false → p f = false := by
    intro f hf
    by_contra h
    rw [hp f (by simpa using h)] at hf
    cases hf
  have hitems : ReportsItems p found :=
    { atOpening := hf
      item := hitem
      looseTags := fun _ => reports_eq_nil (List.forall_mem_map.2 fun _ _ => hother _ rfl)
      looseChoiceTags := fun _ => reports_eq_nil (List.forall_mem_map.2 fun _ _ => hother _ rfl) }
  exact reports_parse hitems (hother _ rfl) tokens

/-- Whether a finding is about a call that does not close. -/
def Finding.isUnclosed (f : Finding) : Bool := f = .openInlineCall

theorem Finding.isKind_openInlineCall : IsKind isUnclosed fun _ : Unit => openInlineCall where
  ctorIdx f _ := by cases f <;> rfl
  exists_eq _ h := ⟨(), of_decide_eq_true h⟩

theorem reports_unclosed_segmentsOf (runs : List Run) :
    reports Finding.isUnclosed (segmentsOf runs).2 = (segmentsOf runs).2 :=
  reports_eq_self (List.forall_mem_map.2 fun _ _ => rfl)

theorem reports_unclosed_readChoiceText (ts : List Token) :
    reports Finding.isUnclosed (readChoiceText ts).diagnostics = [] := by
  unfold readChoiceText
  split
  · unfold readInlineText
    split <;> rfl
  · unfold readBlockText
    dsimp only
    split <;> rfl
  · rfl

theorem reports_unclosed_readItem (t : Token) (ts : List Token) :
    reports Finding.isUnclosed (readItem t ts).diagnostics =
      (t.texts ts).flatMap fun runs => (CutText.ofRuns runs).reports := by
  unfold Token.texts readItem
  cases hk : t.kind with
  | goto arrow =>
    dsimp only
    cases readTarget ts <;> rfl
  | call name =>
    dsimp only
    unfold readCall
    dsimp only
    split <;> rfl
  | replicaBegin =>
    have hshares : t.shares ts = speechShares
        ((ts.takeWhile fun u => u.speech?.isSome || u.isTrivia).filter (·.speech?.isSome)) := by
      rw [Token.shares, hk]
    rw [if_pos (by rfl), List.flatMap_singleton, CutText.reports_ofRuns, hshares, runs_speechShares]
    exact reports_unclosed_segmentsOf _
  | choice =>
    have hruns : (t.shares ts).map Share.toRun = (readChoiceText ts).runs := by
      rw [Token.shares, hk, runs_choiceShares]
    rw [if_pos (by rfl), List.flatMap_singleton, CutText.reports_ofRuns, hruns]
    dsimp only [readChoice]
    rw [reports_append, reports_unclosed_readChoiceText, reports_unclosed_segmentsOf,
      List.nil_append]
  | _ => rfl

/-! ## Stories -/

/-- Every text of a story is cut into parts without loss, from left to right, and a call in it that
does not close is reported, once for the text. -/
theorem texts_partitioned (tokens : List Token) :
    ∃ cuts : List CutText,
      cuts.map CutText.runs = gluedTexts tokens ∧
      List.Forall₂ CutText.IsOf cuts ((parse tokens).story.preorder.filter Statement.holdsText) ∧
      (∀ cut ∈ cuts, cut.Partitions) ∧
      (parse tokens).issues.filter (·.message = "Unterminated inline call") =
        cuts.flatMap fun cut => cut.openAt.toList.map fun n =>
          ⟨.warning, "Unterminated inline call", some (.point (Run.placeAt cut.runs n))⟩ := by
  have hp : ∀ f : Finding, f.isUnclosed → f.isOfText := by
    intro f hf
    obtain rfl := of_decide_eq_true hf
    rfl
  have hfound : FoundAtOpening fun t ts =>
      (t.texts ts).flatMap fun runs => (CutText.ofRuns runs).reports := by
    refine ⟨fun t ts h => ?_, fun t ts rest h => ?_⟩
    · simp only [found_texts.nil_of_not_opening t ts h, List.flatMap_nil]
    · simp only [found_texts.append_detached t ts rest h]
  refine ⟨(gluedTexts tokens).map CutText.ofRuns, ?_, ?_, ?_, ?_⟩
  · rw [List.map_map]
    exact List.map_id _
  · exact List.forall₂_map_left_iff.2 (texts_parse tokens)
  · exact List.forall_mem_map.2 fun runs _ => CutText.partitions_ofRuns runs
  · refine (filter_message Finding.isKind_openInlineCall _).trans ?_
    rw [reports_text_parse hp hfound reports_unclosed_readItem, gluedTexts]
    simp only [List.map_flatMap, List.flatMap_map, List.flatMap_assoc, CutText.reports,
      List.map_map]
    rfl

end StoryScript

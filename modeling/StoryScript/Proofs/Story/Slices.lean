import StoryScript.Proofs.Story.Segments
import StoryScript.Proofs.Token.Texts
/-!
# What the spans of segments show

The text of a replica or a choice is glued from what its tokens give to it (`Share`), and cut again
at its inline calls. A segment that comes from one speech or one choice text alone has a span that
shows it and nothing more, but for one case: where the segment ends with a speech and another speech
follows on the same line, the span goes on to that speech, over whatever is not said between the two
(`segments_sliced`).
-/

namespace StoryScript

open Token (Kind)

/-! ## Shares -/

/-- A part of a text and the token that gives it. The line feed between two lines of speech is given
by none. -/
structure Share extends Run where
  token : Option Token
deriving DecidableEq, Repr

/-- What a token gives to a text. -/
def Token.share (t : Token) (r : Option Run) : List Share := r.toList.map (⟨·, some t⟩)

/-- The shares of speeches in a row. -/
def speechShares : List Token → List Share
  | [] => []
  | [t] => t.share t.speech?
  | t :: u :: ts =>
    let feed : List Share := if t.span.stop.line = u.span.start.line then [] else
      t.speech?.toList.map fun r => ⟨⟨['\n'], r.stop⟩, none⟩
    t.share t.speech? ++ feed ++ speechShares (u :: ts)

/-- The shares of the text behind a choice: the text on its line, or all between bounds. -/
def choiceShares : List Token → List Share
  | ⟨.choiceBound true, _⟩ :: ⟨.choiceText text, span⟩ :: _ =>
    [⟨⟨text.toList, span.start⟩, some ⟨.choiceText text, span⟩⟩]
  | ⟨.choiceBound false, _⟩ :: ts =>
    (ts.takeWhile (·.blockRun?.isSome)).flatMap fun t => t.share t.blockRun?
  | _ => []

/-- The shares of the text of the statement that begins at a token when `ts` follows. -/
def Token.shares (t : Token) (ts : List Token) : List Share :=
  match t.kind with
  | .replicaBegin =>
    speechShares ((ts.takeWhile fun u => u.speech?.isSome || u.isTrivia).filter (·.speech?.isSome))
  | .choice => choiceShares ts
  | _ => []

/-- The kinds that a text is read behind. -/
def Token.Kind.opensText : Kind → Bool
  | .replicaBegin | .choice => true
  | _ => false

/-- The shares of the text of what begins at a place. -/
def sharesAt (start : Position) : List Token → List Share
  | [] => []
  | t :: ts => if t.kind.opensText ∧ t.span.start = start then t.shares ts else sharesAt start ts

/-- The shares of the text of a statement that tokens begin. -/
def Statement.shares (tokens : List Token) : Statement → List Share
  | .replica r => sharesAt r.span.start tokens
  | .choice c _ => sharesAt c.span.start tokens
  | .goto _ | .call _ => []

/-- The text that shares make. -/
def Share.texts (shares : List Share) : List Char := Run.glued (shares.map Share.toRun)

/-! ## Segments within a token -/

/-- A stretch `text` of a text, behind `before`, that comes from one speech or choice text alone. -/
structure Lodged (shares : List Share) (before text : List Char) where
  earlier : List Share
  share : Share
  later : List Share
  token : Token
  /-- What the token gives before the stretch and behind it. -/
  left : List Char
  right : List Char
  shares_eq : shares = earlier ++ share :: later
  token_eq : share.token = some token
  said : token.kind.isSaid
  text_eq : share.text = left ++ (text ++ right)
  before_eq : before = Share.texts earlier ++ left

/-- The stretch ends with its speech, and the text goes on with another speech, with no line feed
between them. -/
def Lodged.Overruns {shares : List Share} {before text : List Char}
    (l : Lodged shares before text) : Prop :=
  l.right = [] ∧ l.token.speech?.isSome ∧ ∃ next ∈ l.later.head?, next.token.isSome

/-- The segments that fragments of a text become, behind `before`. The span of a fragment that comes
from one token alone shows the fragment, and more than it only if the fragment overruns. -/
inductive Sliced (source : List Char) (shares : List Share) :
    List Char → List Fragment → List Segment → Prop where
  | nil (before : List Char) : Sliced source shares before [] []
  | cons {before : List Char} {f : Fragment} {fs : List Fragment} {span : Span}
      {segments : List Segment}
      (h : ∀ l : Lodged shares before f.text, ∃ gap,
        span.text? source = some (f.text ++ gap) ∧ (gap ≠ [] ↔ l.Overruns))
      (hs : Sliced source shares (before ++ f.text) fs segments) :
    Sliced source shares before (f :: fs) (f.segment span :: segments)

/-! ## Places in a glued text -/

namespace Run

/-- Where the character of a glued text stands that `n` others stand before. -/
def placeAt (runs : List Run) (n : Nat) : Position :=
  ((gluedPlaces runs).drop n).headD (gluedStop runs)

theorem places_append (p : Position) (as bs : List Char) :
    places p (as ++ bs) = places p as ++ places (p.advance as) bs := by
  induction as generalizing p with
  | nil => rfl
  | cons a as ih => rw [List.cons_append, places, ih, places, List.cons_append, Position.advance_cons]

/-- The places from somewhere inside a run on. -/
theorem drop_gluedPlaces (earlier later : List Run) {r : Run} {left right : List Char}
    (h : r.text = left ++ right) :
    (gluedPlaces (earlier ++ r :: later)).drop ((glued earlier).length + left.length) =
      places (r.start.advance left) right ++ gluedPlaces later := by
  have hsplit : gluedPlaces (earlier ++ r :: later) =
      gluedPlaces earlier ++ (places r.start left ++
        (places (r.start.advance left) right ++ gluedPlaces later)) := by
    simp [gluedPlaces, h, places_append]
  rw [hsplit, ← length_gluedPlaces, List.drop_length_add_append, ← length_places r.start left,
    List.drop_left]

theorem placeAt_inside (earlier later : List Run) {r : Run} {left right : List Char}
    (h : r.text = left ++ right) (hr : right ≠ []) :
    placeAt (earlier ++ r :: later) ((glued earlier).length + left.length) =
      r.start.advance left := by
  obtain ⟨c, cs, rfl⟩ := List.exists_cons_of_ne_nil hr
  rw [placeAt, drop_gluedPlaces earlier later h]
  rfl

/-- At the end of a run the next one is looked up. -/
theorem placeAt_end (earlier later : List Run) (r : Run)
    (hl : ∀ next ∈ later.head?, next.text ≠ []) :
    placeAt (earlier ++ r :: later) ((glued earlier).length + r.text.length) =
      (later.head?.map Run.start).getD r.stop := by
  rw [placeAt, drop_gluedPlaces earlier later (List.append_nil _).symm]
  cases later with
  | nil => simp [gluedPlaces, places, gluedStop]
  | cons next later =>
    obtain ⟨c, cs, hc⟩ := List.exists_cons_of_ne_nil (hl next rfl)
    simp [gluedPlaces, places, hc]

end Run

theorem sliced_placeFragments {source : List Char} {shares : List Share} {fs : List Fragment}
    (hne : ∀ f ∈ fs, f.text ≠ [])
    (h : ∀ before text, text ≠ [] → ∀ l : Lodged shares before text, ∃ gap,
      Span.text? ⟨Run.placeAt (shares.map Share.toRun) before.length,
        Run.placeAt (shares.map Share.toRun) (before ++ text).length⟩ source = some (text ++ gap) ∧
          (gap ≠ [] ↔ l.Overruns))
    (before : List Char) :
    Sliced source shares before fs (placeFragments (Run.gluedStop (shares.map Share.toRun))
      ((Run.gluedPlaces (shares.map Share.toRun)).drop before.length) fs) := by
  induction fs generalizing before with
  | nil => exact .nil before
  | cons f fs ih =>
    have hdrop := List.drop_drop (i := f.text.length) (j := before.length)
      (l := Run.gluedPlaces (shares.map Share.toRun))
    rw [← List.length_append] at hdrop
    rw [placeFragments, hdrop]
    exact .cons (h before f.text (hne f (by simp)))
      (ih (fun g hg => hne g (by simp [hg])) (before ++ f.text))

/-! ## Shares in a source -/

namespace Share

/-- Whether a speech or a choice text gives the share. -/
def isSaid (sh : Share) : Bool := sh.token.any (·.kind.isSaid)

/-- How a share lies in a source. -/
structure Fits (source : List Char) (sh : Share) : Prop where
  coherent : sh.start.Coherent source
  shown : sh.isSaid → ∃ before after, source = before ++ sh.text ++ after ∧
    sh.start = Position.origin.advance before

/-- How the place of a share is to that of the next, which has a text. -/
structure Meets (sh next : Share) : Prop where
  ne_nil : next.text ≠ []
  start : ∀ t, sh.token = some t → t.kind.isSaid →
    if t.speech?.isSome ∧ next.token.isSome then sh.stop.offset < next.start.offset
    else next.start = sh.stop

/-- Shares one behind the other in a source. -/
structure Linked (source : List Char) (shares : List Share) : Prop where
  fits : ∀ sh ∈ shares, sh.Fits source
  meets : shares.IsChain Meets

end Share

/-- A place behind a text that the source shows is some more of the source away. -/
theorem exists_gap {source before text after : List Char} {p : Position}
    (hsource : source = before ++ text ++ after) (hp : p.Coherent source)
    (h : (Position.origin.advance (before ++ text)).offset < p.offset) :
    ∃ gap rest, gap ≠ [] ∧ source = before ++ (text ++ gap) ++ rest ∧
      p = Position.origin.advance (before ++ (text ++ gap)) := by
  obtain ⟨upTo, rest, hrest, rfl⟩ := Position.coherent_iff.1 hp
  obtain ⟨gap, rfl⟩ := Position.prefix_of_offset_le (hsource ▸ List.prefix_append _ _)
    (hrest ▸ List.prefix_append _ _) h.le
  refine ⟨gap, rest, ?_, by simpa using hrest, by simp⟩
  rintro rfl
  simp at h

namespace Lodged

variable {shares : List Share} {before text : List Char} (l : Lodged shares before text)

theorem runs_eq : shares.map Share.toRun =
    l.earlier.map Share.toRun ++ l.share.toRun :: l.later.map Share.toRun := by
  have hruns := congrArg (List.map Share.toRun) l.shares_eq
  rwa [List.map_append, List.map_cons] at hruns

theorem mem_shares {sh : Share} (h : sh ∈ l.share :: l.later) : sh ∈ shares := by
  have hmem : sh ∈ l.earlier ++ l.share :: l.later := List.mem_append_right _ h
  exact l.shares_eq ▸ hmem

theorem length_before :
    before.length = (Run.glued (l.earlier.map Share.toRun)).length + l.left.length := by
  have hlength := congrArg List.length l.before_eq
  rwa [List.length_append, Share.texts] at hlength

theorem length_append : (before ++ text).length =
    (Run.glued (l.earlier.map Share.toRun)).length + (l.left ++ text).length := by
  rw [List.length_append, l.length_before, List.length_append, Nat.add_assoc]

/-- A stretch starts where its token has it. -/
theorem placeAt_start (ht : text ≠ []) :
    Run.placeAt (shares.map Share.toRun) before.length = l.share.start.advance l.left := by
  rw [l.runs_eq, l.length_before]
  exact Run.placeAt_inside _ _ l.text_eq (by simp [ht])

/-- It stops there as well if its token has more behind it. -/
theorem placeAt_stop (hr : l.right ≠ []) :
    Run.placeAt (shares.map Share.toRun) (before ++ text).length =
      l.share.start.advance (l.left ++ text) := by
  rw [l.runs_eq, l.length_append]
  exact Run.placeAt_inside _ _ (by rw [l.text_eq, List.append_assoc]) hr

/-- Otherwise it stops where the next share starts. -/
theorem placeAt_end (hr : l.right = []) (hne : ∀ next ∈ l.later.head?, next.text ≠ []) :
    Run.placeAt (shares.map Share.toRun) (before ++ text).length =
      (l.later.head?.map (·.start)).getD (l.share.start.advance (l.left ++ text)) := by
  have htext : l.share.text = l.left ++ text := by
    rw [l.text_eq, hr, List.append_nil]
  rw [l.runs_eq, l.length_append, ← htext, Run.placeAt_end]
  · rw [List.head?_map, Option.map_map]
    rfl
  · intro next hnext
    rw [List.head?_map] at hnext
    obtain ⟨sh, hsh, rfl⟩ := Option.map_eq_some_iff.1 hnext
    exact hne sh hsh

theorem meets_next (h : shares.IsChain Share.Meets) {next : Share} (hn : l.later.head? = some next) :
    l.share.Meets next := by
  have hchain : (l.earlier ++ l.share :: l.later).IsChain Share.Meets := l.shares_eq ▸ h
  exact (List.isChain_cons.1 (List.isChain_append.1 hchain).2.1).1 next hn

theorem stop_share (hr : l.right = []) : l.share.stop = l.share.start.advance (l.left ++ text) := by
  rw [Run.stop, l.text_eq, hr, List.append_nil]

section
variable {source : List Char} (h : Share.Linked source shares)
include h

theorem next_ne_nil : ∀ next ∈ l.later.head?, next.text ≠ [] :=
  fun _ hn => (l.meets_next h.meets hn).ne_nil

/-- A stretch that does not overrun stops where its token has the end of it. -/
theorem placeAt_of_not_overruns (hover : ¬l.Overruns) :
    Run.placeAt (shares.map Share.toRun) (before ++ text).length =
      l.share.start.advance (l.left ++ text) := by
  by_cases hr : l.right = []
  · rw [l.placeAt_end hr (l.next_ne_nil h)]
    cases hnext : l.later.head? with
    | none => rfl
    | some next =>
      have hstart := (l.meets_next h.meets hnext).start l.token l.token_eq l.said
      rw [if_neg fun hboth => hover ⟨hr, hboth.1, next, hnext, hboth.2⟩] at hstart
      exact hstart.trans (l.stop_share hr)
  · exact l.placeAt_stop hr

/-- One that overruns stops further on, where another share begins. -/
theorem placeAt_of_overruns (hover : l.Overruns) :
    ∃ next ∈ shares, l.share.stop.offset < next.start.offset ∧
      Run.placeAt (shares.map Share.toRun) (before ++ text).length = next.start := by
  obtain ⟨hr, hspeech, next, hnext, hsome⟩ := hover
  have hstart := (l.meets_next h.meets hnext).start l.token l.token_eq l.said
  rw [if_pos ⟨hspeech, hsome⟩] at hstart
  have hmem := l.mem_shares (List.mem_cons_of_mem _ (List.mem_of_mem_head? hnext))
  refine ⟨next, hmem, hstart, ?_⟩
  rw [l.placeAt_end hr (l.next_ne_nil h), Option.mem_def.1 hnext]
  rfl

/-- A stretch of one token is shown from its beginning on, and up to its end unless it overruns. -/
theorem slice (ht : text ≠ []) :
    ∃ gap, Span.text? ⟨Run.placeAt (shares.map Share.toRun) before.length,
        Run.placeAt (shares.map Share.toRun) (before ++ text).length⟩ source = some (text ++ gap) ∧
      (gap ≠ [] ↔ l.Overruns) := by
  obtain ⟨front, after, hsource, hstart⟩ :=
    (h.fits l.share (l.mem_shares List.mem_cons_self)).shown
      (by simp [Share.isSaid, l.token_eq, l.said])
  rw [l.text_eq] at hsource
  have hshown : ∀ gap rest, source = front ++ l.left ++ (text ++ gap) ++ rest →
      Span.text? ⟨l.share.start.advance l.left, l.share.start.advance (l.left ++ (text ++ gap))⟩
        source = some (text ++ gap) := by
    intro gap rest hrest
    have hslice := Span.text?_ofText (front ++ l.left) (text ++ gap) rest
    rw [hstart, hrest]
    simpa [Span.ofText, Position.advance_append] using hslice
  rw [l.placeAt_start ht]
  by_cases hover : l.Overruns
  · obtain ⟨next, hnext, hlt, hstop⟩ := l.placeAt_of_overruns h hover
    rw [l.stop_share hover.1, hstart, ← Position.advance_append, ← List.append_assoc] at hlt
    have hwhole : source = front ++ l.left ++ text ++ after := by simpa [hover.1] using hsource
    obtain ⟨gap, rest, hgap, hrest, hp⟩ :=
      exists_gap hwhole (h.fits next hnext).coherent hlt
    refine ⟨gap, ?_, iff_of_true hgap hover⟩
    have hend : next.start = l.share.start.advance (l.left ++ (text ++ gap)) := by
      rw [hp, hstart, ← Position.advance_append, List.append_assoc]
    rw [hstop, hend]
    exact hshown gap rest hrest
  · refine ⟨[], ?_, iff_of_false (by simp) hover⟩
    have hexact := hshown [] (l.right ++ after) (by simpa using hsource)
    rw [List.append_nil] at hexact ⊢
    rw [l.placeAt_of_not_overruns h hover]
    exact hexact

end

end Lodged

/-! ## Shares of the tokens of a source -/

/-- What a token gives to a text is its lexeme, or the line feed that its line end stands for. -/
theorem text_of_lexeme {t : Token} {r : Run} (hr : t.speech? = some r ∨ t.blockRun? = some r)
    {l : List Char} (hlex : t.kind.Lexeme l) :
    r.start = t.span.start ∧ (r.text = l ∨ t.kind = .newline ∧ r.text = ['\n']) := by
  unfold Token.speech? Token.blockRun? at hr
  cases hk : t.kind with
  | speech text | choiceText text | comment text | commentText text =>
    rw [hk] at hr hlex
    obtain rfl : ⟨text.toList, t.span.start⟩ = r := by
      simpa [Kind.isTrivia, Kind.value] using hr
    exact ⟨rfl, .inl hlex.symm⟩
  | commentOpen | commentClose =>
    rw [hk] at hr hlex
    rcases hr with hr | hr
    · cases hr
    · obtain rfl := Option.some.inj hr
      exact ⟨rfl, .inl (Eq.symm hlex)⟩
  | newline =>
    rw [hk] at hr
    rcases hr with hr | hr
    · cases hr
    · obtain rfl := Option.some.inj hr
      exact ⟨rfl, .inr ⟨rfl, rfl⟩⟩
  | _ => simp [hk, Kind.isTrivia] at hr

/-- How the share of a token lies in the source of the token. -/
theorem fits_of_lies {source : List Char} {t : Token} {r : Run}
    (h : t.Lies Position.origin source) (hr : t.speech? = some r ∨ t.blockRun? = some r) :
    Share.Fits source ⟨r, some t⟩ ∧ r.start = t.span.start ∧
      (t.kind.isSaid → r.stop = t.span.stop) ∧
      (t.span.start.offset < t.span.stop.offset → r.text ≠ []) := by
  obtain ⟨before, text, after, rfl, hspan, hlex⟩ := h
  obtain ⟨hstart, htext⟩ := text_of_lexeme hr hlex
  have hplace : r.start = Position.origin.advance before := by rw [hstart, hspan, Span.ofText]
  have hsaid : t.kind.isSaid → r.text = text := by
    intro hs
    refine htext.resolve_right fun hn => ?_
    rw [hn.1] at hs
    cases hs
  refine ⟨⟨?_, fun hs => ⟨before, after, ?_, hplace⟩⟩, hstart, fun hs => ?_, fun hlt => ?_⟩
  · rw [hplace, List.append_assoc]
    exact Position.coherent_advance before _
  · rw [hsaid hs]
  · rw [Run.stop, hsaid hs, hplace, hspan, Span.ofText]
  · rcases htext with htext | ⟨-, htext⟩
    · rw [htext]
      rintro rfl
      rw [hspan] at hlt
      exact Nat.lt_irrefl _ hlt
    · rw [htext]
      exact List.cons_ne_nil _ _

namespace Share.Linked

variable {source : List Char}

theorem nil (source : List Char) : Linked source [] := ⟨nofun, .nil⟩

theorem cons {sh : Share} {shares : List Share} (hf : sh.Fits source)
    (hm : ∀ next ∈ shares.head?, sh.Meets next) (h : Linked source shares) :
    Linked source (sh :: shares) :=
  ⟨List.forall_mem_cons.2 ⟨hf, h.fits⟩, List.isChain_cons.2 ⟨hm, h.meets⟩⟩

end Share.Linked

/-- A line feed stands where the line before it ends. -/
theorem Share.meets_feed (sh : Share) : sh.Meets ⟨⟨['\n'], sh.stop⟩, none⟩ := by
  refine ⟨List.cons_ne_nil _ _, fun t _ _ => ?_⟩
  rw [if_neg (by simp)]

theorem head?_speechShares {t : Token} {r : Run} (h : t.speech? = some r) (ts : List Token) :
    (speechShares (t :: ts)).head? = some ⟨r, some t⟩ := by
  cases ts <;> simp [speechShares, Token.share, h]

theorem isSaid_of_speech {t : Token} (h : t.speech?.isSome) : t.kind.isSaid := by
  unfold Token.speech? at h
  cases hk : t.kind <;> simp_all [Kind.isSaid]

/-- The shares of speeches that stand apart. -/
theorem linked_speechShares {source : List Char} {us : List Token}
    (hl : ∀ u ∈ us, u.Lies Position.origin source) (hs : ∀ u ∈ us, u.speech?.isSome)
    (hlt : ∀ u ∈ us, u.span.start.offset < u.span.stop.offset)
    (hc : us.IsChain (·.span.stop.offset < ·.span.start.offset)) :
    Share.Linked source (speechShares us) := by
  induction us using speechShares.induct with
  | case1 => exact .nil source
  | case2 t =>
    obtain ⟨r, hr⟩ := Option.isSome_iff_exists.1 (hs t (by simp))
    simp only [speechShares, Token.share, hr, Option.toList_some, List.map_singleton]
    exact .cons (fits_of_lies (hl t (by simp)) (.inl hr)).1 nofun (.nil source)
  | case3 t u ts ih =>
    obtain ⟨r, hr⟩ := Option.isSome_iff_exists.1 (hs t (by simp))
    obtain ⟨r', hr'⟩ := Option.isSome_iff_exists.1 (hs u (by simp))
    obtain ⟨hfits, -, hstop, -⟩ := fits_of_lies (hl t (by simp)) (.inl hr)
    obtain ⟨-, hstart, -, hne⟩ := fits_of_lies (hl u (by simp)) (.inl hr')
    have htext := hne (hlt u (by simp))
    have hstop := hstop (isSaid_of_speech (hs t (by simp)))
    have hlater := ih (List.forall_mem_cons.1 hl).2 (List.forall_mem_cons.1 hs).2
      (List.forall_mem_cons.1 hlt).2 (List.isChain_cons.1 hc).2
    have hhead := head?_speechShares hr' ts
    simp only [speechShares, Token.share, hr, Option.toList_some, List.map_singleton]
    split
    · -- the next speech stands on the same line, behind a comment
      rw [List.append_nil, List.singleton_append]
      refine .cons hfits ?_ hlater
      rw [hhead]
      rintro _ ⟨⟩
      refine ⟨htext, ?_⟩
      rintro _ ⟨⟩ -
      rw [if_pos ⟨hs t (by simp), rfl⟩, hstop, hstart]
      exact (List.isChain_cons.1 hc).1 u rfl
    · have hfeed : Share.Fits source ⟨⟨['\n'], r.stop⟩, none⟩ := by
        refine ⟨?_, nofun⟩
        rw [hstop]
        exact (stands_speech (hl t (by simp)) hr).2.2
      rw [List.append_assoc, List.singleton_append, List.singleton_append]
      refine .cons hfits ?_ (.cons hfeed ?_ hlater)
      · rintro _ ⟨⟩
        exact Share.meets_feed _
      · rw [hhead]
        rintro _ ⟨⟩
        exact ⟨htext, nofun⟩

theorem not_level_of_trivia {t : Token} (h : t.isTrivia) :
    t.kind.isLevel = false ∧ t.kind.isError = false := by
  unfold Token.isTrivia at h
  cases hk : t.kind <;> simp_all [Kind.isTrivia, Kind.isLevel, Kind.isError]

/-- Something with a text stands between the speeches of a replica. -/
theorem apart_speeches {us : List Token} (hu : ∀ u ∈ us, u.speech?.isSome || u.isTrivia)
    (hp : us.IsChain Token.Laid.Parted) (ho : Token.InOrder us) :
    (us.filter (·.speech?.isSome)).IsChain (·.span.stop.offset < ·.span.start.offset) := by
  induction us with
  | nil => exact .nil
  | cons t us ih =>
    obtain ⟨hnext, hrest⟩ := List.isChain_cons.1 hp
    have hlater := ih (List.forall_mem_cons.1 hu).2 hrest (ho.sublist (List.sublist_cons_self t us))
    by_cases ht : t.speech?.isSome
    · rw [List.filter_cons, if_pos ht]
      refine List.isChain_cons.2 ⟨fun v hv => ?_, hlater⟩
      cases us with
      | nil => cases hv
      | cons w us =>
        obtain ⟨hw, hlt⟩ := hnext w rfl ht
        have htrivia : w.isTrivia := by simpa [hw] using hu w (by simp)
        rw [List.filter_cons_of_neg (by simp [hw])] at hv
        obtain ⟨hmem, hv⟩ := List.mem_filter.1 (List.mem_of_mem_head? hv)
        obtain ⟨htail, hpair⟩ := List.pairwise_cons.1 ho.pairwise
        obtain ⟨hlevel, herror⟩ := not_level_of_trivia htrivia
        have hbefore := (Position.le_iff.1 ((htail w (by simp)).start hlevel herror)).1
        have hbehind := stop_le_start_of_text ((List.pairwise_cons.1 hpair).1 v hmem) (.inl hv)
        have := hlt htrivia
        omega
    · rwa [List.filter_cons, if_neg ht]

theorem Tight.left {p : Position} {us ts : List Token} (h : Tight p ts) (hp : us <+: ts) :
    Tight p us := by
  induction us generalizing p ts with
  | nil => trivial
  | cons u us ih =>
    obtain ⟨rest, rfl⟩ := hp
    intro hu
    obtain ⟨hstart, hlt, hlater⟩ := h hu
    exact ⟨hstart, hlt, ih hlater (List.prefix_append us rest)⟩

theorem speech?_of_blockRun {t : Token} (h : t.blockRun?.isSome) : t.speech? = none := by
  unfold Token.blockRun? at h
  unfold Token.speech?
  cases hk : t.kind <;> simp_all [Kind.isTrivia]

/-- The shares of tokens between bounds, and where the first of them starts. -/
theorem linked_blockShares {source : List Char} {us : List Token} {p : Position}
    (hl : ∀ u ∈ us, u.Lies Position.origin source) (hb : ∀ u ∈ us, u.blockRun?.isSome)
    (ht : Tight p us) :
    Share.Linked source (us.flatMap fun u => u.share u.blockRun?) ∧
      ∀ sh ∈ (us.flatMap fun u => u.share u.blockRun?).head?, sh.start = p ∧ sh.text ≠ [] := by
  induction us generalizing p with
  | nil => exact ⟨.nil source, nofun⟩
  | cons u us ih =>
    obtain ⟨hu, hrest⟩ := List.forall_mem_cons.1 hb
    obtain ⟨r, hr⟩ := Option.isSome_iff_exists.1 hu
    obtain ⟨hp, hlt, htight⟩ := ht hu
    obtain ⟨hfits, hstart, hstop, hne⟩ := fits_of_lies (hl u (by simp)) (.inr hr)
    obtain ⟨hlater, hfirst⟩ := ih (List.forall_mem_cons.1 hl).2 hrest htight
    simp only [List.flatMap_cons, Token.share, hr, Option.toList_some, List.map_singleton,
      List.singleton_append]
    refine ⟨.cons hfits (fun next hn => ⟨(hfirst next hn).2, ?_⟩) hlater, ?_⟩
    · rintro _ ⟨⟩ hsaid
      rw [if_neg (by simp [speech?_of_blockRun hu]), (hfirst next hn).1]
      exact (hstop hsaid).symm
    · rintro _ ⟨⟩
      exact ⟨hstart.trans hp, hne hlt⟩

section
variable {source : String} {front back ts : List Token} {t : Token}
  (h : tokenize source = front ++ (t :: ts ++ back))
include h

/-- The speeches of a replica. -/
theorem apart_replica :
    let speeches := (ts.takeWhile fun u => u.speech?.isSome || u.isTrivia).filter (·.speech?.isSome)
    (∀ u ∈ speeches, u ∈ tokenize source ∧ u.speech?.isSome) ∧
      speeches.IsChain (·.span.stop.offset < ·.span.start.offset) := by
  have hpart : ts <:+: tokenize source := ⟨front ++ [t], back, by simp [h]⟩
  have hfront := ts.takeWhile_prefix fun u => u.speech?.isSome || u.isTrivia
  have hall : ∀ u ∈ ts.takeWhile fun u => u.speech?.isSome || u.isTrivia,
      u.speech?.isSome || u.isTrivia := List.all_eq_true.1 List.all_takeWhile
  generalize ts.takeWhile (fun u => u.speech?.isSome || u.isTrivia) = us at hfront hall ⊢
  have hus := hfront.isInfix.trans hpart
  refine ⟨fun u hu => ?_, ?_⟩
  · obtain ⟨hmem, hsome⟩ := List.mem_filter.1 hu
    exact ⟨hus.subset hmem, hsome⟩
  · have hparted := List.IsChain.infix (laid_tokenize source).parted hus
    exact apart_speeches hall hparted ((inOrder_tokenize source).sublist hus.sublist)

/-- The tokens behind a visible bound that opens the text of a choice. -/
theorem tight_choice (hk : t.kind = .choice) {span : Span} {rest : List Token}
    (hts : ts = ⟨.choiceBound false, span⟩ :: rest) :
    let inside := rest.takeWhile (·.blockRun?.isSome)
    (∀ u ∈ inside, u ∈ tokenize source ∧ u.blockRun?.isSome) ∧ Tight span.stop inside := by
  subst hts
  have hlaid := laid_tokenize source
  rw [h] at hlaid
  have hfront := rest.takeWhile_prefix fun u => u.blockRun?.isSome
  refine ⟨fun u hu => ⟨?_, ?_⟩, ?_⟩
  · have hmem := hfront.subset hu
    simp [h, hmem]
  · exact List.all_eq_true.1 (List.all_takeWhile (p := fun u => u.blockRun?.isSome)) u hu
  · exact (hlaid.tight_of_choice hk rfl).left (hfront.trans (List.prefix_append rest back))

theorem linked_replicaShares :
    Share.Linked source.toList (speechShares
      ((ts.takeWhile fun u => u.speech?.isSome || u.isTrivia).filter (·.speech?.isSome))) := by
  obtain ⟨hspeech, hapart⟩ := apart_replica h
  refine linked_speechShares (fun u hu => ?_) (fun u hu => (hspeech u hu).2) (fun u hu => ?_) hapart
  · exact lies_of_mem_tokenize (hspeech u hu).1
  · exact (laid_tokenize source).speech_lt u (hspeech u hu).1 (hspeech u hu).2

theorem linked_choiceShares (hk : t.kind = .choice) :
    Share.Linked source.toList (choiceShares ts) := by
  unfold choiceShares
  split
  · next text span rest =>
    have hlies : Token.Lies Position.origin source.toList ⟨.choiceText text, span⟩ :=
      lies_of_mem_tokenize (by simp [h])
    refine .cons (fits_of_lies hlies (.inr rfl)).1 nofun ?_
    exact .nil _
  · next span rest =>
    obtain ⟨hinside, htight⟩ := tight_choice h hk rfl
    exact (linked_blockShares (fun u hu => lies_of_mem_tokenize (hinside u hu).1)
      (fun u hu => (hinside u hu).2) htight).1
  · exact .nil _

/-- The shares of what begins at a token of a source. -/
theorem linked_shares : Share.Linked source.toList (t.shares ts) := by
  unfold Token.shares
  split
  · exact linked_replicaShares h
  · next hk => exact linked_choiceShares h hk
  · exact .nil _

end

/-! ## The shares of a statement -/

theorem runs_speechShares (us : List Token) :
    (speechShares us).map Share.toRun = glueSpeeches us := by
  induction us using speechShares.induct with
  | case1 => rfl
  | case2 t => cases h : t.speech? <;> simp [speechShares, Token.share, glueSpeeches, h]
  | case3 t u ts ih =>
    rw [speechShares, glueSpeeches, List.map_append, List.map_append, ih]
    cases h : t.speech? <;> split <;> simp [Token.share]

theorem runs_choiceShares (ts : List Token) :
    (choiceShares ts).map Share.toRun = (readChoiceText ts).runs := by
  fun_cases choiceShares ts with
  | case1 span text span' rest => rfl
  | case2 span ts =>
    have hruns : (readChoiceText (⟨.choiceBound false, span⟩ :: ts)).runs =
        (ts.takeWhile (·.blockRun?.isSome)).filterMap Token.blockRun? := by
      simp only [readChoiceText, readBlockText]
      split <;> rfl
    rw [hruns]
    induction ts.takeWhile (·.blockRun?.isSome) with
    | nil => rfl
    | cons u us ih => cases h : u.blockRun? <;> simp_all [Token.share]
  | case3 ts hinline hblock =>
    unfold readChoiceText
    split
    · next span rest =>
      unfold readInlineText
      split
      · next text span' rest' => exact absurd rfl (hinline span text span' rest')
      · rfl
    · next span rest => exact absurd rfl (hblock span rest)
    · rfl

theorem segments_nil : (segmentsOf []).1 = [] := by
  have hcut : (cutInlineCalls 0 []).fragments = [] := by
    rw [cutInlineCalls]
    rfl
  exact congrArg (placeFragments _ _) hcut

section
variable {t : Token} {ts : List Token} {tags choiceTags : List Tag} {body : List Statement}
  {s : Statement} (h : (readItem t ts).item.statement? tags choiceTags body = some s)
include h

theorem shares_of_statement? (tokens : List Token) :
    s.shares tokens = if t.kind.opensText then sharesAt t.span.start tokens else [] := by
  have houtline : t.outline ts = [s.outline] := by rw [outline_readItem, outline_of_statement? h]
  unfold Token.outline at houtline
  cases s <;> cases hk : t.kind <;>
    simp_all [Statement.outline, Statement.shares, Kind.opensText]

/-- The segments of a statement are those of the text that its shares make. -/
theorem segments_of_statement? :
    s.segments = (segmentsOf ((t.shares ts).map Share.toRun)).1 := by
  unfold Token.shares
  cases statementRead h with
  | goto hk | call hk =>
    rw [hk]
    exact segments_nil.symm
  | replica hk =>
    rw [hk]
    dsimp only
    rw [runs_speechShares]
    rfl
  | choice hk _ hi =>
    obtain ⟨rfl, -⟩ := Item.choice.inj hi
    rw [hk]
    dsimp only
    rw [runs_choiceShares]
    rfl

end

section
variable (ts : List Token) {back : List Token} (hb : ∀ t ∈ back.head?, t.kind.cuts)
include hb

theorem takeWhile_cut {p : Token → Bool} (hp : ∀ t : Token, t.kind.cuts → p t = false) :
    (ts ++ back).takeWhile p = ts.takeWhile p := by
  induction ts with
  | nil =>
    cases back with
    | nil => rfl
    | cons t back => simp [hp t (hb t rfl)]
  | cons t ts ih => rw [List.cons_append, List.takeWhile_cons, ih, List.takeWhile_cons]

theorem choiceShares_append : choiceShares (ts ++ back) = choiceShares ts := by
  have hinside : ∀ u : Token, u.kind.cuts → u.blockRun?.isSome = false := by
    intro u hu
    unfold Token.blockRun?
    cases hk : u.kind <;> simp_all [Kind.cuts, Kind.isTrivia]
  have hblock := takeWhile_cut ts.tail hb hinside
  rcases back with _ | ⟨⟨cut, _⟩, back⟩
  · rw [List.append_nil]
  have hcut : cut.cuts := hb _ rfl
  -- two tokens at most tell what the text is
  rcases ts with _ | ⟨⟨kind, span⟩, ts⟩
  · cases cut <;> first | rfl | cases hcut
  · cases kind with
    | choiceBound silent =>
      cases silent with
      | false => exact congrArg (List.flatMap fun t => t.share t.blockRun?) hblock
      | true =>
        rcases ts with _ | ⟨⟨kind, span⟩, ts⟩
        · cases cut <;> first | rfl | cases hcut
        · cases kind <;> rfl
    | _ => rfl

/-- No text goes on behind a place where tokens are cut. -/
theorem shares_append (t : Token) : t.shares (ts ++ back) = t.shares ts := by
  have hspoken : ∀ u : Token, u.kind.cuts → (u.speech?.isSome || u.isTrivia) = false := by
    intro u hu
    unfold Token.speech? Token.isTrivia
    cases hk : u.kind <;> simp_all [Kind.cuts, Kind.isTrivia]
  unfold Token.shares
  rw [takeWhile_cut ts hb hspoken, choiceShares_append ts hb]

end

theorem lt_of_opensText {p : Position} {cs : List Char} {t : Token} (h : t.Lies p cs)
    (hk : t.kind.opensText) : t.span.start.offset < t.span.stop.offset := by
  obtain ⟨before, text, after, -, hspan, hlex⟩ := h
  have hne : text ≠ [] := by
    rintro rfl
    cases ht : t.kind <;> simp_all [Kind.opensText, Kind.Lexeme]
  rw [hspan]
  exact Position.offset_lt_advance _ hne

theorem sharesAt_append {front rest : List Token} {t : Token} (hk : t.kind.opensText)
    (h : ∀ u ∈ front, u.kind.opensText → u.span.start ≠ t.span.start) :
    sharesAt t.span.start (front ++ t :: rest) = t.shares rest := by
  induction front with
  | nil => simp [sharesAt, hk]
  | cons u front ih =>
    obtain ⟨hu, hfront⟩ := List.forall_mem_cons.1 h
    rw [List.cons_append, sharesAt, if_neg fun hboth => hu hboth.1 hboth.2, ih hfront]

/-- The text that begins at a place begins at one token only. -/
theorem sharesAt_tokenize {source : String} {front back ts : List Token} {t : Token}
    (h : tokenize source = front ++ (t :: ts ++ back)) (hb : ∀ t ∈ back.head?, t.kind.cuts)
    (hk : t.kind.opensText) : sharesAt t.span.start (tokenize source) = t.shares ts := by
  have hlies : ∀ u ∈ front, u.Lies Position.origin source.toList :=
    fun u hu => lies_of_mem_tokenize (by simp [h, hu])
  have hpair := (inOrder_tokenize source).pairwise
  rw [h, List.cons_append] at hpair
  have hbegins : t.kind.begins := by
    cases ht : t.kind <;> simp_all [Kind.opensText, Kind.begins, Kind.isOpening]
  rw [h, List.cons_append, sharesAt_append hk, shares_append ts hb]
  intro u hu hopens heq
  have hle := (List.pairwise_append.1 hpair).2.2 u hu t (by simp)
  have hstop := (Position.le_iff.1 (hle.stop_le_start hbegins)).1
  have hlt := lt_of_opensText (hlies u hu) hopens
  rw [heq] at hlt
  omega

/-- The shares of a statement are those of the token it begins at. -/
theorem shares_eq {source : String} {front back ts : List Token} {t : Token}
    (htokens : tokenize source = front ++ (t :: ts ++ back)) (hb : ∀ t ∈ back.head?, t.kind.cuts)
    {tags choiceTags : List Tag} {body : List Statement} {s : Statement}
    (h : (readItem t ts).item.statement? tags choiceTags body = some s) :
    s.shares (tokenize source) = t.shares ts := by
  rw [shares_of_statement? h]
  split
  · next hk => exact sharesAt_tokenize htokens hb hk
  · next hk =>
    unfold Token.shares
    cases ht : t.kind <;> simp_all [Kind.opensText]

/-- Every segment that comes from one speech or one choice text alone is shown by its span, from its
beginning on. The span shows more than the segment if, and only if, the segment ends with its speech
and another speech follows on the same line. -/
theorem segments_sliced (source : String) :
    ∀ s ∈ (parseSource source).story.preorder,
      Sliced source.toList (s.shares (tokenize source)) []
        (cutInlineCalls 0 (Share.texts (s.shares (tokenize source)))).fragments s.segments := by
  refine forall_preorder_of_excerpt fun t ts hts tags choiceTags body s h => ?_
  obtain ⟨front, back, htokens, hb⟩ := hts
  rw [shares_eq htokens hb h, segments_of_statement? h]
  exact sliced_placeFragments (texts_cutInlineCalls 0 _).2
    (fun _ _ ht l => l.slice (linked_shares htokens) ht) []

/-- A call with more of its speech behind it is shown as it is. -/
theorem sliced_call_in_speech :
    let source := "\" a{call:f()}b\n"
    ∃ s ∈ (parseSource source).story.preorder, ∃ span : Span,
      .inlineCall "f" [] span ∈ s.segments ∧
        span.text? source.toList = some "{call:f()}".toList := by
  intro source
  let speech : Token := ⟨.speech "a{call:f()}b", ⟨⟨2, 1, 3⟩, ⟨14, 1, 15⟩⟩⟩
  let share : Share := ⟨⟨"a{call:f()}b".toList, ⟨2, 1, 3⟩⟩, some speech⟩
  have hshares : [share] ∈ (parseSource source).story.preorder.map (·.shares (tokenize source)) := by
    decide +kernel
  have hfragments : (cutInlineCalls 0 (Share.texts [share])).fragments =
      [.plain ['a'], .call ['f', '(', ')'], .plain ['b']] := by decide +kernel
  have hcall : splitInlineCall ['f', '(', ')'] = (['f'], []) := by decide +kernel
  obtain ⟨s, hs, hshare⟩ := List.mem_map.1 hshares
  have hsliced := segments_sliced source s hs
  rw [hshare, hfragments] at hsliced
  refine ⟨s, hs, ?_⟩
  generalize s.segments = segments at hsliced ⊢
  obtain _ | ⟨-, _ | ⟨h, -⟩⟩ := hsliced
  obtain ⟨gap, htext, hgap⟩ :=
    h ⟨[], share, [], speech, ['a'], ['b'], rfl, rfl, rfl, by decide, rfl⟩
  have hnil : gap = [] := by
    by_contra hne
    exact absurd (hgap.1 hne).1 (by simp)
  rw [hnil] at htext
  refine ⟨_, ?_, htext⟩
  simp [Fragment.segment, hcall]

/-- A call at the end of its speech is shown with the comment that follows, up to the next speech of
the line. -/
theorem sliced_call_before_comment :
    let source := "\" a{call:f()}/* c */b\n"
    ∃ s ∈ (parseSource source).story.preorder, ∃ span : Span,
      .inlineCall "f" [] span ∈ s.segments ∧
        Nonempty (Lodged (s.shares (tokenize source)) ['a'] "{call:f()}".toList) ∧
        span.text? source.toList = some "{call:f()}/* c */".toList := by
  intro source
  let speech : Token := ⟨.speech "a{call:f()}", ⟨⟨2, 1, 3⟩, ⟨13, 1, 14⟩⟩⟩
  let next : Token := ⟨.speech "b", ⟨⟨20, 1, 21⟩, ⟨21, 1, 22⟩⟩⟩
  let span : Span := ⟨⟨3, 1, 4⟩, ⟨20, 1, 21⟩⟩
  let share : Share := ⟨⟨"a{call:f()}".toList, ⟨2, 1, 3⟩⟩, some speech⟩
  have hshares : ([share, ⟨⟨['b'], ⟨20, 1, 21⟩⟩, some next⟩], true) ∈
      (parseSource source).story.preorder.map fun s =>
        (s.shares (tokenize source), decide (.inlineCall "f" [] span ∈ s.segments)) := by
    decide +kernel
  obtain ⟨s, hs, hshare⟩ := List.mem_map.1 hshares
  obtain ⟨hshare, hcall⟩ := Prod.mk.inj hshare
  refine ⟨s, hs, span, of_decide_eq_true hcall, ?_, by decide⟩
  rw [hshare]
  exact ⟨⟨[], share, _, speech, ['a'], [], rfl, rfl, rfl, by decide, rfl⟩⟩

end StoryScript

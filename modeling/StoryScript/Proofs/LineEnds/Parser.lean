import StoryScript.Check
import StoryScript.Proofs.LineEnds.Tokens
import StoryScript.Proofs.Story.Alike
/-!
# Stories without their offsets

The parser looks at kinds, texts, lines and columns, but not at offsets: from tokens that are the same
up to their offsets it reads the same story up to offsets, and says the same about it (`bare_parse`).
-/

namespace StoryScript

open Token (Kind)

/-! ## Without offsets -/

/-- A tag without offsets. -/
def Tag.bare (t : Tag) : Tag := { t with span := t.span.bare }

/-- A segment without offsets. -/
def Segment.bare : Segment → Segment
  | .text said span => .text said span.bare
  | .inlineCall name args span => .inlineCall name args span.bare

/-- A goto without offsets. -/
def Goto.bare (g : Goto) : Goto := { g with tags := g.tags.map Tag.bare, span := g.span.bare }

/-- A call without offsets. -/
def Call.bare (c : Call) : Call := { c with tags := c.tags.map Tag.bare, span := c.span.bare }

/-- A replica without offsets. -/
def Replica.bare (r : Replica) : Replica :=
  { r with
    segments := r.segments.map Segment.bare, tags := r.tags.map Tag.bare, span := r.span.bare }

/-- A choice without offsets, its body aside. -/
def Choice.bare (c : Choice) : Choice :=
  { c with
    segments := c.segments.map Segment.bare, tags := c.tags.map Tag.bare
    choiceTags := c.choiceTags.map Tag.bare, span := c.span.bare }

mutual

/-- A statement and all it holds without offsets. -/
def Statement.bare : Statement → Statement
  | .goto g => .goto g.bare
  | .call c => .call c.bare
  | .replica r => .replica r.bare
  | .choice c none => .choice c.bare none
  | .choice c (some body) => .choice c.bare (some (Statement.bares body))

/-- Statements in a row without offsets. -/
def Statement.bares : List Statement → List Statement
  | [] => []
  | s :: ss => s.bare :: Statement.bares ss

end

/-- A section and all it holds without offsets. -/
def Section.bare (s : Section) : Section :=
  { s with tags := s.tags.map Tag.bare, statements := Statement.bares s.statements, span := s.span.bare }

/-- A story without offsets. -/
def Story.bare (story : Story) : Story := ⟨story.sections.map Section.bare⟩

/-- A diagnostic without offsets. -/
def Diagnostic.bare (d : Diagnostic) : Diagnostic := { d with span := d.span.bare }

/-- A story and what is said about it without offsets. -/
def Parsed.bare (p : Parsed) : Parsed := ⟨p.story.bare, p.diagnostics.map Diagnostic.bare⟩

/-- A run of text without the offset of its start. -/
def Run.bare (r : Run) : Run := { r with start := r.start.bare }

/-- What is read of a choice text without offsets. -/
def ChoiceText.bare (c : ChoiceText) : ChoiceText :=
  { c with
    runs := c.runs.map Run.bare, diagnostics := c.diagnostics.map Diagnostic.bare
    taken := c.taken.map Token.bare, rest := c.rest.map Token.bare }

/-- An item without offsets. -/
def Item.bare : Item → Item
  | .tag t => .tag t.bare
  | .choiceTag t => .choiceTag t.bare
  | .goto g => .goto g.bare
  | .call c => .call c.bare
  | .replica r => .replica r.bare
  | .choice c body => .choice c.bare (body.map (·.map Token.bare))
  | .skipped => .skipped

/-- What is read of an item without offsets. -/
def ItemRead.bare (r : ItemRead) : ItemRead :=
  ⟨r.item.bare, r.diagnostics.map Diagnostic.bare, r.rest.map Token.bare⟩

/-! ## Offsets are spans -/

theorem Segment.bare_eq_mapSpan : Segment.bare = Segment.mapSpan Span.bare := by
  funext s
  cases s <;> rfl

mutual

theorem Statement.bare_eq_mapSpans : (s : Statement) → s.bare = s.mapSpans Span.bare
  | .goto g => rfl
  | .call c => rfl
  | .replica r => by
    rw [Statement.bare, Replica.bare, Segment.bare_eq_mapSpan]
    rfl
  | .choice c none => by
    rw [Statement.bare, Choice.bare, Segment.bare_eq_mapSpan]
    rfl
  | .choice c (some body) => by
    rw [Statement.bare, Choice.bare, Segment.bare_eq_mapSpan, Statement.bares_eq_mapAllSpans body]
    rfl

theorem Statement.bares_eq_mapAllSpans : (ss : List Statement) →
    Statement.bares ss = Statement.mapAllSpans Span.bare ss
  | [] => rfl
  | s :: ss => by
    rw [Statement.bares, Statement.mapAllSpans, Statement.bare_eq_mapSpans s,
      Statement.bares_eq_mapAllSpans ss]

end

theorem Story.bare_eq_mapSpans (story : Story) : story.bare = story.mapSpans Span.bare := by
  have hsection : Section.bare = Section.mapSpans Span.bare := by
    funext s
    rw [Section.bare, Statement.bares_eq_mapAllSpans]
    rfl
  rw [bare, hsection]
  rfl

/-! ## Tokens of an item -/

@[simp] theorem Token.kind_bare (t : Token) : t.bare.kind = t.kind := rfl

@[simp] theorem Token.span_bare (t : Token) : t.bare.span = t.span.bare := rfl

@[simp] theorem Token.bare_mk (kind : Kind) (span : Span) :
    Token.bare ⟨kind, span⟩ = ⟨kind, span.bare⟩ := rfl

@[simp] theorem Span.bare_through (a b : Span) : (a.through b).bare = a.bare.through b.bare := rfl

@[simp] theorem Span.bare_bare (s : Span) : s.bare.bare = s.bare := rfl

@[simp] theorem Token.bare_bare (t : Token) : t.bare.bare = t.bare := rfl

@[simp] theorem Position.bare_bare (p : Position) : p.bare.bare = p.bare := rfl

@[simp] theorem Token.bare_comp_bare : Token.bare ∘ Token.bare = Token.bare := rfl

@[simp] theorem Run.bare_comp_bare : Run.bare ∘ Run.bare = Run.bare := rfl

@[simp] theorem Diagnostic.bare_comp_bare :
    Diagnostic.bare ∘ Diagnostic.bare = Diagnostic.bare := rfl

/-- Looking at the kinds of tokens only. -/
theorem takeWhile_bare {p : Token → Bool} (hp : ∀ t : Token, p t.bare = p t) (ts : List Token) :
    (ts.map Token.bare).takeWhile p = (ts.takeWhile p).map Token.bare := by
  rw [List.takeWhile_map]
  congr 2
  funext t
  exact hp t

theorem dropWhile_bare {p : Token → Bool} (hp : ∀ t : Token, p t.bare = p t) (ts : List Token) :
    (ts.map Token.bare).dropWhile p = (ts.dropWhile p).map Token.bare := by
  rw [List.dropWhile_map]
  congr 2
  funext t
  exact hp t

theorem readTag_bare (t : Token) (name : String) (ts : List Token) :
    readTag t.bare name (ts.map Token.bare) =
      ((readTag t name ts).1.bare, (readTag t name ts).2.map Token.bare) := by
  cases ts with
  | nil => rfl
  | cons u ts =>
    obtain ⟨kind, span⟩ := u
    cases kind <;> rfl

theorem readTarget_bare (ts : List Token) :
    readTarget (ts.map Token.bare) =
      (readTarget ts).map fun r => (r.1, r.2.1.bare, r.2.2.map Token.bare) := by
  cases ts with
  | nil => rfl
  | cons u ts =>
    obtain ⟨kind, span⟩ := u
    cases kind with
    | identifier name =>
      simp only [List.map_cons, Token.bare_mk, readTarget]
      split <;> rfl
    | _ => rfl

@[simp] theorem Token.speech?_bare (t : Token) : t.bare.speech? = t.speech?.map Run.bare := by
  obtain ⟨kind, span⟩ := t
  cases kind <;> rfl

@[simp] theorem Token.blockRun?_bare (t : Token) : t.bare.blockRun? = t.blockRun?.map Run.bare := by
  obtain ⟨kind, span⟩ := t
  cases kind <;> rfl

theorem spanTo_bare (t : Token) (ts : List Token) :
    t.bare.spanTo (ts.map Token.bare) = (t.spanTo ts).bare := by
  unfold Token.spanTo
  rw [List.getLast?_map]
  cases ts.getLast? <;> rfl

theorem readCall_bare (t : Token) (name : String) (ts : List Token) :
    readCall t.bare name (ts.map Token.bare) =
      ((readCall t name ts).1.bare, (readCall t name ts).2.1.map Diagnostic.bare,
        (readCall t name ts).2.2.map Token.bare) := by
  have htake := takeWhile_bare (p := (·.argument?.isSome)) (fun _ => rfl) ts
  have hdrop := dropWhile_bare (p := (·.argument?.isSome)) (fun _ => rfl) ts
  unfold readCall
  simp only [htake, hdrop, spanTo_bare, List.head?_map, Option.map_map, List.isEmpty_map,
    List.filterMap_map]
  have hkind : ((·.kind == Kind.newline) ∘ Token.bare) = fun u : Token => u.kind == .newline := rfl
  have hargument : Token.argument? ∘ Token.bare = Token.argument? := rfl
  rw [hkind, hargument]
  split <;> rfl

/-! ## Segments -/

theorem bare_places {p q : Position} (h : p.bare = q.bare) (cs : List Char) :
    (Run.places p cs).map Position.bare = (Run.places q cs).map Position.bare := by
  induction cs generalizing p q with
  | nil => rfl
  | cons c cs ih => rw [Run.places, Run.places, List.map_cons, List.map_cons, h,
      ih (Position.bare_next h c)]

theorem bare_headD {ps qs : List Position} {p q : Position} (h : p.bare = q.bare)
    (hs : ps.map Position.bare = qs.map Position.bare) : (ps.headD p).bare = (qs.headD q).bare := by
  cases ps with
  | nil =>
    cases qs with
    | nil => exact h
    | cons q' qs => cases hs
  | cons p' ps =>
    cases qs with
    | nil => cases hs
    | cons q' qs => exact (List.cons.inj hs).1

theorem bare_drop {ps qs : List Position} (hs : ps.map Position.bare = qs.map Position.bare)
    (n : Nat) : (ps.drop n).map Position.bare = (qs.drop n).map Position.bare := by
  rw [List.map_drop, List.map_drop, hs]

theorem bare_segment {a b : Span} (h : a.bare = b.bare) (f : Fragment) :
    (f.segment a).bare = (f.segment b).bare := by
  cases f <;> simp [Fragment.segment, Segment.bare, h]

theorem bare_placeFragments {ps qs : List Position} {p q : Position} (h : p.bare = q.bare)
    (hs : ps.map Position.bare = qs.map Position.bare) (fs : List Fragment) :
    (placeFragments p ps fs).map Segment.bare = (placeFragments q qs fs).map Segment.bare := by
  induction fs generalizing ps qs with
  | nil => rfl
  | cons f fs ih =>
    have hdrop := bare_drop hs f.text.length
    rw [placeFragments, placeFragments, List.map_cons, List.map_cons, ih hdrop]
    congr 1
    refine bare_segment ?_ f
    rw [Span.bare, Span.bare, bare_headD h hs, bare_headD h hdrop]

/-- Runs that stand in the same lines and columns are cut into the same segments. -/
theorem bare_segmentsOf {as bs : List Run} (h : as.map Run.bare = bs.map Run.bare) :
    (segmentsOf as).1.map Segment.bare = (segmentsOf bs).1.map Segment.bare ∧
      (segmentsOf as).2.map Diagnostic.bare = (segmentsOf bs).2.map Diagnostic.bare := by
  -- segments are cut from the text of the runs and then put at the places of its characters
  have hglued : Run.glued as = Run.glued bs := by
    have := congrArg Run.glued h
    simpa [Run.glued, List.flatMap_map, Run.bare] using this
  have hplaces : (Run.gluedPlaces as).map Position.bare = (Run.gluedPlaces bs).map Position.bare := by
    have hrun : ∀ rs : List Run, (Run.gluedPlaces rs).map Position.bare =
        (rs.map Run.bare).flatMap fun r => (Run.places r.start r.text).map Position.bare := by
      intro rs
      rw [Run.gluedPlaces, List.map_flatMap, List.flatMap_map]
      congr 1
      funext r
      exact bare_places r.start.bare_bare.symm r.text
    rw [hrun, hrun, h]
  have hstop : (Run.gluedStop as).bare = (Run.gluedStop bs).bare := by
    have hrun : ∀ rs : List Run, (Run.gluedStop rs).bare =
        ((rs.map Run.bare).getLast?.map fun r => r.stop.bare).getD Position.origin.bare := by
      intro rs
      rw [Run.gluedStop, List.getLast?_map]
      cases rs.getLast? with
      | none => rfl
      | some r => exact Position.bare_advance r.start.bare_bare.symm r.text
    rw [hrun, hrun, h]
  unfold segmentsOf
  dsimp only
  rw [hglued]
  refine ⟨bare_placeFragments hstop hplaces _, ?_⟩
  rw [List.map_map, List.map_map]
  refine List.map_congr_left fun n _ => ?_
  have hhead := bare_headD hstop (bare_drop hplaces n)
  simp only [Function.comp, Diagnostic.bare, Span.bare, Span.point, hhead]

theorem text?_bare (s : Segment) : s.bare.text? = s.text? := by
  cases s <;> rfl

theorem bare_plainText {as bs : List Segment} (h : as.map Segment.bare = bs.map Segment.bare) :
    plainText as = plainText bs := by
  have hseg : ∀ ss : List Segment, plainText ss = plainText (ss.map Segment.bare) := by
    intro ss
    have htext : Segment.text? ∘ Segment.bare = Segment.text? := funext text?_bare
    rw [plainText, plainText, List.filterMap_map, htext]
  rw [hseg as, hseg bs, h]

/-! ## Replicas -/

theorem bare_speeches (t : Token) :
    t.bare.speech?.toList.map Run.bare = t.speech?.toList.map Run.bare := by
  obtain ⟨kind, span⟩ := t
  cases kind <;> rfl

/-- The line feed behind a speech stands in the line and the column where the speech ends. -/
theorem bare_feed (t : Token) :
    (t.bare.speech?.toList.map fun r => (⟨['\n'], r.stop⟩ : Run)).map Run.bare =
      (t.speech?.toList.map fun r => (⟨['\n'], r.stop⟩ : Run)).map Run.bare := by
  obtain ⟨kind, span⟩ := t
  cases kind with
  | speech text =>
    have hstop : (span.start.bare.advance text.toList).bare = (span.start.advance text.toList).bare :=
      Position.bare_advance span.start.bare_bare text.toList
    exact congrArg (fun p => [(⟨['\n'], p⟩ : Run)]) hstop
  | _ => rfl

theorem bare_glueSpeeches (ts : List Token) :
    (glueSpeeches (ts.map Token.bare)).map Run.bare = (glueSpeeches ts).map Run.bare := by
  fun_induction glueSpeeches ts with
  | case1 => rfl
  | case2 t => exact bare_speeches t
  | case3 t u ts between ih =>
    have hbetween : (if t.bare.span.stop.line = u.bare.span.start.line then [] else
        t.bare.speech?.toList.map fun r => (⟨['\n'], r.stop⟩ : Run)).map Run.bare =
          between.map Run.bare := by
      unfold between
      change (if t.span.stop.line = u.span.start.line then _ else _ : List Run).map Run.bare = _
      split
      · rfl
      · exact bare_feed t
    rw [List.map_cons] at ih
    rw [List.map_cons, List.map_cons, glueSpeeches]
    simp only [List.map_append, bare_speeches, hbetween, ih]

theorem bare_readReplica (t : Token) (ts : List Token) :
    (readReplica t.bare (ts.map Token.bare)).1.bare = (readReplica t ts).1.bare ∧
      (readReplica t.bare (ts.map Token.bare)).2.1.map Diagnostic.bare =
        (readReplica t ts).2.1.map Diagnostic.bare ∧
      (readReplica t.bare (ts.map Token.bare)).2.2 = (readReplica t ts).2.2.map Token.bare := by
  have hspeech : ∀ u : Token, u.bare.speech?.isSome = u.speech?.isSome := by
    intro u
    rw [Token.speech?_bare, Option.isSome_map]
  have hkinds : ∀ u : Token, (fun u : Token => u.speech?.isSome || u.isTrivia) u.bare =
      (fun u : Token => u.speech?.isSome || u.isTrivia) u :=
    fun u => congrArg (· || u.isTrivia) (hspeech u)
  have hfilter : ∀ us : List Token, (us.map Token.bare).filter (·.speech?.isSome) =
      (us.filter (·.speech?.isSome)).map Token.bare := by
    intro us
    rw [List.filter_map]
    congr 2
    funext u
    exact hspeech u
  unfold readReplica
  dsimp only
  rw [takeWhile_bare hkinds ts, dropWhile_bare hkinds ts, hfilter]
  generalize (ts.takeWhile fun u => u.speech?.isSome || u.isTrivia).filter (·.speech?.isSome) =
    speeches
  generalize (ts.dropWhile fun u => u.speech?.isSome || u.isTrivia) = rest
  obtain ⟨hseg, hdiag⟩ := bare_segmentsOf (bare_glueSpeeches speeches)
  have htext := bare_plainText hseg
  cases rest with
  | nil => simp [Replica.bare, hseg, hdiag, htext, spanTo_bare]
  | cons u rest =>
    obtain ⟨kind, span⟩ := u
    cases kind <;> simp [Replica.bare, hseg, hdiag, htext, spanTo_bare]

/-! ## Choices -/

theorem readSilentBound_bare (ts : List Token) :
    readSilentBound (ts.map Token.bare) =
      ((readSilentBound ts).1.map Token.bare, (readSilentBound ts).2.map Token.bare) := by
  cases ts with
  | nil => rfl
  | cons u ts =>
    obtain ⟨kind, span⟩ := u
    cases kind with
    | choiceBound silent => cases silent <;> rfl
    | _ => rfl

theorem readInlineText_bare (bound : Token) (ts : List Token) :
    readInlineText bound.bare (ts.map Token.bare) = (readInlineText bound ts).bare := by
  cases ts with
  | nil => rfl
  | cons u ts =>
    obtain ⟨kind, span⟩ := u
    have hsilent := readSilentBound_bare (⟨kind, span⟩ :: ts)
    cases kind with
    | choiceText text =>
      simp only [List.map_cons, Token.bare_mk, readInlineText, readSilentBound_bare, ChoiceText.bare]
      rfl
    | _ =>
      simp only [List.map_cons, Token.bare_mk] at hsilent
      simp only [List.map_cons, Token.bare_mk, readInlineText, hsilent, ChoiceText.bare]
      rfl

theorem readBlockText_bare (bound : Token) (ts : List Token) :
    readBlockText bound.bare (ts.map Token.bare) = (readBlockText bound ts).bare := by
  have hkinds : ∀ u : Token, (fun u : Token => u.blockRun?.isSome) u.bare =
      (fun u : Token => u.blockRun?.isSome) u := by
    intro u
    simp
  have hruns : ∀ us : List Token, (us.map Token.bare).filterMap Token.blockRun? =
      (us.filterMap Token.blockRun?).map Run.bare := by
    intro us
    rw [List.filterMap_map, List.map_filterMap]
    congr 1
    funext u
    exact u.blockRun?_bare
  have hglued : ∀ runs : List Run, Run.glued (runs.map Run.bare) = Run.glued runs := by
    intro runs
    simp [Run.glued, List.flatMap_map, Run.bare]
  unfold readBlockText
  dsimp only
  rw [takeWhile_bare hkinds ts, dropWhile_bare hkinds ts, hruns, hglued]
  generalize (ts.dropWhile fun u => u.blockRun?.isSome) = rest
  cases rest with
  | nil => rfl
  | cons u rest =>
    obtain ⟨kind, span⟩ := u
    cases kind with
    | choiceBound silent => cases silent <;> simp [ChoiceText.bare, Diagnostic.bare]
    | _ => rfl

theorem readChoiceText_bare (ts : List Token) :
    readChoiceText (ts.map Token.bare) = (readChoiceText ts).bare := by
  cases ts with
  | nil => rfl
  | cons u ts =>
    obtain ⟨kind, span⟩ := u
    cases kind with
    | choiceBound silent =>
      cases silent with
      | true => exact readInlineText_bare ⟨.choiceBound true, span⟩ ts
      | false => exact readBlockText_bare ⟨.choiceBound false, span⟩ ts
    | _ => rfl

theorem readBody_bare (depth : Nat) (ts : List Token) :
    readBody depth (ts.map Token.bare) =
      ((readBody depth ts).1.map Token.bare, (readBody depth ts).2.map Token.bare) := by
  induction ts generalizing depth with
  | nil => rfl
  | cons t ts ih =>
    rw [List.map_cons, readBody, readBody, ih, ih, ih, Token.kind_bare]
    split
    · rfl
    · split <;> rfl
    · rfl

theorem readIndented_bare (ts : List Token) :
    readIndented (ts.map Token.bare) =
      (readIndented ts).map fun r => (r.1.map Token.bare, r.2.map Token.bare) := by
  unfold readIndented
  rw [dropWhile_bare (p := (·.isTrivia)) (fun _ => rfl) ts]
  cases ts.dropWhile (·.isTrivia) with
  | nil => rfl
  | cons u us =>
    obtain ⟨kind, span⟩ := u
    cases kind with
    | indent => exact congrArg some (readBody_bare 1 us)
    | _ => rfl

theorem extent_bare (ts : List Token) :
    Token.extent (ts.map Token.bare) = (Token.extent ts).map Span.bare := by
  have hfilter : (ts.map Token.bare).filter Token.isSolid =
      (ts.filter Token.isSolid).map Token.bare := List.filter_map
  unfold Token.extent
  rw [hfilter]
  cases ts.filter Token.isSolid with
  | nil => rfl
  | cons t us =>
    have hlast := List.getLast_map (f := Token.bare) (l := t :: us) (by simp)
    exact congrArg (fun u : Token => some (t.span.bare.through u.span)) hlast

/-- Tokens that differ in their offsets only have one extent up to offsets. -/
theorem bare_extent {ts ts' : List Token} {a b : Span} (h : ts'.map Token.bare = ts.map Token.bare)
    (hs : a.bare = b.bare) :
    ((Token.extent ts').getD a).bare = ((Token.extent ts).getD b).bare := by
  have hextent : ∀ (us : List Token) (c : Span),
      ((Token.extent us).getD c).bare = (Token.extent (us.map Token.bare)).getD c.bare := by
    intro us c
    rw [extent_bare]
    cases Token.extent us <;> rfl
  rw [hextent, hextent, h, hs]

theorem bare_readChoice (t : Token) (ts : List Token) :
    (readChoice t.bare (ts.map Token.bare)).bare = (readChoice t ts).bare := by
  unfold readChoice
  rw [readChoiceText_bare]
  generalize readChoiceText ts = text
  have hruns : text.bare.runs.map Run.bare = text.runs.map Run.bare := by simp [ChoiceText.bare]
  obtain ⟨hseg, hdiag⟩ := bare_segmentsOf hruns
  have hind : readIndented text.bare.rest = _ := readIndented_bare text.rest
  have hspan : ∀ inside : List Token,
      ((Token.extent (t.bare :: text.bare.taken ++ inside.map Token.bare)).getD t.bare.span).bare =
        ((Token.extent (t :: text.taken ++ inside)).getD t.span).bare := fun inside =>
    bare_extent (by simp [ChoiceText.bare]) rfl
  dsimp only
  rw [hind]
  cases readIndented text.rest with
  | none =>
    have hspan := hspan []
    simp_all [ItemRead.bare, Item.bare, Choice.bare, ChoiceText.bare]
  | some body =>
    have hspan := hspan body.1
    simp_all [ItemRead.bare, Item.bare, Choice.bare, ChoiceText.bare]

/-- An item depends on the lines and columns of its tokens, but not on their offsets. -/
theorem bare_readItem (t : Token) (ts : List Token) :
    (readItem t.bare (ts.map Token.bare)).bare = (readItem t ts).bare := by
  unfold readItem
  rw [Token.kind_bare]
  cases t.kind with
  | tag name | choiceTag name =>
    simp only [readTag_bare, ItemRead.bare, Item.bare, List.map_map, Token.bare_comp_bare]
    rfl
  | goto arrow =>
    dsimp only
    rw [readTarget_bare]
    cases readTarget ts with
    | none => simp [ItemRead.bare, Item.bare, Diagnostic.bare]
    | some r => simp [ItemRead.bare, Item.bare, Goto.bare]
  | call name =>
    simp only [readCall_bare, ItemRead.bare, Item.bare, List.map_map, Token.bare_comp_bare,
      Diagnostic.bare_comp_bare]
    rfl
  | replicaBegin =>
    obtain ⟨hitem, hdiag, hrest⟩ := bare_readReplica t ts
    simp [ItemRead.bare, Item.bare, hitem, hdiag, hrest]
  | choice => exact bare_readChoice t ts
  | _ => simp [ItemRead.bare, Item.bare]

/-! ## Blocks -/

/-- The same tokens up to their offsets. -/
def SameBare (ts us : List Token) : Prop := us.map Token.bare = ts.map Token.bare

section
variable {item item' : Item}

theorem bare_inside (h : item'.bare = item.bare) : SameBare item.inside item'.inside := by
  have hinside : ∀ i : Item, i.inside.map Token.bare = i.bare.inside := by
    intro i
    cases i with
    | choice c body => cases body <;> rfl
    | _ => rfl
  rw [SameBare, hinside, hinside, h]

theorem mapSpans_of_bare (h : item'.bare = item.bare) :
    item'.mapSpans Span.bare = item.mapSpans Span.bare := by
  have htag : ∀ t : Tag, t.mapSpan Span.bare = t.bare.mapSpan id := fun _ => rfl
  have hsegment : ∀ a : Segment, a.mapSpan Span.bare = a.bare.mapSpan id := by
    intro a
    cases a <;> rfl
  have hmap : ∀ i : Item, i.mapSpans Span.bare = i.bare.mapSpans id := by
    intro i
    cases i with
    | tag t | choiceTag t => simp [Item.mapSpans, Item.bare, htag]
    | goto g => simp [Item.mapSpans, Item.bare, Goto.mapSpans, Goto.bare, htag]
    | call c => simp [Item.mapSpans, Item.bare, Call.mapSpans, Call.bare, htag]
    | replica r => simp [Item.mapSpans, Item.bare, Replica.mapSpans, Replica.bare, htag, hsegment]
    | choice c body =>
      cases body <;> simp [Item.mapSpans, Item.bare, Choice.mapSpans, Choice.bare, htag, hsegment]
    | skipped => rfl
  rw [hmap, hmap, h]

end

/-- An item depends on the lines and columns of its tokens only. -/
theorem tellsAlike_bare : TellsAlike Span.bare SameBare where
  nil h v hv := by
    rw [List.map_eq_nil_iff.1 h] at hv
    cases hv
  cons {t ts us} h := by
    obtain ⟨t', ts', rfl, ht, hts⟩ := List.map_eq_cons_iff.1 h
    have hr : (readItem t' ts').bare = (readItem t ts).bare := by
      rw [← bare_readItem, ht, hts, bare_readItem]
    have hitem : (readItem t' ts').item.bare = (readItem t ts).item.bare := congrArg ItemRead.item hr
    exact ⟨[], t', ts', rfl, nofun, mapSpans_of_bare hitem, bare_inside hitem,
      congrArg ItemRead.diagnostics hr, congrArg ItemRead.rest hr⟩

/-! ## Windows -/

theorem windows_bare (ts : List Token) :
    windows (ts.map Token.bare) =
      ((windows ts).1.map Token.bare,
        (windows ts).2.map fun w => (w.1.bare, w.2.map Token.bare)) := by
  induction ts with
  | nil => rfl
  | cons t ts ih =>
    rw [List.map_cons, windows, windows, ih, Token.kind_bare]
    split <;> rfl

theorem windowAlike_bare {w v : Token × List Token}
    (h : (v.1.bare, v.2.map Token.bare) = (w.1.bare, w.2.map Token.bare)) :
    WindowAlike Span.bare SameBare w v := by
  obtain ⟨header, ts⟩ := w
  obtain ⟨header', us⟩ := v
  obtain ⟨hheader, hus⟩ := Prod.mk.inj h
  have hstart : header'.span.bare = header.span.bare := (Token.mk.inj hheader).2
  by_cases hname : ∃ name span inside, ts = ⟨.identifier name, span⟩ :: inside
  · obtain ⟨name, span, inside, rfl⟩ := hname
    obtain ⟨⟨kind, span'⟩, inside', rfl, hu, hinside⟩ := List.map_eq_cons_iff.1 hus
    obtain ⟨rfl, hspan⟩ := Token.mk.inj hu
    refine .named hinside (bare_extent ?_ hstart)
    exact congrArg₂ List.cons hheader hus
  · refine .nameless (fun name span inside he => hname ⟨name, span, inside, he⟩) ?_ hstart
    -- the other window begins with a name no more than this one
    rintro name span inside rfl
    obtain ⟨⟨kind, span'⟩, inside', rfl, hu, -⟩ := List.map_eq_cons_iff.1 hus.symm
    obtain ⟨rfl, -⟩ := Token.mk.inj hu
    exact hname ⟨name, span', inside', rfl⟩

/-! ## Stories -/

theorem Parsed.bare_eq_mapSpans (r : Parsed) : r.bare = r.mapSpans Span.bare := by
  rw [bare, r.story.bare_eq_mapSpans]
  rfl

theorem any_isContent_bare (ts : List Token) :
    (ts.map Token.bare).any Token.isContent = ts.any Token.isContent := by
  rw [List.any_map]
  rfl

/-- From tokens that differ in their offsets only, one story is read up to offsets, and the same is
said about it. -/
theorem bare_parse {ts ts' : List Token} (h : ts'.map Token.bare = ts.map Token.bare) :
    (parse ts').bare = (parse ts).bare := by
  have hend : (ts'.takeWhile (·.kind ≠ .eof)).map Token.bare =
      (ts.takeWhile (·.kind ≠ .eof)).map Token.bare := by
    rw [← takeWhile_bare (p := (·.kind ≠ .eof)) (fun _ => rfl), h,
      takeWhile_bare (p := (·.kind ≠ .eof)) (fun _ => rfl)]
  have hwindows := congrArg windows hend
  rw [windows_bare, windows_bare] at hwindows
  obtain ⟨hbefore, hrest⟩ := Prod.mk.inj hwindows
  have hcontent := congrArg (List.any · Token.isContent) hbefore
  rw [any_isContent_bare, any_isContent_bare] at hcontent
  rw [Parsed.bare_eq_mapSpans, Parsed.bare_eq_mapSpans]
  refine parse_alike tellsAlike_bare rfl rfl hbefore hcontent (bare_extent hbefore rfl) ?_
  -- windows that are the same one by one
  rw [← List.forall₂_eq_eq_eq, List.forall₂_map_left_iff, List.forall₂_map_right_iff] at hrest
  exact hrest.flip.imp fun _ _ => windowAlike_bare

end StoryScript

import StoryScript.Proofs.Story.Nesting
/-!
# Where the segments of a text lie

A text is glued from runs and cut again at its inline calls, and every segment is placed on the runs
it comes from. Runs of one text follow each other in the source (`Run.Follow`), so a segment starts
no later than it stops and both are places of the source. One end is miscounted: a line end between
the bounds of a choice text is one line feed in the text, whatever it is in the source, and where
the text ends with it the carriage return is taken for it (`segments_parseSource`).
-/

namespace StoryScript

open Token (Kind)

/-! ## Ends inside a line end -/

namespace Position

variable {p : Position} {source : List Char}

/-- The place behind a line feed that is counted from the carriage return before it. -/
def Miscounted (p : Position) (source : List Char) : Prop :=
  ∃ before after, source = before ++ '\r' :: '\n' :: after ∧ p = (origin.advance before).next '\n'

theorem offset_next_newline (before : List Char) :
    ((origin.advance before).next '\n').offset = String.utf8Len (before ++ ['\r']) := by
  have hsize : '\n'.utf8Size = '\r'.utf8Size := by decide
  simp [String.utf8Len_append, hsize]

/-- Such a place lies between the carriage return and the line feed, where the line is not over. -/
theorem Miscounted.not_coherent (h : p.Miscounted source) : ¬p.Coherent source := by
  obtain ⟨before, after, rfl, rfl⟩ := h
  intro hc
  have hsource : before ++ '\r' :: '\n' :: after = before ++ ['\r'] ++ '\n' :: after := by simp
  rw [Coherent, offset_next_newline, hsource, takeBytes_append, Option.map_some,
    advance_append] at hc
  have hline := congrArg Position.line (Option.some.inj hc)
  simp [next] at hline

/-- By its offset, either kind of place is where some text of the source ends. -/
theorem exists_prefix_of_offset (h : p.Coherent source ∨ p.Miscounted source) :
    ∃ before after, source = before ++ after ∧ p.offset = String.utf8Len before := by
  rcases h with h | ⟨before, after, rfl, rfl⟩
  · obtain ⟨before, after, rfl, rfl⟩ := coherent_iff.1 h
    exact ⟨before, after, rfl, by simp⟩
  · exact ⟨before ++ ['\r'], '\n' :: after, by simp, offset_next_newline before⟩

end Position

/-! ## Runs in the order of a source -/

namespace Run

variable {source : List Char} {lo hi : Nat} {r : Run} {runs : List Run}

/-- Runs one behind the other, the first of which starts no sooner than the offset `lo`. Each
character of a run stands at a place of the source, none behind the next run. -/
inductive Follow (source : List Char) : Nat → List Run → Prop
  | nil (lo : Nat) : Follow source lo []
  | cons {lo hi : Nat} {r : Run} {runs : List Run} (start : lo ≤ r.start.offset)
      (next : r.start.offset ≤ hi)
      (places : ∀ p ∈ places r.start r.text, p.Coherent source ∧ p.offset ≤ hi)
      (later : Follow source hi runs) : Follow source lo (r :: runs)

/-- Where the characters of a glued text stand, and where it ends. -/
def track (runs : List Run) : List Position := gluedPlaces runs ++ [gluedStop runs]

theorem track_cons (h : runs ≠ []) : track (r :: runs) = places r.start r.text ++ track runs := by
  have hlast : gluedStop (r :: runs) = gluedStop runs := by
    obtain ⟨r', rs, rfl⟩ := List.exists_cons_of_ne_nil h
    simp [gluedStop]
  rw [track, track, hlast, gluedPlaces, List.flatMap_cons, List.append_assoc]
  rfl

theorem track_singleton (r : Run) : track [r] = places r.start r.text ++ [r.stop] := by
  simp [track, gluedPlaces, gluedStop]

theorem offset_le_of_mem_places {p q : Position} {text : List Char} (h : q ∈ places p text) :
    p.offset ≤ q.offset ∧ q.offset ≤ (p.advance text).offset := by
  induction text generalizing p with
  | nil => cases h
  | cons c cs ih =>
    rcases List.mem_cons.1 h with rfl | h
    · exact ⟨Nat.le_refl _, by rw [Position.offset_advance]; exact Nat.le_add_right _ _⟩
    · obtain ⟨hstart, hstop⟩ := ih h
      rw [Position.offset_next] at hstart
      exact ⟨by omega, hstop⟩

theorem sorted_places (p : Position) (text : List Char) :
    (places p text).Pairwise (·.offset ≤ ·.offset) := by
  induction text generalizing p with
  | nil => exact .nil
  | cons c cs ih =>
    refine List.pairwise_cons.2 ⟨fun q hq => ?_, ih (p.next c)⟩
    have hle := (offset_le_of_mem_places hq).1
    rw [Position.offset_next] at hle
    omega

theorem Follow.le_of_mem_track (h : Follow source lo runs) (hne : runs ≠ []) :
    ∀ p ∈ track runs, lo ≤ p.offset := by
  induction h with
  | nil => exact absurd rfl hne
  | @cons lo hi r runs start next hplaces later ih =>
    have hfirst : ∀ p ∈ places r.start r.text, lo ≤ p.offset :=
      fun p hp => Nat.le_trans start (offset_le_of_mem_places hp).1
    by_cases hruns : runs = []
    · subst hruns
      rw [track_singleton]
      refine List.forall_mem_append.2 ⟨hfirst, List.forall_mem_singleton.2 ?_⟩
      rw [stop, Position.offset_advance]
      omega
    · rw [track_cons hruns]
      exact List.forall_mem_append.2
        ⟨hfirst, fun p hp => Nat.le_trans (Nat.le_trans start next) (ih hruns p hp)⟩

/-- Reading on in a glued text never goes back in the source. -/
theorem Follow.sorted_track (h : Follow source lo runs) :
    (track runs).Pairwise (·.offset ≤ ·.offset) := by
  induction h with
  | nil => exact List.pairwise_singleton _ _
  | @cons lo hi r runs start next hplaces later ih =>
    by_cases hruns : runs = []
    · subst hruns
      rw [track_singleton, List.pairwise_append]
      refine ⟨sorted_places _ _, List.pairwise_singleton _ _, fun p hp q hq => ?_⟩
      rw [List.mem_singleton.1 hq]
      exact (offset_le_of_mem_places hp).2
    · rw [track_cons hruns, List.pairwise_append]
      refine ⟨sorted_places _ _, ih, fun p hp q hq => ?_⟩
      exact Nat.le_trans (hplaces p hp).2 (later.le_of_mem_track hruns q hq)

theorem Follow.coherent (h : Follow source lo runs) :
    ∀ p ∈ gluedPlaces runs, p.Coherent source := by
  induction h with
  | nil => exact nofun
  | cons start next places later ih =>
    exact List.forall_mem_append.2 ⟨fun p hp => (places p hp).1, ih⟩

end Run

/-! ## Cutting and placing -/

theorem texts_ofPlain (text : List Char) :
    (Fragment.ofPlain text).flatMap Fragment.text = text := by
  unfold Fragment.ofPlain
  split <;> simp_all [Fragment.text]

theorem ne_nil_of_mem_ofPlain {text : List Char} : ∀ f ∈ Fragment.ofPlain text, f.text ≠ [] := by
  unfold Fragment.ofPlain
  split <;> simp_all [Fragment.text]

/-- A text is cut without loss, and no part of it is empty. -/
theorem texts_cutInlineCalls (offset : Nat) (text : List Char) :
    (cutInlineCalls offset text).fragments.flatMap Fragment.text = text ∧
      ∀ f ∈ (cutInlineCalls offset text).fragments, f.text ≠ [] := by
  fun_induction cutInlineCalls offset text with
  | case1 offset text hs => exact ⟨texts_ofPlain text, ne_nil_of_mem_ofPlain⟩
  | case2 offset text before body hs he => exact ⟨texts_ofPlain text, ne_nil_of_mem_ofPlain⟩
  | case3 offset text before body hs inner rest he hlt call cut ih =>
    have htext := append_of_findInlineStart hs
    rw [← append_of_findInlineEnd he] at htext
    refine ⟨?_, List.forall_mem_append.2 ⟨ne_nil_of_mem_ofPlain, List.forall_mem_cons.2 ⟨?_, ih.2⟩⟩⟩
    · rw [List.flatMap_append, List.flatMap_cons, texts_ofPlain, ih.1, ← htext]
      simp [call, Fragment.text]
    · simp [call, Fragment.text]

@[simp] theorem Fragment.span_segment (span : Span) (f : Fragment) :
    (f.segment span).span = span := by
  cases f <;> rfl

/-- Where a segment lies whose text begins at the first of some places: it starts there, and stops
at a later one. The last of the segments stops where the places do. -/
theorem mem_placeFragments {stop : Position} {places : List Position} {fs : List Fragment}
    (hlen : (fs.flatMap Fragment.text).length = places.length) (hne : ∀ f ∈ fs, f.text ≠ [])
    (hsorted : (places ++ [stop]).Pairwise (·.offset ≤ ·.offset)) {seg : Segment}
    (h : seg ∈ placeFragments stop places fs) :
    seg.span.start ∈ places ∧ seg.span.start.offset ≤ seg.span.stop.offset ∧
      (seg.span.stop ∈ places ∨
        seg.span.stop = stop ∧ (placeFragments stop places fs).getLast? = some seg) := by
  induction fs generalizing places with
  | nil => cases h
  | cons f fs ih =>
    obtain ⟨hf, hfs⟩ := List.forall_mem_cons.1 hne
    rw [List.flatMap_cons, List.length_append] at hlen
    rw [placeFragments] at h ⊢
    generalize hafter : places.drop f.text.length = after at h ⊢
    have hlater : (fs.flatMap Fragment.text).length = after.length := by
      rw [← hafter, List.length_drop]
      omega
    rcases List.mem_cons.1 h with rfl | h
    · obtain ⟨p, ps, rfl⟩ : ∃ p ps, places = p :: ps := by
        refine List.exists_cons_of_length_pos ?_
        have := List.length_pos_iff.2 hf
        omega
      have hmem : after ⊆ ps := by
        obtain ⟨c, cs, hc⟩ := List.exists_cons_of_ne_nil hf
        rw [← hafter, hc, List.length_cons, List.drop_succ_cons]
        exact List.drop_subset _ _
      have hle := (List.pairwise_cons.1 hsorted).1
      rw [Fragment.span_segment]
      refine ⟨List.mem_cons_self, ?_⟩
      cases after with
      | nil =>
        -- nothing is left of the text
        obtain rfl : fs = [] := by
          cases fs with
          | nil => rfl
          | cons g gs => exact absurd hlater (by simp [hfs g])
        exact ⟨hle stop (by simp), .inr ⟨rfl, rfl⟩⟩
      | cons q qs =>
        have hq : q ∈ ps := hmem List.mem_cons_self
        exact ⟨hle q (by simp [hq]), .inl (List.mem_cons_of_mem p hq)⟩
    · have hsub : after.Sublist places := hafter ▸ List.drop_sublist _ _
      obtain ⟨hstart, hle, hstop⟩ :=
        ih hlater hfs (hsorted.sublist (hsub.append_right [stop])) h
      refine ⟨hsub.subset hstart, hle, hstop.imp (hsub.subset ·) fun hlast => ⟨hlast.1, ?_⟩⟩
      rw [List.getLast?_cons, hlast.2]
      rfl

theorem Run.length_places (p : Position) (text : List Char) :
    (Run.places p text).length = text.length := by
  induction text generalizing p with
  | nil => rfl
  | cons c cs ih => rw [Run.places, List.length_cons, List.length_cons, ih]

theorem Run.length_gluedPlaces (runs : List Run) :
    (Run.gluedPlaces runs).length = (Run.glued runs).length := by
  simp [Run.gluedPlaces, Run.glued, List.length_flatMap, Run.length_places]

/-- A segment of runs that follow each other starts and stops at places of the source, but for the
last one, which stops where the runs do. -/
theorem mem_segmentsOf {source : List Char} {lo : Nat} {runs : List Run}
    (hf : Run.Follow source lo runs) {seg : Segment} (h : seg ∈ (segmentsOf runs).1) :
    seg.span.start.Coherent source ∧ seg.span.start.offset ≤ seg.span.stop.offset ∧
      (seg.span.stop.Coherent source ∨
        seg.span.stop = Run.gluedStop runs ∧ (segmentsOf runs).1.getLast? = some seg) := by
  obtain ⟨htexts, hne⟩ := texts_cutInlineCalls 0 (Run.glued runs)
  have hlen : ((cutInlineCalls 0 (Run.glued runs)).fragments.flatMap Fragment.text).length =
      (Run.gluedPlaces runs).length := by
    rw [htexts, Run.length_gluedPlaces]
  obtain ⟨hstart, hle, hstop⟩ := mem_placeFragments hlen hne hf.sorted_track h
  exact ⟨hf.coherent _ hstart, hle, hstop.imp_left (hf.coherent _)⟩

/-! ## The runs of tokens -/

theorem coherent_of_mem_places {before text after : List Char} :
    ∀ p ∈ Run.places (Position.origin.advance before) text,
      p.Coherent (before ++ text ++ after) := by
  induction text generalizing before with
  | nil => exact nofun
  | cons c cs ih =>
    refine List.forall_mem_cons.2 ⟨?_, ?_⟩
    · rw [List.append_assoc]
      exact Position.coherent_advance before _
    · have hnext := @ih (before ++ [c])
      rw [Position.advance_append] at hnext
      simpa using hnext

/-- A run that stands where a token does. -/
structure Run.Stands (source : List Char) (t : Token) (r : Run) : Prop where
  start : r.start = t.span.start
  places : ∀ p ∈ Run.places r.start r.text, p.Coherent source ∧ p.offset ≤ t.span.stop.offset
  proper : r.start.offset ≤ t.span.stop.offset

/-- The text that the source shows where a token stands. -/
theorem stands_of_span {before text after : List Char} {t : Token}
    (h : t.span = Span.ofText (Position.origin.advance before) text) :
    Run.Stands (before ++ text ++ after) t ⟨text, t.span.start⟩ ∧
      Run.stop ⟨text, t.span.start⟩ = t.span.stop ∧
      t.span.stop.Coherent (before ++ text ++ after) := by
  have hstart : t.span.start = Position.origin.advance before := by rw [h, Span.ofText]
  have hstop : t.span.stop = t.span.start.advance text := by rw [h, Span.ofText]
  refine ⟨⟨rfl, fun p hp => ⟨?_, ?_⟩, ?_⟩, hstop.symm, ?_⟩
  · rw [hstart] at hp
    exact coherent_of_mem_places p hp
  · rw [hstop]
    exact (Run.offset_le_of_mem_places hp).2
  · simp [hstop]
  · rw [hstop, hstart, ← Position.advance_append]
    exact Position.coherent_advance (before ++ text) after

theorem stands_of_lies {source : List Char} {t : Token} {text : List Char}
    (h : t.Lies Position.origin source) (hk : ∀ l, t.kind.Lexeme l → l = text) :
    Run.Stands source t ⟨text, t.span.start⟩ ∧ Run.stop ⟨text, t.span.start⟩ = t.span.stop ∧
      t.span.stop.Coherent source := by
  obtain ⟨before, l, after, rfl, hspan, hlex⟩ := h
  obtain rfl := hk l hlex
  exact stands_of_span hspan

theorem stands_speech {source : List Char} {t : Token} {r : Run}
    (h : t.Lies Position.origin source) (hr : t.speech? = some r) :
    Run.Stands source t r ∧ r.stop = t.span.stop ∧ t.span.stop.Coherent source := by
  unfold Token.speech? at hr
  split at hr
  · next hk =>
    obtain rfl := Option.some.inj hr
    exact stands_of_lies h fun l hlex => by rwa [hk] at hlex
  · cases hr

/-- What a token adds to a text between bounds stands where the token does, and ends there, but for
a line end with a carriage return: its line feed is counted from there. -/
theorem stands_blockRun {source : List Char} {t : Token} {r : Run}
    (h : t.Lies Position.origin source) (hr : t.blockRun? = some r) :
    Run.Stands source t r ∧ (r.stop.Coherent source ∨ r.stop.Miscounted source) := by
  have hproper := (Position.le_iff.1 h.proper).1
  obtain ⟨before, text, after, rfl, hspan, hlex⟩ := h
  -- the text of every token but a line end is its lexeme
  have hshown : r = ⟨text, t.span.start⟩ → Run.Stands (before ++ text ++ after) t r ∧
      (r.stop.Coherent (before ++ text ++ after) ∨
        r.stop.Miscounted (before ++ text ++ after)) := by
    rintro rfl
    obtain ⟨hstands, hstop, hcoherent⟩ := stands_of_span hspan
    exact ⟨hstands, .inl (hstop ▸ hcoherent)⟩
  unfold Token.blockRun? at hr
  cases hk : t.kind with
  | choiceText value | comment value | commentText value =>
    rw [hk] at hlex hr
    obtain rfl : ⟨value.toList, t.span.start⟩ = r := Option.some.inj hr
    exact hshown (by rw [← hlex])
  | commentOpen | commentClose =>
    rw [hk] at hlex hr
    obtain rfl := Option.some.inj hr
    exact hshown (by rw [show text = _ from hlex]; rfl)
  | newline =>
    rw [hk] at hlex hr
    obtain rfl : ⟨['\n'], t.span.start⟩ = r := Option.some.inj hr
    rcases hlex with rfl | rfl
    · exact hshown rfl
    · have hstart : t.span.start = Position.origin.advance before := by rw [hspan, Span.ofText]
      have hsource : before ++ ['\r', '\n'] ++ after = before ++ '\r' :: '\n' :: after := by simp
      rw [hsource]
      refine ⟨⟨rfl, List.forall_mem_singleton.2 ⟨?_, ?_⟩, ?_⟩, .inr ⟨before, after, rfl, ?_⟩⟩
      · rw [hstart]
        exact Position.coherent_advance before _
      · exact hproper
      · exact hproper
      · rw [hstart]
        rfl
  | _ =>
    rw [hk] at hr
    cases hr

/-! ## The runs of a text -/

theorem Run.gluedStop_append {as bs : List Run} (h : bs ≠ []) :
    Run.gluedStop (as ++ bs) = Run.gluedStop bs := by
  rw [Run.gluedStop, Run.gluedStop, List.getLast?_append_of_ne_nil as h]

theorem glueSpeeches_ne_nil {t : Token} {ts : List Token} (h : t.speech?.isSome) :
    glueSpeeches (t :: ts) ≠ [] := by
  obtain ⟨r, hr⟩ := Option.isSome_iff_exists.1 h
  cases ts <;> simp [glueSpeeches, hr]

/-- Tokens of a text begin where the ones before them have ended. -/
theorem stop_le_start_of_text {t u : Token} (h : t.EndsBefore u)
    (hu : u.speech?.isSome ∨ u.blockRun?.isSome) : t.span.stop.offset ≤ u.span.start.offset := by
  have hkind : u.kind.isLevel = false ∧ u.kind.isError = false := by
    unfold Token.speech? Token.blockRun? at hu
    cases hk : u.kind <;> simp_all [Kind.isLevel, Kind.isError, Kind.isTrivia]
  exact (Position.le_iff.1 (h.start hkind.1 hkind.2)).1

section
variable {source : List Char} {us : List Token} (ho : Token.InOrder us)
  (hl : ∀ u ∈ us, u.Lies Position.origin source)
include ho hl

theorem follow_blockRuns {lo : Nat}
    (hlo : ∀ u ∈ us, u.blockRun?.isSome → lo ≤ u.span.start.offset) :
    Run.Follow source lo (us.filterMap Token.blockRun?) := by
  induction us generalizing lo with
  | nil => exact .nil lo
  | cons t us ih =>
    have htail := ho.sublist (List.sublist_cons_self t us)
    have hlies := (List.forall_mem_cons.1 hl).2
    cases hr : t.blockRun? with
    | none =>
      rw [List.filterMap_cons_none hr]
      exact ih htail hlies fun u hu => hlo u (List.mem_cons_of_mem t hu)
    | some r =>
      obtain ⟨hstands, -⟩ := stands_blockRun (hl t (by simp)) hr
      rw [List.filterMap_cons_some hr]
      refine .cons ?_ hstands.proper hstands.places (ih htail hlies fun u hu hsome => ?_)
      · rw [hstands.start]
        exact hlo t (by simp) (by simp [hr])
      · exact stop_le_start_of_text ((List.pairwise_cons.1 ho.pairwise).1 u hu) (.inr hsome)

theorem follow_glueSpeeches (hs : ∀ u ∈ us, u.speech?.isSome) {lo : Nat}
    (hlo : ∀ u ∈ us.head?, lo ≤ u.span.start.offset) :
    Run.Follow source lo (glueSpeeches us) ∧
      (Run.gluedStop (glueSpeeches us)).Coherent source := by
  induction us using glueSpeeches.induct generalizing lo with
  | case1 => exact ⟨.nil lo, Position.coherent_advance [] source⟩
  | case2 t =>
    obtain ⟨r, hr⟩ := Option.isSome_iff_exists.1 (hs t (by simp))
    obtain ⟨hstands, hstop, hcoherent⟩ := stands_speech (hl t (by simp)) hr
    have hfirst : lo ≤ r.start.offset := hstands.start ▸ hlo t (by simp)
    rw [glueSpeeches, hr]
    refine ⟨.cons hfirst hstands.proper hstands.places (.nil _), ?_⟩
    change r.stop.Coherent source
    rw [hstop]
    exact hcoherent
  | case3 t u ts ih =>
    obtain ⟨r, hr⟩ := Option.isSome_iff_exists.1 (hs t (by simp))
    obtain ⟨hstands, hstop, hcoherent⟩ := stands_speech (hl t (by simp)) hr
    have hfirst : lo ≤ r.start.offset := hstands.start ▸ hlo t (by simp)
    have hnext : t.span.stop.offset ≤ u.span.start.offset :=
      stop_le_start_of_text ((List.pairwise_cons.1 ho.pairwise).1 u (by simp))
        (.inl (hs u (by simp)))
    obtain ⟨hlater, hend⟩ := ih (ho.sublist (List.sublist_cons_self t _))
      (List.forall_mem_cons.1 hl).2 (List.forall_mem_cons.1 hs).2
      (by simpa using hnext)
    have hne : glueSpeeches (u :: ts) ≠ [] := glueSpeeches_ne_nil (hs u (by simp))
    rw [glueSpeeches, hr]
    split
    · rw [List.append_nil, Run.gluedStop_append hne]
      exact ⟨.cons hfirst hstands.proper hstands.places hlater, hend⟩
    · -- the line feed between two lines stands where the first of them ends
      have hfeed : Run.Follow source t.span.stop.offset
          (⟨['\n'], t.span.stop⟩ :: glueSpeeches (u :: ts)) := by
        refine .cons (Nat.le_refl _) (Nat.le_refl _) (List.forall_mem_singleton.2 ?_) hlater
        exact ⟨hcoherent, Nat.le_refl _⟩
      rw [Run.gluedStop_append hne, Option.toList_some, List.map_singleton, hstop]
      exact ⟨.cons hfirst hstands.proper hstands.places hfeed, hend⟩

end

/-! ## The segments of a story -/

/-- The parts of the text of a replica or a choice. -/
def Statement.segments : Statement → List Segment
  | .replica r => r.segments
  | .choice c _ => c.segments
  | .goto _ | .call _ => []

/-- The text of a choice between bounds. -/
def Statement.blockText? : Statement → Option String
  | .choice c _ => c.blockText
  | _ => none

theorem follow_readInlineText {source : List Char} {bound : Token} {ts : List Token}
    (hl : ∀ u ∈ ts, u.Lies Position.origin source) :
    Run.Follow source 0 (readInlineText bound ts).runs ∧
      (Run.gluedStop (readInlineText bound ts).runs).Coherent source := by
  unfold readInlineText
  split
  · next text span rest =>
    obtain ⟨hstands, hstop, hcoherent⟩ :=
      stands_of_lies (hl ⟨.choiceText text, span⟩ (by simp)) fun l hlex => hlex
    refine ⟨.cons (Nat.zero_le _) hstands.proper hstands.places (.nil _), ?_⟩
    change (Run.stop ⟨text.toList, span.start⟩).Coherent source
    rw [hstop]
    exact hcoherent
  · exact ⟨.nil 0, Position.coherent_advance [] source⟩

theorem follow_readBlockText {source : List Char} {bound : Token} {ts : List Token}
    (ho : Token.InOrder ts) (hl : ∀ u ∈ ts, u.Lies Position.origin source) :
    Run.Follow source 0 (readBlockText bound ts).runs ∧
      ((Run.gluedStop (readBlockText bound ts).runs).Coherent source ∨
        (Run.gluedStop (readBlockText bound ts).runs).Miscounted source) ∧
      (readBlockText bound ts).blockText.isSome := by
  have hsub : (ts.takeWhile (·.blockRun?.isSome)).Sublist ts := List.takeWhile_sublist _
  have hlies : ∀ u ∈ ts.takeWhile (·.blockRun?.isSome), u.Lies Position.origin source :=
    fun u hu => hl u (hsub.subset hu)
  have hfollow := follow_blockRuns (ho.sublist hsub) hlies fun u _ _ => Nat.zero_le _
  have hlast : ∀ r ∈ (ts.takeWhile (·.blockRun?.isSome)).filterMap Token.blockRun?,
      r.stop.Coherent source ∨ r.stop.Miscounted source := by
    intro r hr
    obtain ⟨u, hu, hur⟩ := List.mem_filterMap.1 hr
    exact (stands_blockRun (hlies u hu) hur).2
  generalize hruns : (ts.takeWhile (·.blockRun?.isSome)).filterMap Token.blockRun? = runs
    at hfollow hlast
  have hstop : (Run.gluedStop runs).Coherent source ∨ (Run.gluedStop runs).Miscounted source := by
    unfold Run.gluedStop
    cases hr : runs.getLast? with
    | none => exact .inl (Position.coherent_advance [] source)
    | some r => exact hlast r (List.mem_of_getLast? hr)
  unfold readBlockText
  dsimp only
  rw [hruns]
  split <;> exact ⟨hfollow, hstop, rfl⟩

/-- The runs of a choice's text follow each other, and only those between bounds can end inside a
line end. -/
theorem follow_readChoiceText {source : List Char} {ts : List Token} (ho : Token.InOrder ts)
    (hl : ∀ u ∈ ts, u.Lies Position.origin source) :
    Run.Follow source 0 (readChoiceText ts).runs ∧
      ((Run.gluedStop (readChoiceText ts).runs).Coherent source ∨
        (Run.gluedStop (readChoiceText ts).runs).Miscounted source ∧
          (readChoiceText ts).blockText.isSome) := by
  unfold readChoiceText
  split
  · obtain ⟨hfollow, hstop⟩ := follow_readInlineText (List.forall_mem_cons.1 hl).2
    exact ⟨hfollow, .inl hstop⟩
  · obtain ⟨hfollow, hstop, hblock⟩ :=
      follow_readBlockText (ho.sublist (List.sublist_cons_self _ _)) (List.forall_mem_cons.1 hl).2
    exact ⟨hfollow, hstop.imp_right (⟨·, hblock⟩)⟩
  · exact ⟨.nil 0, .inl (Position.coherent_advance [] source)⟩

/-- Where a segment of a statement lies in a source. -/
structure Segment.Placed (source : List Char) (s : Statement) (seg : Segment) : Prop where
  start : seg.span.start.Coherent source
  proper : seg.span.start.offset ≤ seg.span.stop.offset
  stop : seg.span.stop.Coherent source ∨ seg.span.stop.Miscounted source ∧
    s.blockText?.isSome ∧ s.segments.getLast? = some seg

/-- The segments of a text whose runs follow each other. -/
theorem placed_segmentsOf {source : List Char} {lo : Nat} {runs : List Run} {s : Statement}
    (hs : s.segments = (segmentsOf runs).1) (hf : Run.Follow source lo runs)
    (hstop : (Run.gluedStop runs).Coherent source ∨
      (Run.gluedStop runs).Miscounted source ∧ s.blockText?.isSome) :
    ∀ seg ∈ s.segments, seg.Placed source s := by
  intro seg hseg
  rw [hs] at hseg
  obtain ⟨hstart, hproper, hend | ⟨hend, hlast⟩⟩ := mem_segmentsOf hf hseg
  · exact ⟨hstart, hproper, .inl hend⟩
  · refine ⟨hstart, hproper, ?_⟩
    rw [hend, hs]
    exact hstop.imp_right fun ⟨hm, hb⟩ => ⟨hm, hb, hlast⟩

theorem placed_of_statement? {source : List Char} {t : Token} {ts : List Token}
    (ho : Token.InOrder ts) (hl : ∀ u ∈ ts, u.Lies Position.origin source)
    {tags choiceTags : List Tag} {body : List Statement} {s : Statement}
    (h : (readItem t ts).item.statement? tags choiceTags body = some s) :
    ∀ seg ∈ s.segments, seg.Placed source s := by
  cases statementRead h with
  | goto | call => exact List.forall_mem_nil _
  | replica =>
    have hsub : ((ts.takeWhile fun u => u.speech?.isSome || u.isTrivia).filter
        (·.speech?.isSome)).Sublist ts := List.filter_sublist.trans (List.takeWhile_sublist _)
    obtain ⟨hfollow, hstop⟩ := follow_glueSpeeches (ho.sublist hsub)
      (fun u hu => hl u (hsub.subset hu)) (fun u hu => (List.mem_filter.1 hu).2)
      fun u _ => Nat.zero_le _
    exact placed_segmentsOf rfl hfollow (.inl hstop)
  | choice _ _ hi =>
    obtain ⟨hfollow, hstop⟩ := follow_readChoiceText ho hl
    obtain ⟨rfl, -⟩ := Item.choice.inj hi
    exact placed_segmentsOf rfl hfollow hstop

/-- Every segment starts at a place of the source and stops no sooner, between two characters of the
source. It stops at a place of the source as well, unless it is the last one of a text between
bounds and stops inside a line end. -/
theorem segments_parseSource (source : String) :
    ∀ s ∈ (parseSource source).story.preorder, ∀ seg ∈ s.segments,
      seg.span.start.offset ≤ seg.span.stop.offset ∧
      seg.span.stop.offset ≤ source.utf8ByteSize ∧
      seg.span.start.Coherent source.toList ∧
      (takeBytes seg.span.stop.offset source.toList).isSome ∧
      (seg.span.stop.Coherent source.toList ↔ ¬seg.span.stop.Miscounted source.toList) ∧
      (seg.span.stop.Miscounted source.toList →
        s.blockText?.isSome ∧ s.segments.getLast? = some seg) := by
  intro s hs seg hseg
  obtain ⟨hstart, hproper, hstop⟩ : seg.Placed source.toList s := by
    refine forall_preorder_parse (P := fun s => ∀ seg ∈ s.segments, seg.Placed source.toList s)
      (fun t ts hsub _ _ _ s h => ?_) s hs seg hseg
    have hts : ts.Sublist (tokenize source) := (List.sublist_cons_self t ts).trans hsub
    exact placed_of_statement? ((inOrder_tokenize source).sublist hts)
      (fun u hu => lies_of_mem_tokenize (hts.subset hu)) h
  obtain ⟨before, after, hsource, hoffset⟩ :=
    Position.exists_prefix_of_offset (hstop.imp_right And.left)
  refine ⟨hproper, ?_, hstart, ?_, ?_, ?_⟩
  · rw [← String.utf8Len_toList, hoffset, hsource, String.utf8Len_append]
    omega
  · rw [hoffset, hsource, takeBytes_append]
    rfl
  · refine ⟨fun hc hm => hm.not_coherent hc, fun hm => ?_⟩
    exact hstop.resolve_right fun h => hm h.1
  · intro hm
    exact (hstop.resolve_left hm.not_coherent).2

/-- A text between bounds that ends with a line feed alone stops behind it. -/
theorem segments_block_newline :
    let source := "+ ```\nhi\n```\n"
    ∃ s ∈ (parseSource source).story.preorder, ∃ seg ∈ s.segments,
      seg.span.stop = ⟨9, 3, 1⟩ ∧ seg.span.stop.Coherent source.toList := by
  intro source
  have hstops : (⟨9, 3, 1⟩ : Position) ∈ (parseSource source).story.preorder.flatMap
      fun s => s.segments.map (·.span.stop) := by decide +kernel
  obtain ⟨s, hs, hmem⟩ := List.mem_flatMap.1 hstops
  obtain ⟨seg, hseg, hstop⟩ := List.mem_map.1 hmem
  obtain ⟨-, -, -, -, hcoherent, -⟩ := segments_parseSource source s hs seg hseg
  refine ⟨s, hs, seg, hseg, hstop, hcoherent.2 ?_⟩
  rintro ⟨before, after, hsource, -⟩
  have hreturn : '\r' ∈ source.toList := by simp [hsource]
  exact absurd hreturn (by decide)

/-- With a carriage return before it, the text stops between the two. -/
theorem segments_block_return :
    let source := "+ ```\r\nhi\r\n```\r\n"
    ∃ s ∈ (parseSource source).story.preorder, ∃ seg ∈ s.segments,
      seg.span.stop = ⟨10, 3, 1⟩ ∧ ¬seg.span.stop.Coherent source.toList := by
  intro source
  have hstops : (⟨10, 3, 1⟩ : Position) ∈ (parseSource source).story.preorder.flatMap
      fun s => s.segments.map (·.span.stop) := by decide +kernel
  obtain ⟨s, hs, hmem⟩ := List.mem_flatMap.1 hstops
  obtain ⟨seg, hseg, hstop⟩ := List.mem_map.1 hmem
  refine ⟨s, hs, seg, hseg, hstop, ?_⟩
  rw [hstop, Position.Coherent]
  decide

end StoryScript

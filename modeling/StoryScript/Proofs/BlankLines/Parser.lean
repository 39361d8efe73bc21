import StoryScript.Proofs.BlankLines.Padding
import StoryScript.Proofs.Story.Alike
/-!
# The parser and lines without content

Where the parser goes from one token to the next in a line, nothing is put in; where it goes over line
ends, it goes over all trivia. So tokens with such lines put in give the same story up to places, and
the same is said about it (`unplaced_parse`).
-/

namespace StoryScript

open Token (Kind)

variable {p : Place} {t u : Token} {ts us : List Token}

/-! ## Tokens of an item -/

theorem padded_readTag (hp : p.spot ≠ .lineStart) (h : Padded p ts us) (t u : Token)
    (name : String) :
    (readTag u name us).1.unplaced = (readTag t name ts).1.unplaced ∧
      ∃ q, Padded q (readTag t name ts).2 (readTag u name us).2 := by
  rcases h.aligned hp with ⟨rfl, rfl⟩ | ⟨⟨kind, span⟩, ⟨kind', span'⟩, ts, us, rfl, rfl, hk, hrest⟩
  · exact ⟨rfl, p, .nil p⟩
  · obtain rfl : kind' = kind := hk.kind
    cases kind' with
    | tagValue value => exact ⟨rfl, _, hrest⟩
    | _ => exact ⟨rfl, p, .keep hk hrest⟩

theorem padded_readTarget (hp : p.spot ≠ .lineStart) (h : Padded p ts us) :
    (readTarget ts = none ∧ readTarget us = none) ∨
      ∃ target span span' rest rest' q, readTarget ts = some (target, span, rest) ∧
        readTarget us = some (target, span', rest') ∧ Padded q rest rest' := by
  rcases h.aligned hp with ⟨rfl, rfl⟩ | ⟨⟨kind, span⟩, ⟨kind', span'⟩, ts, us, rfl, rfl, hk, hrest⟩
  · exact .inl ⟨rfl, rfl⟩
  · obtain rfl : kind' = kind := hk.kind
    cases kind' with
    | identifier name =>
      rw [readTarget, readTarget]
      split
      · exact .inl ⟨rfl, rfl⟩
      · exact .inr ⟨_, span, span', ts, us, _, rfl, rfl, hrest⟩
    | _ => exact .inl ⟨rfl, rfl⟩

theorem filterMap_of_kinds {α : Type} {f : Token → Option α}
    (hf : ∀ t u : Token, u.kind = t.kind → f u = f t)
    (h : us.map Token.kind = ts.map Token.kind) : us.filterMap f = ts.filterMap f := by
  induction ts generalizing us with
  | nil => rw [List.map_eq_nil_iff.1 h]
  | cons t ts ih =>
    obtain ⟨u, us, rfl, hk, hus⟩ := List.map_eq_cons_iff.1 h
    rw [List.filterMap_cons, List.filterMap_cons, ih hus, hf t u hk]

theorem argument?_of_kind (t u : Token) (h : u.kind = t.kind) : u.argument? = t.argument? := by
  rw [Token.argument?, Token.argument?, h]

theorem padded_readCall (hp : p.spot ≠ .lineStart) (h : Padded p ts us) (t u : Token)
    (name : String) :
    (readCall u name us).1.mapSpans (fun _ => Span.origin) =
        (readCall t name ts).1.mapSpans (fun _ => Span.origin) ∧
      (readCall u name us).2.1.map Diagnostic.unplaced =
        (readCall t name ts).2.1.map Diagnostic.unplaced ∧
      ∃ q, Padded q (readCall t name ts).2.2 (readCall u name us).2.2 := by
  have hstay : ∀ (spot : Spot) (v : Token), spot ≠ .lineStart → v.argument?.isSome = true →
      spot.next v.kind ≠ .lineStart := by
    intro spot v _ hv
    refine Spot.next_ne_lineStart ?_ spot
    intro hk
    simp [Token.argument?, hk] at hv
  obtain ⟨hkinds, q, hq, hrest⟩ := Padded.span_kept (f := (·.argument?.isSome))
    (fun t u h => by rw [argument?_of_kind t u h]) (P := (· ≠ .lineStart)) (fun _ h => h) hstay hp h
  have hargs := filterMap_of_kinds argument?_of_kind hkinds
  have hempty := congrArg List.isEmpty hkinds
  rw [List.isEmpty_map, List.isEmpty_map] at hempty
  have hhead : ∀ {ts us : List Token}, Padded q ts us →
      us.head?.map (·.kind == .newline) = ts.head?.map (·.kind == .newline) := by
    intro ts us h
    rcases h.aligned hq with ⟨rfl, rfl⟩ | ⟨t, u, ts, us, rfl, rfl, hk, -⟩
    · rfl
    · simp [hk.kind]
  unfold readCall
  dsimp only
  rw [hargs, hempty, hhead hrest]
  refine ⟨rfl, ?_, q, hrest⟩
  split <;> rfl

/-! ## Segments -/

/-- Runs with the same text are cut into the same segments, wherever they stand. -/
theorem unplaced_segmentsOf {as bs : List Run} (h : Run.glued as = Run.glued bs) :
    (segmentsOf as).1.map Segment.unplaced = (segmentsOf bs).1.map Segment.unplaced ∧
      (segmentsOf as).2.map Diagnostic.unplaced = (segmentsOf bs).2.map Diagnostic.unplaced := by
  have hplace : ∀ (stop : Position) (places : List Position) (fs : List Fragment),
      (placeFragments stop places fs).map Segment.unplaced =
        fs.map fun f => (f.segment Span.origin).unplaced := by
    intro stop places fs
    induction fs generalizing places with
    | nil => rfl
    | cons f fs ih =>
      rw [placeFragments, List.map_cons, ih, List.map_cons]
      cases f <;> rfl
  unfold segmentsOf
  dsimp only
  rw [hplace, hplace, h, List.map_map, List.map_map]
  exact ⟨rfl, rfl⟩

theorem plainText_of_unplaced {as bs : List Segment}
    (h : as.map Segment.unplaced = bs.map Segment.unplaced) : plainText as = plainText bs := by
  have htext : ∀ ss : List Segment, plainText ss = plainText (ss.map Segment.unplaced) := by
    intro ss
    have hcomp : Segment.text? ∘ Segment.unplaced = Segment.text? := by
      funext s
      cases s <;> rfl
    rw [plainText, plainText, List.filterMap_map, hcomp]
  rw [htext as, htext bs, h]

/-! ## Replicas -/

theorem isSome_speech? (t u : Token) (h : u.kind = t.kind) :
    u.speech?.isSome = t.speech?.isSome := by
  unfold Token.speech?
  rw [h]
  cases t.kind <;> rfl

theorem not_isTrivia_of_speech {t : Token} (h : t.speech?.isSome = true) : t.isTrivia = false := by
  obtain ⟨text, hk⟩ := Token.exists_speech h
  rw [Token.isTrivia, hk]
  rfl

theorem ne_newline_of_speech {t : Token} (h : t.speech?.isSome = true) : t.kind ≠ .newline := by
  obtain ⟨text, hk⟩ := Token.exists_speech h
  rw [hk]
  exact nofun

theorem not_speech_of_isTrivia {t : Token} (h : t.isTrivia = true) : ¬ t.speech?.isSome = true := by
  intro hs
  rw [not_isTrivia_of_speech hs] at h
  cases h

theorem filter_speech {t : Token} (h : t.speech?.isSome = true) (ts : List Token) :
    (t :: ts).filter (·.speech?.isSome) = t :: ts.filter (·.speech?.isSome) :=
  List.filter_cons_of_pos (p := fun t : Token => t.speech?.isSome) h

theorem filter_not_speech {t : Token} (h : ¬ t.speech?.isSome = true) (ts : List Token) :
    (t :: ts).filter (·.speech?.isSome) = ts.filter (·.speech?.isSome) :=
  List.filter_cons_of_neg (p := fun t : Token => t.speech?.isSome) h

/-- The text of a speech depends on its kind only. -/
theorem glued_speech? (t u : Token) (h : u.kind = t.kind) :
    Run.glued u.speech?.toList = Run.glued t.speech?.toList := by
  unfold Token.speech?
  rw [h]
  cases t.kind <;> rfl

/-- What stands between two speeches on different lines. -/
theorem glued_feed (t u : Token) (h : u.kind = t.kind) :
    Run.glued (u.speech?.toList.map fun r => ⟨['\n'], r.stop⟩) =
      Run.glued (t.speech?.toList.map fun r => ⟨['\n'], r.stop⟩) := by
  rw [Run.glued, Run.glued, List.flatMap_map, List.flatMap_map]
  unfold Token.speech?
  rw [h]
  cases t.kind <;> rfl

theorem glued_append (as bs : List Run) : Run.glued (as ++ bs) = Run.glued as ++ Run.glued bs :=
  List.flatMap_append

/-- The speeches behind one that both have. A line is put in only behind a line end, and then the next
speech stands on another line anyway. -/
theorem glued_behind_speech {t u : Token} {n : Nat} (hk : u.kind = t.kind)
    (hstop : u.span.stop.line = t.span.stop.line + n) (hline : t.span.stop.line ≤ p.line)
    (hspot : p.spot = .lineStart → t.span.stop.line < p.line)
    (hshift : p.shift = n ∨ n ≤ p.shift ∧ t.span.stop.line < p.line) (h : Padded p ts us) :
    Run.glued (glueSpeeches (u :: us.filter (·.speech?.isSome))) =
      Run.glued (glueSpeeches (t :: ts.filter (·.speech?.isSome))) := by
  -- as long as `t` may end on the line of the place, nothing has been put in since `t`
  induction h generalizing t u n with
  | nil => exact glued_speech? t u hk
  | @keep p t' u' ts us hk' h ih =>
    have hsome := isSome_speech? t' u' hk'.kind
    by_cases hs : t'.speech?.isSome = true
    · have hstart := hk'.start
      have hle := hk'.line (.inr hs)
      have hsame : u.span.stop.line = u'.span.start.line ↔ t.span.stop.line = t'.span.start.line := by
        omega
      have hrest := ih hk'.kind hk'.stop (Nat.le_max_right _ _)
        (fun hl => absurd hl (p.spot_past (ne_newline_of_speech hs))) (.inl rfl)
      rw [filter_speech (hsome.trans hs), filter_speech hs, glueSpeeches, glueSpeeches]
      simp only [glued_append, glued_speech? t u hk, hrest, hsame]
      congr 2
      split
      · rfl
      · exact glued_feed t u hk
    · rw [filter_not_speech (hsome ▸ hs), filter_not_speech hs]
      have hpast : p.line ≤ (p.past t').line := Nat.le_max_left _ _
      refine ih hk hstop (Nat.le_trans hline hpast) ?_ ?_
      · -- a line begins behind a line end only, and that ends on a later line
        intro hl
        have hnew : t'.kind = .newline := by
          by_contra hne
          exact p.spot_past hne hl
        have hend := hk'.newline hnew
        have hle := hk'.line (.inl hnew)
        have hmax : t'.span.stop.line ≤ (p.past t').line := Nat.le_max_right _ _
        omega
      · rcases hshift with hn | ⟨hn, hlt⟩
        · exact .inl hn
        · exact .inr ⟨hn, Nat.lt_of_lt_of_le hlt hpast⟩
  | @pad p v ts us m hp hv h ih =>
    rw [filter_not_speech (not_speech_of_isTrivia hv)]
    have hlt := hspot hp
    refine ih hk hstop hline (fun _ => hlt) (.inr ⟨?_, hlt⟩)
    dsimp only
    omega

theorem glued_speeches (h : Padded p ts us) :
    Run.glued (glueSpeeches (us.filter (·.speech?.isSome))) =
      Run.glued (glueSpeeches (ts.filter (·.speech?.isSome))) := by
  induction h with
  | nil => rfl
  | @keep p t u ts us hk h ih =>
    have hsome := isSome_speech? t u hk.kind
    by_cases hs : t.speech?.isSome = true
    · rw [filter_speech (hsome.trans hs), filter_speech hs]
      exact glued_behind_speech hk.kind hk.stop (Nat.le_max_right _ _)
        (fun hl => absurd hl (p.spot_past (ne_newline_of_speech hs))) (.inl rfl) h
    · rw [filter_not_speech (hsome ▸ hs), filter_not_speech hs]
      exact ih
  | pad n hp hv h ih =>
    rw [filter_not_speech (not_speech_of_isTrivia hv)]
    exact ih

theorem padded_readReplica (h : Padded p ts us) (t u : Token) :
    (readReplica u us).1.mapSpans (fun _ => Span.origin) =
        (readReplica t ts).1.mapSpans (fun _ => Span.origin) ∧
      (readReplica u us).2.1.map Diagnostic.unplaced =
        (readReplica t ts).2.1.map Diagnostic.unplaced ∧
      ∃ q, Padded q (readReplica t ts).2.2 (readReplica u us).2.2 := by
  obtain ⟨hinside, q, hq, hrest⟩ := h.span_trivia (f := fun v => v.speech?.isSome || v.isTrivia)
    (fun t u hk => by rw [isSome_speech? t u hk, Token.isTrivia, Token.isTrivia, hk])
    (fun t ht => by rw [ht, Bool.or_true])
  obtain ⟨hseg, hdiag⟩ := unplaced_segmentsOf (glued_speeches hinside)
  have htext := plainText_of_unplaced hseg
  unfold readReplica
  dsimp only
  generalize ts.dropWhile (fun v => v.speech?.isSome || v.isTrivia) = rest at hrest ⊢
  generalize us.dropWhile (fun v => v.speech?.isSome || v.isTrivia) = rest' at hrest ⊢
  rw [Segment.unplaced_eq_mapSpan] at hseg
  rcases hrest.aligned hq with
    ⟨rfl, rfl⟩ | ⟨⟨kind, span⟩, ⟨kind', span'⟩, ts, us, rfl, rfl, hk, htail⟩
  · exact ⟨by simp [Replica.mapSpans, hseg, htext], hdiag, q, .nil q⟩
  · obtain rfl : kind' = kind := hk.kind
    cases kind' with
    | replicaEnd => exact ⟨by simp [Replica.mapSpans, hseg, htext], hdiag, _, htail⟩
    | _ => exact ⟨by simp [Replica.mapSpans, hseg, htext], hdiag, q, .keep hk htail⟩

/-! ## Choices -/

theorem padded_readSilentBound (hp : p.spot ≠ .lineStart) (h : Padded p ts us) :
    ∃ q, Padded q (readSilentBound ts).2 (readSilentBound us).2 := by
  rcases h.aligned hp with ⟨rfl, rfl⟩ | ⟨⟨kind, span⟩, ⟨kind', span'⟩, ts, us, rfl, rfl, hk, hrest⟩
  · exact ⟨p, .nil p⟩
  · obtain rfl : kind' = kind := hk.kind
    cases kind' with
    | choiceBound silent =>
      cases silent with
      | true => exact ⟨_, hrest⟩
      | false => exact ⟨p, .keep hk hrest⟩
    | _ => exact ⟨p, .keep hk hrest⟩

/-- Choice texts that are the same up to places. -/
structure ChoiceText.Alike (a b : ChoiceText) : Prop where
  inlineText : b.inlineText = a.inlineText
  blockText : b.blockText = a.blockText
  runs : Run.glued b.runs = Run.glued a.runs
  diagnostics : b.diagnostics.map Diagnostic.unplaced = a.diagnostics.map Diagnostic.unplaced
  rest : ∃ q, Padded q a.rest b.rest

theorem alike_readInlineText (hp : p.spot ≠ .lineStart) (h : Padded p ts us) (t u : Token) :
    (readInlineText t ts).Alike (readInlineText u us) := by
  rcases id h.aligned hp with
    ⟨rfl, rfl⟩ | ⟨⟨kind, span⟩, ⟨kind', span'⟩, ts, us, rfl, rfl, hk, hrest⟩
  · exact ⟨rfl, rfl, rfl, rfl, p, .nil p⟩
  · obtain rfl : kind' = kind := hk.kind
    cases kind' with
    | choiceText text =>
      exact ⟨rfl, rfl, rfl, rfl, padded_readSilentBound (p.spot_past (by simp)) hrest⟩
    | _ => exact ⟨rfl, rfl, rfl, rfl, padded_readSilentBound hp h⟩

theorem blockRun?_of_kind (t u : Token) (h : u.kind = t.kind) :
    u.blockRun?.map Run.text = t.blockRun?.map Run.text := by
  unfold Token.blockRun?
  rw [h]
  cases t.kind <;> rfl

theorem glued_blockRuns (h : us.map Token.kind = ts.map Token.kind) :
    Run.glued (us.filterMap Token.blockRun?) = Run.glued (ts.filterMap Token.blockRun?) := by
  have htexts : ∀ vs : List Token, Run.glued (vs.filterMap Token.blockRun?) =
      (vs.filterMap fun v => v.blockRun?.map Run.text).flatten := by
    intro vs
    rw [Run.glued, List.flatMap_def, List.map_filterMap]
  rw [htexts, htexts, filterMap_of_kinds blockRun?_of_kind h]

/-- Between bounds nothing is put in. -/
theorem alike_readBlockText (hp : p.spot = .inText) (h : Padded p ts us) (t u : Token) :
    (readBlockText t ts).Alike (readBlockText u us) := by
  have hkind : ∀ t u : Token, u.kind = t.kind → u.blockRun?.isSome = t.blockRun?.isSome := by
    intro t u h
    rw [← Option.isSome_map (f := Run.text), blockRun?_of_kind t u h, Option.isSome_map]
  have hstay : ∀ (spot : Spot) (v : Token), spot = .inText → v.blockRun?.isSome = true →
      spot.next v.kind = .inText := by
    rintro spot v rfl hv
    refine Spot.next_inText ?_
    intro hk
    simp [Token.blockRun?, hk, Kind.isTrivia] at hv
  obtain ⟨hkinds, q, hq, hrest⟩ := h.span_kept (f := (·.blockRun?.isSome)) hkind
    (P := (· = .inText)) (fun _ h => by simp [h]) hstay hp
  have hruns := glued_blockRuns hkinds
  unfold readBlockText
  dsimp only
  generalize ts.dropWhile (·.blockRun?.isSome) = rest at hrest ⊢
  generalize us.dropWhile (·.blockRun?.isSome) = rest' at hrest ⊢
  rw [hruns]
  have hne : q.spot ≠ .lineStart := by simp [hq]
  rcases hrest.aligned hne with
    ⟨rfl, rfl⟩ | ⟨⟨kind, span⟩, ⟨kind', span'⟩, ts, us, rfl, rfl, hk, htail⟩
  · exact ⟨rfl, rfl, hruns, rfl, q, .nil q⟩
  · obtain rfl : kind' = kind := hk.kind
    cases kind' with
    | choiceBound silent =>
      cases silent with
      | true => exact ⟨rfl, rfl, hruns, rfl, q, .keep hk htail⟩
      | false => exact ⟨rfl, rfl, hruns, rfl, _, htail⟩
    | _ => exact ⟨rfl, rfl, hruns, rfl, q, .keep hk htail⟩

theorem alike_readChoiceText (hp : p.spot = .inLine) (h : Padded p ts us) :
    (readChoiceText ts).Alike (readChoiceText us) := by
  have hne : p.spot ≠ .lineStart := by
    rw [hp]
    exact nofun
  rcases h.aligned hne with ⟨rfl, rfl⟩ | ⟨⟨kind, span⟩, ⟨kind', span'⟩, ts, us, rfl, rfl, hk, hrest⟩
  · exact ⟨rfl, rfl, rfl, rfl, p, .nil p⟩
  · obtain rfl : kind' = kind := hk.kind
    cases kind' with
    | choiceBound silent =>
      cases silent with
      | true => exact alike_readInlineText (p.spot_past (by simp)) hrest _ _
      | false =>
        refine alike_readBlockText ?_ hrest _ _
        rw [Place.past, hp]
        rfl
    | _ => exact ⟨rfl, rfl, rfl, rfl, p, .keep hk hrest⟩

theorem padded_readIndented (h : Padded p ts us) :
    (readIndented ts = none ∧ readIndented us = none) ∨
      ∃ inside rest inside' rest' q q', readIndented ts = some (inside, rest) ∧
        readIndented us = some (inside', rest') ∧ Padded q inside inside' ∧ Padded q' rest rest' := by
  obtain ⟨-, q, hq, hrest⟩ := h.span_trivia (f := (·.isTrivia))
    (fun t u hk => by rw [Token.isTrivia, Token.isTrivia, hk]) (fun _ ht => ht)
  unfold readIndented
  generalize ts.dropWhile (·.isTrivia) = rest at hrest ⊢
  generalize us.dropWhile (·.isTrivia) = rest' at hrest ⊢
  rcases hrest.aligned hq with
    ⟨rfl, rfl⟩ | ⟨⟨kind, span⟩, ⟨kind', span'⟩, ts, us, rfl, rfl, hk, htail⟩
  · exact .inl ⟨rfl, rfl⟩
  · obtain rfl : kind' = kind := hk.kind
    cases kind' with
    | indent =>
      obtain ⟨hbody, q', hbehind⟩ := padded_readBody htail 1
      exact .inr ⟨_, _, _, _, _, q', rfl, rfl, hbody, hbehind⟩
    | _ => exact .inl ⟨rfl, rfl⟩

/-! ## Items -/

/-- Somewhere in a source the one list is the other with lines put in. -/
def IsPadded (ts us : List Token) : Prop := ∃ p, Padded p ts us

theorem alike_readChoice (hp : p.spot = .inLine) (h : Padded p ts us) (t u : Token) :
    (readChoice t ts).Alike (fun _ => Span.origin) IsPadded (readChoice u us) := by
  obtain ⟨hinline, hblock, hruns, hsaid, q, hrest⟩ := alike_readChoiceText hp h
  obtain ⟨hseg, hdiag⟩ := unplaced_segmentsOf hruns
  have hdiags : ((readChoiceText us).diagnostics ++ (segmentsOf (readChoiceText us).runs).2).map
      Diagnostic.unplaced = ((readChoiceText ts).diagnostics ++
        (segmentsOf (readChoiceText ts).runs).2).map Diagnostic.unplaced := by
    rw [List.map_append, List.map_append, hsaid, hdiag]
  rw [Segment.unplaced_eq_mapSpan] at hseg
  unfold readChoice
  dsimp only
  rcases padded_readIndented hrest with
    ⟨hnone, hnone'⟩ | ⟨inside, rest, inside', rest', q', q'', hsome, hsome', hinside, hbehind⟩
  · rw [hnone, hnone']
    exact ⟨by simp [Item.mapSpans, Choice.mapSpans, hinline, hblock, hseg], ⟨q, .nil q⟩, hdiags,
      q, hrest⟩
  · rw [hsome, hsome']
    exact ⟨by simp [Item.mapSpans, Choice.mapSpans, hinline, hblock, hseg], ⟨q', hinside⟩, hdiags,
      q'', hbehind⟩

/-- An item is read the same up to places if lines are put in behind its first token. -/
theorem alike_readItem (hk : Kept p t u) (h : Padded (p.past t) ts us) :
    (readItem t ts).Alike (fun _ => Span.origin) IsPadded (readItem u us) := by
  have hnil : IsPadded [] [] := ⟨p, .nil p⟩
  have hspot : t.kind ≠ .newline → (p.past t).spot ≠ .lineStart := fun hn => p.spot_past hn
  unfold readItem
  rw [hk.kind]
  cases hkind : t.kind with
  | tag name =>
    obtain ⟨htag, hrest⟩ := padded_readTag (hspot (by simp [hkind])) h t u name
    exact ⟨congrArg Item.tag htag, hnil, rfl, hrest⟩
  | choiceTag name =>
    obtain ⟨htag, hrest⟩ := padded_readTag (hspot (by simp [hkind])) h t u name
    exact ⟨congrArg Item.choiceTag htag, hnil, rfl, hrest⟩
  | goto arrow =>
    dsimp only
    rcases padded_readTarget (hspot (by simp [hkind])) h with
      ⟨hnone, hnone'⟩ | ⟨target, span, span', rest, rest', q, hsome, hsome', hrest⟩
    · rw [hnone, hnone']
      exact ⟨rfl, hnil, rfl, _, h⟩
    · rw [hsome, hsome']
      exact ⟨rfl, hnil, rfl, q, hrest⟩
  | call name =>
    obtain ⟨hcall, hdiag, hrest⟩ := padded_readCall (hspot (by simp [hkind])) h t u name
    exact ⟨congrArg Item.call hcall, hnil, hdiag, hrest⟩
  | replicaBegin =>
    obtain ⟨hreplica, hdiag, hrest⟩ := padded_readReplica h t u
    exact ⟨congrArg Item.replica hreplica, hnil, hdiag, hrest⟩
  | choice =>
    refine alike_readChoice ?_ h t u
    exact Spot.next_eq_inLine (hk.choice hkind) (by simp [hkind]) (by simp [hkind])
  | _ => exact ⟨rfl, hnil, rfl, _, h⟩

theorem tellsAlike_padded : TellsAlike (fun _ => Span.origin) IsPadded where
  nil h := by
    obtain ⟨p, h⟩ := h
    exact h.isTrivia_of_nil
  cons h := by
    obtain ⟨p, h⟩ := h
    obtain ⟨front, u, us, q, rfl, hfront, hk, hrest⟩ := h.exists_front
    exact ⟨front, u, us, rfl, hfront, alike_readItem hk hrest⟩

/-! ## Windows -/

theorem beginsWithName_padded (hp : p.spot ≠ .lineStart) (h : Padded p ts us) :
    (∃ name span span' inside inside' q, ts = ⟨.identifier name, span⟩ :: inside ∧
        us = ⟨.identifier name, span'⟩ :: inside' ∧ Padded q inside inside') ∨
      (∀ name span inside, ts = ⟨.identifier name, span⟩ :: inside → False) ∧
        ∀ name span inside, us = ⟨.identifier name, span⟩ :: inside → False := by
  rcases h.aligned hp with ⟨rfl, rfl⟩ | ⟨⟨kind, span⟩, ⟨kind', span'⟩, ts, us, rfl, rfl, hk, hrest⟩
  · exact .inr ⟨nofun, nofun⟩
  · obtain rfl : kind' = kind := hk.kind
    cases kind' with
    | identifier name => exact .inl ⟨name, span, span', ts, us, _, rfl, rfl, hrest⟩
    | _ => exact .inr ⟨nofun, nofun⟩

theorem windowAlike_padded {w v : Token × List Token} (h : PaddedWindow w v) :
    WindowAlike (fun _ => Span.origin) IsPadded w v := by
  obtain ⟨header, ts⟩ := w
  obtain ⟨header', us⟩ := v
  obtain ⟨p, hp, hpad⟩ := h
  rcases beginsWithName_padded hp hpad with
    ⟨name, span, span', inside, inside', q, rfl, rfl, hinside⟩ | ⟨hname, hname'⟩
  · exact .named ⟨q, hinside⟩ rfl
  · exact .nameless hname hname' rfl

/-! ## Stories -/

theorem isContent_of_kind (t u : Token) (h : u.kind = t.kind) : u.isContent = t.isContent := by
  rw [Token.isContent, Token.isContent, Token.isSolid, Token.isSolid, h]

theorem isContent_of_isTrivia {t : Token} (h : t.isTrivia = true) : t.isContent = false := by
  unfold Token.isTrivia at h
  rw [Token.isContent, Token.isSolid, h]
  rfl

/-- A story and what is said about it, without places. -/
def Parsed.unplaced (r : Parsed) : Parsed :=
  ⟨r.story.unplaced, r.diagnostics.map Diagnostic.unplaced⟩

theorem Parsed.unplaced_eq_mapSpans (r : Parsed) :
    r.unplaced = r.mapSpans fun _ => Span.origin := by
  rw [unplaced, r.story.unplaced_eq_mapSpans]
  rfl

/-- From padded tokens the same story is read up to places, and the same is said about it. -/
theorem unplaced_parse (h : Padded p ts us) : (parse us).unplaced = (parse ts).unplaced := by
  have htrivia : ∀ t : Token, t.isTrivia = true → decide (t.kind ≠ .eof) = true := by
    intro t ht
    rw [decide_eq_true_iff]
    intro hk
    simp [Token.isTrivia, hk, Kind.isTrivia] at ht
  obtain ⟨hend, -⟩ := h.span_trivia (f := (·.kind ≠ .eof)) (fun t u hk => by rw [hk]) htrivia
  obtain ⟨hbefore, hrest⟩ := padded_windows hend
  have hcontent := hbefore.any_eq isContent_of_kind fun _ => isContent_of_isTrivia
  rw [Parsed.unplaced_eq_mapSpans, Parsed.unplaced_eq_mapSpans]
  exact parse_alike tellsAlike_padded rfl rfl ⟨_, hbefore⟩ hcontent rfl
    (hrest.imp fun _ _ => windowAlike_padded)

end StoryScript

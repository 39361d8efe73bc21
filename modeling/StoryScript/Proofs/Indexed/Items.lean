import StoryScript.Proofs.Indexed.Segments
import StoryScript.Proofs.Story.Items
/-!
# Items by index

What begins at a token is read by index up to a stop. Each loop goes on as long as it finds a kind it
knows before the stop. On the tokens between the index and the stop each reader gives what the reader
of token lists gives, and the index of the tokens that are left.
-/

namespace StoryScript.Indexed

open Token (Kind)

variable {tokens ts : List Token} {t : Token} {i j stop : Nat}

/-! ## Tags and targets -/

/-- A tag or choice tag at an index, with the value after it. -/
def tagAt (tokens : List Token) (i stop : Nat) : Guarded (Tag × Nat) := do
  let t ← tokenAt tokens i
  let name := t.kind.value.getD ""
  match kindAt tokens (i + 1) stop with
  | some (.tagValue value) =>
    let u ← tokenAt tokens (i + 1)
    return (⟨name, some value, t.span.through u.span⟩, i + 2)
  | _ => return (⟨name, none, t.span⟩, i + 1)

/-- The goto at an index, if a target follows. -/
def gotoAt (tokens : List Token) (i stop : Nat) :
    Guarded (Option Goto × List Diagnostic × Nat) := do
  let t ← tokenAt tokens i
  let missing := (none, [⟨.gotoWithoutTarget, t.span⟩], i + 1)
  match kindAt tokens (i + 1) stop with
  | some (.identifier name) =>
    if Text.isBlankText name then return missing
    else
      let u ← tokenAt tokens (i + 1)
      return (some ⟨Text.trimmed name, [], t.span.through u.span⟩, [], i + 2)
  | _ => return missing

theorem At.tagAt_eq (h : At tokens i stop (t :: ts)) {name : String}
    (hname : t.kind.value = some name) :
    ∃ next, tagAt tokens i stop = pure ((readTag t name ts).1, next) ∧
      At tokens next stop (readTag t name ts).2 := by
  have htail := h.tail
  rw [tagAt, h.tokenAt_eq, pure_bind, hname, htail.kindAt_eq]
  cases ts with
  | nil => exact ⟨i + 1, rfl, htail⟩
  | cons u us =>
    obtain ⟨kind, span⟩ := u
    cases kind with
    | tagValue value =>
      dsimp only [List.head?_cons, Option.map_some]
      rw [htail.tokenAt_eq, pure_bind]
      exact ⟨i + 2, rfl, htail.tail⟩
    | _ => exact ⟨i + 1, rfl, htail⟩

theorem At.gotoAt_eq (h : At tokens i stop (t :: ts)) :
    match readTarget ts with
    | some (target, span, rest) =>
      gotoAt tokens i stop = pure (some ⟨target, [], t.span.through span⟩, [], i + 2) ∧
        At tokens (i + 2) stop rest
    | none => gotoAt tokens i stop = pure (none, [⟨.gotoWithoutTarget, t.span⟩], i + 1) := by
  have htail := h.tail
  rw [gotoAt, h.tokenAt_eq, pure_bind, htail.kindAt_eq]
  cases ts with
  | nil => rfl
  | cons u us =>
    obtain ⟨kind, span⟩ := u
    cases kind with
    | identifier name =>
      dsimp only [List.head?_cons, Option.map_some]
      rw [readTarget]
      by_cases hblank : Text.isBlankText name = true
      · rw [if_pos hblank, if_pos hblank]
      · rw [if_neg hblank, if_neg hblank, htail.tokenAt_eq, pure_bind]
        exact ⟨rfl, htail.tail⟩
    | _ => rfl

/-! ## Calls -/

/-- The arguments from an index on, behind those before it, and the span up to them. -/
def argumentsFrom (tokens : List Token) (stop j : Nat) (args : List String) (span : Span) :
    Guarded (List String × Span × Nat) := do
  match _h : kindAt tokens j stop with
  | some (.argument text) =>
    let t ← tokenAt tokens j
    argumentsFrom tokens stop (j + 1) (args ++ [text]) (span.through t.span)
  | _ => return (args, span, j)
termination_by stop - j
decreasing_by exact sub_lt_of_kindAt _h

/-- The call at an index. -/
def callAt (tokens : List Token) (name : String) (i stop : Nat) :
    Guarded (Call × List Diagnostic × Nat) := do
  let t ← tokenAt tokens i
  let (args, span, j) ← argumentsFrom tokens stop (i + 1) [] t.span
  let bare := args.isEmpty && ((kindAt tokens j stop).map (· == .newline)).getD true
  return (⟨name, args, [], span⟩, if bare then [⟨.callWithoutArguments name, span⟩] else [], j)

/-- A span that is drawn from one token to the next ends at the last of them. -/
theorem through_getLast? (span : Span) (u : Token) (us : List Token) :
    ((u :: us).getLast?.map (span.through ·.span)).getD span =
      (us.getLast?.map ((span.through u.span).through ·.span)).getD (span.through u.span) := by
  rw [List.getLast?_cons]
  cases us.getLast? <;> rfl

theorem At.argumentsFrom_eq (h : At tokens j stop ts) (args : List String) (span : Span) :
    ∃ next, argumentsFrom tokens stop j args span =
        pure (args ++ (ts.takeWhile (·.argument?.isSome)).filterMap Token.argument?,
          ((ts.takeWhile (·.argument?.isSome)).getLast?.map (span.through ·.span)).getD span, next) ∧
      At tokens next stop (ts.dropWhile (·.argument?.isSome)) := by
  induction ts generalizing j args span with
  | nil =>
    rw [argumentsFrom, h.kindAt_eq]
    exact ⟨j, by simp, h⟩
  | cons u us ih =>
    obtain ⟨kind, place⟩ := u
    rw [argumentsFrom, h.kindAt_eq]
    cases kind with
    | argument text =>
      obtain ⟨next, hnext, hat⟩ := ih h.tail (args ++ [text]) (span.through place)
      refine ⟨next, ?_, hat⟩
      dsimp only [List.head?_cons, Option.map_some]
      rw [h.tokenAt_eq, pure_bind, hnext, List.append_assoc,
        List.takeWhile_cons_of_pos (by exact rfl), through_getLast?]
      rfl
    | _ => exact ⟨j, by simp [Token.argument?], h⟩

theorem isEmpty_arguments (ts : List Token) :
    ((ts.takeWhile (·.argument?.isSome)).filterMap Token.argument?).isEmpty =
      (ts.takeWhile (·.argument?.isSome)).isEmpty := by
  have hall : ∀ u ∈ ts.takeWhile (·.argument?.isSome), u.argument?.isSome :=
    List.all_eq_true.1 List.all_takeWhile
  cases htaken : ts.takeWhile (·.argument?.isSome) with
  | nil => rfl
  | cons u us =>
    obtain ⟨text, htext⟩ := Option.isSome_iff_exists.1 (hall u (by simp [htaken]))
    rw [List.filterMap_cons_some htext]
    rfl

theorem At.callAt_eq (h : At tokens i stop (t :: ts)) (name : String) :
    ∃ next, callAt tokens name i stop =
        pure ((readCall t name ts).1, (readCall t name ts).2.1, next) ∧
      At tokens next stop (readCall t name ts).2.2 := by
  obtain ⟨next, hargs, hat⟩ := h.tail.argumentsFrom_eq [] t.span
  refine ⟨next, ?_, hat⟩
  rw [callAt, h.tokenAt_eq, pure_bind, hargs, pure_bind]
  dsimp only
  rw [hat.kindAt_eq, Option.map_map, List.nil_append, isEmpty_arguments]
  rfl

/-! ## Replicas -/

/-- The speeches of a replica from an index on, glued behind `m`. The last one before ended on
`line`. The replica ends with the token before the index that is given back. -/
def speechesFrom (tokens : List Token) (stop j : Nat) (m : TextMap) (last : Span)
    (line : Option Nat) : Guarded (TextMap × Span × Nat) := do
  match _h : kindAt tokens j stop with
  | some (.speech text) =>
    let t ← tokenAt tokens j
    let m := if line.any (· ≠ t.span.start.line) then m.pushSeparator else m
    speechesFrom tokens stop (j + 1) (m.push text.toList t.span.start) t.span
      (some t.span.stop.line)
  | some .replicaEnd =>
    let t ← tokenAt tokens j
    return (m, t.span, j + 1)
  | some kind =>
    if kind.isTrivia then speechesFrom tokens stop (j + 1) m last line else return (m, last, j)
  | none => return (m, last, j)
termination_by stop - j
decreasing_by all_goals exact sub_lt_of_kindAt _h

/-- The replica at an index. -/
def replicaAt (tokens : List Token) (i stop : Nat) :
    Guarded (Replica × List Diagnostic × Nat) := do
  let t ← tokenAt tokens i
  let (m, last, j) ← speechesFrom tokens stop (i + 1) { origin := t.span.stop } t.span none
  let (segments, said) ← segmentText m
  return (⟨plainText segments, segments, [], t.span.through last⟩, said, j)

/-- The line feed between two speeches that do not meet on one line. -/
def between (t u : Token) : List Run :=
  if t.span.stop.line = u.span.start.line then [] else
    t.speech?.toList.map fun r => ⟨['\n'], r.stop⟩

/-- The runs of speeches behind another one. -/
def gluedBehind (before : Option Token) : List Token → List Run
  | [] => []
  | u :: us => before.toList.flatMap (between · u) ++ glueSpeeches (u :: us)

theorem gluedBehind_none (ts : List Token) : gluedBehind none ts = glueSpeeches ts := by
  cases ts <;> rfl

theorem gluedBehind_cons {u : Token} {r : Run} (hr : u.speech? = some r) (before : Option Token)
    (us : List Token) : gluedBehind before (u :: us) =
      before.toList.flatMap (between · u) ++ [r] ++ gluedBehind (some u) us := by
  rw [gluedBehind, List.append_assoc]
  congr 1
  cases us with
  | nil => rw [glueSpeeches, hr]; rfl
  | cons v vs => rw [glueSpeeches, hr]; simp [gluedBehind, between, hr]

/-- The speeches that a replica is made of. -/
def speechesIn (ts : List Token) : List Token :=
  (ts.takeWhile fun u => u.speech?.isSome || u.isTrivia).filter (·.speech?.isSome)

/-- The end of a replica, if it is next, or else the last speech, and the tokens behind it. -/
def closeReplica (last : Span) : List Token → Span × List Token
  | ⟨.replicaEnd, span⟩ :: rest => (span, rest)
  | rest => (last, rest)

theorem closeReplica_of_ne {ts : List Token} (h : ∀ span rest, ts ≠ ⟨.replicaEnd, span⟩ :: rest)
    (last : Span) : closeReplica last ts = (last, ts) := by
  rw [closeReplica]
  exact h

/-- What is left of a replica whose last speech so far stood at `last`. -/
def replicaClose (last : Span) (ts : List Token) : Span × List Token :=
  closeReplica (((speechesIn ts).getLast?.map Token.span).getD last)
    (ts.dropWhile fun u => u.speech?.isSome || u.isTrivia)

theorem speechesIn_speech {u : Token} (h : u.speech?.isSome) (us : List Token) :
    speechesIn (u :: us) = u :: speechesIn us := by
  simp [speechesIn, h]

theorem speechesIn_trivia {u : Token} (h : u.speech? = none) (ht : u.isTrivia) (us : List Token) :
    speechesIn (u :: us) = speechesIn us := by
  simp [speechesIn, h, ht]

theorem speechesIn_other {u : Token} (h : u.speech? = none) (ht : u.isTrivia = false)
    (us : List Token) : speechesIn (u :: us) = [] := by
  simp [speechesIn, h, ht]

theorem replicaClose_speech {u : Token} (h : u.speech?.isSome) (last : Span) (us : List Token) :
    replicaClose last (u :: us) = replicaClose u.span us := by
  rw [replicaClose, replicaClose, speechesIn_speech h, List.dropWhile_cons_of_pos (by simp [h]),
    List.getLast?_cons]
  cases (speechesIn us).getLast? <;> rfl

theorem replicaClose_trivia {u : Token} (h : u.speech? = none) (ht : u.isTrivia) (last : Span)
    (us : List Token) : replicaClose last (u :: us) = replicaClose last us := by
  rw [replicaClose, replicaClose, speechesIn_trivia h ht, List.dropWhile_cons_of_pos (by simp [ht])]

theorem replicaClose_other {u : Token} (h : u.speech? = none) (ht : u.isTrivia = false)
    (last : Span) (us : List Token) :
    replicaClose last (u :: us) = closeReplica last (u :: us) := by
  rw [replicaClose, speechesIn_other h ht, List.dropWhile_cons_of_neg (by simp [h, ht])]
  rfl

/-- The last run is that of the speech before, if there was one. -/
def EndsIn (runs : List Run) (before : Option Token) : Prop :=
  ∀ t ∈ before, ∃ r, t.speech? = some r ∧ runs.getLast? = some r

theorem endsIn_concat {u : Token} {r : Run} (hr : u.speech? = some r) (runs : List Run) :
    EndsIn (runs ++ [r]) (some u) := by
  rintro _ ⟨⟩
  exact ⟨r, hr, List.getLast?_concat⟩

/-- A speech is glued on, behind a line feed if the last one ended on another line. -/
theorem Maps.pushSpeech {m : TextMap} {runs : List Run} (hm : Maps m runs) {before : Option Token}
    (hb : EndsIn runs before) (u : Token) (r : Run) :
    Maps ((if (before.map (·.span.stop.line)).any (· ≠ u.span.start.line) then m.pushSeparator
      else m).push r.text r.start) (runs ++ before.toList.flatMap (between · u) ++ [r]) := by
  cases before with
  | none =>
    rw [Option.toList_none, List.flatMap_nil, List.append_nil]
    exact hm.push r.text r.start
  | some t =>
    obtain ⟨r', hr', hlast⟩ := hb t rfl
    have hne : runs ≠ [] := List.getLast?_isSome.1 (by rw [hlast]; rfl)
    rw [Option.toList_some, List.flatMap_singleton, between, hr']
    by_cases hline : t.span.stop.line = u.span.start.line
    · rw [if_pos hline, if_neg (by simp [hline]), List.append_nil]
      exact hm.push r.text r.start
    · have hpush := (hm.pushSeparator hne).push r.text r.start
      rw [Run.gluedStop, hlast] at hpush
      rw [if_neg hline, if_pos (by simp [hline])]
      exact hpush

theorem At.speechesFrom_eq (h : At tokens j stop ts) {m : TextMap} {runs : List Run}
    (hm : Maps m runs) {before : Option Token} (hb : EndsIn runs before) (last : Span) :
    ∃ m' next, speechesFrom tokens stop j m last (before.map (·.span.stop.line)) =
        pure (m', (replicaClose last ts).1, next) ∧
      Maps m' (runs ++ gluedBehind before (speechesIn ts)) ∧
      At tokens next stop (replicaClose last ts).2 := by
  induction ts generalizing j m runs before last with
  | nil =>
    rw [speechesFrom, h.kindAt_eq]
    exact ⟨m, j, rfl, by simpa [speechesIn, gluedBehind] using hm, h⟩
  | cons u us ih =>
    obtain ⟨kind, span⟩ := u
    have hother : Token.speech? ⟨kind, span⟩ = none → kind.isTrivia = false →
        Maps m (runs ++ gluedBehind before (speechesIn (⟨kind, span⟩ :: us))) := by
      intro hs ht
      rw [speechesIn_other hs ht, gluedBehind, List.append_nil]
      exact hm
    rw [speechesFrom, h.kindAt_eq]
    dsimp only [List.head?_cons, Option.map_some]
    split
    · next text hkind =>
      obtain rfl : kind = .speech text := Option.some.inj hkind
      have hr : Token.speech? ⟨.speech text, span⟩ = some ⟨text.toList, span.start⟩ := rfl
      have hpush := hm.pushSpeech hb ⟨.speech text, span⟩ ⟨text.toList, span.start⟩
      obtain ⟨m', next, hrun, hmaps, hat⟩ := ih h.tail hpush (endsIn_concat hr _) span
      rw [h.tokenAt_eq, pure_bind, speechesIn_speech rfl, replicaClose_speech rfl,
        gluedBehind_cons hr, ← List.append_assoc, ← List.append_assoc]
      exact ⟨m', next, hrun, hmaps, hat⟩
    · next hkind =>
      obtain rfl : kind = .replicaEnd := Option.some.inj hkind
      rw [h.tokenAt_eq, pure_bind, replicaClose_other rfl rfl]
      exact ⟨m, j + 1, rfl, hother rfl rfl, h.tail⟩
    · next found hspeech hend hkind =>
      obtain rfl : kind = found := Option.some.inj hkind
      have hs : Token.speech? ⟨kind, span⟩ = none := by
        rw [Token.speech?]
        split
        · next text hk => exact (hspeech text hk).elim
        · rfl
      split
      · next ht =>
        rw [speechesIn_trivia hs ht, replicaClose_trivia hs ht]
        exact ih h.tail hm hb last
      · next ht =>
        -- what is no part of a replica ends it and is left
        rw [Bool.not_eq_true] at ht
        rw [replicaClose_other hs ht, closeReplica_of_ne (by rintro _ _ ⟨⟩; exact hend rfl)]
        exact ⟨m, j, rfl, hother hs ht, h⟩
    · next hkind => cases hkind

theorem readReplica_eq (t : Token) (ts : List Token) :
    readReplica t ts =
      (⟨plainText (segmentsOf (glueSpeeches (speechesIn ts))).1,
          (segmentsOf (glueSpeeches (speechesIn ts))).1, [],
          t.span.through (replicaClose t.span ts).1⟩,
        (segmentsOf (glueSpeeches (speechesIn ts))).2, (replicaClose t.span ts).2) := by
  have hspan : t.spanTo (speechesIn ts) =
      t.span.through (((speechesIn ts).getLast?.map Token.span).getD t.span) := by
    rw [Token.spanTo]
    cases (speechesIn ts).getLast? <;> rfl
  unfold readReplica
  dsimp only
  split
  · next span rest hrest =>
    rw [replicaClose, hrest]
    rfl
  · next hrest =>
    rw [replicaClose, closeReplica_of_ne hrest, ← hspan]
    rfl

theorem At.replicaAt_eq (h : At tokens i stop (t :: ts)) :
    ∃ next, replicaAt tokens i stop = pure ((readReplica t ts).1, (readReplica t ts).2.1, next) ∧
      At tokens next stop (readReplica t ts).2.2 := by
  obtain ⟨m, next, hrun, hmaps, hat⟩ := h.tail.speechesFrom_eq (maps_nil t.span.stop)
    (show EndsIn [] none from nofun) t.span
  rw [List.nil_append, gluedBehind_none] at hmaps
  rw [readReplica_eq]
  refine ⟨next, ?_, hat⟩
  rw [Option.map_none] at hrun
  rw [replicaAt, h.tokenAt_eq, pure_bind, hrun, pure_bind]
  dsimp only
  rw [hmaps.segmentText_eq, pure_bind]

end StoryScript.Indexed

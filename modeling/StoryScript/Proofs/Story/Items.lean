import StoryScript.Story.Parser
/-!
# Where items begin

An item takes the tokens behind the one it begins at, and none of these begins an item of its own,
except in the body of a choice. `collect_readItem` says this for anything that is found at the first
tokens of items: what a list of tokens holds is what its first item holds, then what the body of that
item holds, then what the tokens behind it hold. `collect_heard` says it for a whole list of tokens,
cut at the headers.
-/

namespace StoryScript

open Token (Kind)

/-! ## Opening and cutting tokens -/

/-- The kinds that begin a tag or a statement. -/
def Token.Kind.isOpening : Kind → Bool
  | .tag _ | .choiceTag _ | .goto _ | .call _ | .replicaBegin | .choice => true
  | _ => false

/-- The kinds at which tokens are cut into bodies and windows. -/
def Token.Kind.cuts : Kind → Bool
  | .dedent | .header | .eof => true
  | _ => false

/-- Tokens that begin where tokens are cut. No token before them is read together with them. -/
def Detached (ts : List Token) : Prop := ∀ t ∈ ts.head?, t.kind.cuts

theorem detached_nil : Detached [] := nofun

theorem detached_cons {t : Token} (h : t.kind.cuts) (ts : List Token) :
    Detached (t :: ts) := by
  intro u hu
  obtain rfl : t = u := by simpa using hu
  exact h

/-! ## Collecting -/

variable {α : Type}

/-- What is found at the tokens of a list, each seen with the tokens behind it. -/
def collect (f : Token → List Token → List α) : List Token → List α
  | [] => []
  | t :: ts => f t ts ++ collect f ts

/-- Something is found at opening tokens only, and it depends on no token behind a place where tokens
are cut. -/
structure FoundAtOpening (f : Token → List Token → List α) : Prop where
  nil_of_not_opening : ∀ t ts, t.kind.isOpening = false → f t ts = []
  append_detached : ∀ t ts rest, Detached rest → f t (ts ++ rest) = f t ts

variable {f : Token → List Token → List α}

theorem collect_append (hf : FoundAtOpening f) (ts : List Token) {rest : List Token}
    (hr : Detached rest) : collect f (ts ++ rest) = collect f ts ++ collect f rest := by
  induction ts with
  | nil => rfl
  | cons t ts ih =>
    rw [List.cons_append, collect, collect, ih, hf.append_detached t ts rest hr, List.append_assoc]

/-- Tokens that open nothing hold nothing. -/
theorem collect_not_opening (hf : FoundAtOpening f) {taken : List Token}
    (h : ∀ t ∈ taken, t.kind.isOpening = false) (rest : List Token) :
    collect f (taken ++ rest) = collect f rest := by
  induction taken with
  | nil => rfl
  | cons t ts ih =>
    rw [List.cons_append, collect, hf.nil_of_not_opening t _ (h t (by simp)), List.nil_append]
    exact ih fun u hu => h u (by simp [hu])

/-! ## What an item takes -/

/-- The tokens of the body of a choice. -/
def Item.inside : Item → List Token
  | .choice _ (some inside) => inside
  | _ => []

/-- The tokens behind the first one of an item: some that open nothing, the body if there is one, the
dedent behind it if there is one, and the rest. -/
def Takes (ts inside rest : List Token) : Prop :=
  ∃ taken closing, ts = taken ++ inside ++ closing ++ rest ∧
    (∀ t ∈ taken, t.kind.isOpening = false) ∧
    ((closing = [] ∧ (inside = [] ∨ rest = [])) ∨ ∃ span, closing = [⟨.dedent, span⟩])

/-- An item without a body takes tokens that open nothing. -/
theorem takes_of_append {taken rest ts : List Token} (h : taken ++ rest = ts)
    (ht : ∀ t ∈ taken, t.kind.isOpening = false) : Takes ts [] rest :=
  ⟨taken, [], by simp [h], ht, .inl ⟨rfl, .inl rfl⟩⟩

theorem takes_nothing (ts : List Token) : Takes ts [] ts :=
  takes_of_append (List.nil_append ts) nofun

theorem takes_one {t : Token} (h : t.kind.isOpening = false) (rest : List Token) :
    Takes (t :: rest) [] rest := by
  refine takes_of_append (List.singleton_append : [t] ++ rest = t :: rest) ?_
  intro u hu
  rw [List.mem_singleton.1 hu]
  exact h

theorem collect_of_takes (hf : FoundAtOpening f) {ts inside rest : List Token}
    (h : Takes ts inside rest) : collect f ts = collect f inside ++ collect f rest := by
  obtain ⟨taken, closing, rfl, ht, ⟨rfl, rfl | rfl⟩ | ⟨span, rfl⟩⟩ := h
  · simpa [collect] using collect_not_opening hf ht rest
  · simpa [collect] using collect_not_opening hf ht inside
  · have hd : Detached (⟨.dedent, span⟩ :: rest) := detached_cons rfl rest
    rw [List.append_assoc, List.append_assoc, collect_not_opening hf ht,
      List.singleton_append, collect_append hf inside hd]
    rw [collect.eq_2, hf.nil_of_not_opening _ _ rfl, List.nil_append]

theorem takes_readTag (t : Token) (name : String) (ts : List Token) :
    Takes ts [] (readTag t name ts).2 := by
  unfold readTag
  split
  · exact takes_one rfl _
  · exact takes_nothing _

theorem takes_readTarget {ts rest : List Token} {target : String} {span : Span}
    (h : readTarget ts = some (target, span, rest)) : Takes ts [] rest := by
  unfold readTarget at h
  split at h
  · split at h
    · cases h
    · obtain ⟨-, -, rfl⟩ := by simpa using h
      exact takes_one rfl _
  · cases h

theorem not_opening_of_argument {t : Token} (h : t.argument?.isSome) : t.kind.isOpening = false := by
  unfold Token.argument? at h
  split at h
  · next hk => rw [hk]; rfl
  · cases h

theorem takes_readCall (t : Token) (name : String) (ts : List Token) :
    Takes ts [] (readCall t name ts).2.2 := by
  refine takes_of_append List.takeWhile_append_dropWhile ?_
  intro u hu
  exact not_opening_of_argument (List.all_eq_true.1 List.all_takeWhile u hu)

theorem not_opening_of_trivia {t : Token} (h : t.isTrivia) : t.kind.isOpening = false := by
  unfold Token.isTrivia at h
  cases hk : t.kind <;> simp_all [Kind.isTrivia, Kind.isOpening]

theorem not_opening_of_speech_or_trivia {t : Token} (h : (t.speech?.isSome || t.isTrivia) = true) :
    t.kind.isOpening = false := by
  rcases Bool.or_eq_true _ _ ▸ h with h | h
  · unfold Token.speech? at h
    split at h
    · next hk => rw [hk]; rfl
    · cases h
  · exact not_opening_of_trivia h

theorem takes_readReplica (t : Token) (ts : List Token) :
    Takes ts [] (readReplica t ts).2.2 := by
  have hsplit := List.takeWhile_append_dropWhile (l := ts)
    (p := fun u : Token => u.speech?.isSome || u.isTrivia)
  have hall : ∀ u ∈ ts.takeWhile fun u => u.speech?.isSome || u.isTrivia,
      u.kind.isOpening = false := fun u hu =>
    not_opening_of_speech_or_trivia (List.all_eq_true.1 List.all_takeWhile u hu)
  unfold readReplica
  dsimp only
  split
  · next span rest hr =>
    rw [hr, List.append_cons] at hsplit
    refine takes_of_append hsplit ?_
    intro u hu
    rcases List.mem_append.1 hu with hu | hu
    · exact hall u hu
    · rw [List.mem_singleton.1 hu]
      rfl
  · exact takes_of_append hsplit hall

/-! ## The text of a choice -/

/-- The tokens of a choice's text open nothing. -/
structure ChoiceText.Reads (text : ChoiceText) (ts : List Token) : Prop where
  append : ts = text.taken ++ text.rest
  not_opening : ∀ t ∈ text.taken, t.kind.isOpening = false

theorem readSilentBound_append (ts : List Token) :
    (readSilentBound ts).1 ++ (readSilentBound ts).2 = ts := by
  unfold readSilentBound
  split <;> rfl

theorem not_opening_readSilentBound {ts : List Token} {t : Token}
    (h : t ∈ (readSilentBound ts).1) : t.kind.isOpening = false := by
  unfold readSilentBound at h
  split at h
  · rw [List.mem_singleton.1 h]
    rfl
  · cases h

theorem reads_readInlineText {bound : Token} (hb : bound.kind.isOpening = false) (ts : List Token) :
    (readInlineText bound ts).Reads (bound :: ts) := by
  unfold readInlineText
  split
  · next text span rest =>
    refine ⟨by simp [readSilentBound_append], ?_⟩
    intro t ht
    simp only [List.mem_cons] at ht
    rcases ht with rfl | rfl | ht
    · exact hb
    · rfl
    · exact not_opening_readSilentBound ht
  · refine ⟨by simp [readSilentBound_append], ?_⟩
    intro t ht
    rcases List.mem_cons.1 ht with rfl | ht
    · exact hb
    · exact not_opening_readSilentBound ht

theorem not_opening_of_blockRun {t : Token} (h : t.blockRun?.isSome) : t.kind.isOpening = false := by
  unfold Token.blockRun? at h
  split at h
  · next hk => rw [hk]; rfl
  · split at h
    · next ht => exact not_opening_of_trivia ht
    · cases h

theorem reads_readBlockText {bound : Token} (hb : bound.kind.isOpening = false) (ts : List Token) :
    (readBlockText bound ts).Reads (bound :: ts) := by
  have hsplit := List.takeWhile_append_dropWhile (l := ts) (p := fun u : Token => u.blockRun?.isSome)
  have hall : ∀ u ∈ bound :: ts.takeWhile (·.blockRun?.isSome), u.kind.isOpening = false := by
    intro u hu
    rcases List.mem_cons.1 hu with rfl | hu
    · exact hb
    · exact not_opening_of_blockRun (List.all_eq_true.1 List.all_takeWhile u hu)
  unfold readBlockText
  dsimp only
  split
  · next span rest hr =>
    rw [hr] at hsplit
    refine ⟨by simp [hsplit], ?_⟩
    intro u hu
    rcases List.mem_append.1 hu with hu | hu
    · exact hall u hu
    · rw [List.mem_singleton.1 hu]
      rfl
  · exact ⟨by simp [hsplit], hall⟩

theorem reads_readChoiceText (ts : List Token) : (readChoiceText ts).Reads ts := by
  unfold readChoiceText
  split
  · exact reads_readInlineText rfl _
  · exact reads_readBlockText rfl _
  · exact ⟨rfl, nofun⟩

/-! ## The body of a choice -/

/-- A body ends at its dedent or at the end of the tokens. -/
theorem readBody_append (depth : Nat) (ts : List Token) :
    (ts = (readBody depth ts).1 ∧ (readBody depth ts).2 = []) ∨
      ∃ span, ts = (readBody depth ts).1 ++ ⟨.dedent, span⟩ :: (readBody depth ts).2 := by
  induction ts generalizing depth with
  | nil => exact .inl ⟨rfl, rfl⟩
  | cons t ts ih =>
    -- a token that is kept moves both alternatives one token on
    have keep : ∀ d, (t :: ts = t :: (readBody d ts).1 ∧ (readBody d ts).2 = []) ∨
        ∃ span, t :: ts = t :: (readBody d ts).1 ++ ⟨.dedent, span⟩ :: (readBody d ts).2 := by
      intro d
      rcases ih d with ⟨h1, h2⟩ | ⟨span, h⟩
      · exact .inl ⟨by rw [← h1], h2⟩
      · exact .inr ⟨span, by rw [List.cons_append, ← h]⟩
    rw [readBody]
    split
    · exact keep (depth + 1)
    · next hk =>
      split
      · exact .inr ⟨t.span, by rw [← hk]; rfl⟩
      · exact keep (depth - 1)
    · exact keep depth

theorem takes_readIndented {ts inside rest : List Token}
    (h : readIndented ts = some (inside, rest)) : Takes ts inside rest := by
  have hsplit := List.takeWhile_append_dropWhile (l := ts) (p := fun u : Token => u.isTrivia)
  have hall : ∀ u ∈ ts.takeWhile (·.isTrivia), u.kind.isOpening = false := fun u hu =>
    not_opening_of_trivia (List.all_eq_true.1 List.all_takeWhile u hu)
  unfold readIndented at h
  split at h
  · next span r hr =>
    rw [hr] at hsplit
    obtain ⟨rfl, rfl⟩ := Prod.mk.inj (Option.some.inj h)
    have hopen : ∀ u ∈ ts.takeWhile (·.isTrivia) ++ [⟨.indent, span⟩], u.kind.isOpening = false := by
      intro u hu
      rcases List.mem_append.1 hu with hu | hu
      · exact hall u hu
      · rw [List.mem_singleton.1 hu]
        rfl
    rcases readBody_append 1 r with ⟨h1, h2⟩ | ⟨span', h1⟩
    · refine ⟨_, [], ?_, hopen, .inl ⟨rfl, .inr h2⟩⟩
      rw [h2, ← h1, List.append_nil, List.append_nil, ← List.append_cons]
      exact hsplit.symm
    · refine ⟨_, [⟨.dedent, span'⟩], ?_, hopen, .inr ⟨span', rfl⟩⟩
      rw [List.append_assoc, List.append_assoc, List.singleton_append, ← h1, ← List.append_cons]
      exact hsplit.symm
  · cases h

/-- Tokens that open nothing may come first. -/
theorem Takes.append_left {ts inside rest taken : List Token} (h : Takes ts inside rest)
    (ht : ∀ t ∈ taken, t.kind.isOpening = false) : Takes (taken ++ ts) inside rest := by
  obtain ⟨more, closing, rfl, hm, hc⟩ := h
  refine ⟨taken ++ more, closing, by simp, ?_, hc⟩
  intro t h
  rcases List.mem_append.1 h with h | h
  · exact ht t h
  · exact hm t h

theorem takes_readChoice (t : Token) (ts : List Token) :
    Takes ts (readChoice t ts).item.inside (readChoice t ts).rest := by
  obtain ⟨happ, hopen⟩ := reads_readChoiceText ts
  unfold readChoice
  dsimp only
  cases hb : readIndented (readChoiceText ts).rest with
  | none => exact takes_of_append happ.symm hopen
  | some body =>
    obtain ⟨inside, rest⟩ := body
    have h := (takes_readIndented hb).append_left hopen
    rwa [← happ] at h

/-- What every item takes. -/
theorem takes_readItem (t : Token) (ts : List Token) :
    Takes ts (readItem t ts).item.inside (readItem t ts).rest := by
  unfold readItem
  split
  · exact takes_readTag ..
  · exact takes_readTag ..
  · split
    · next h => exact takes_readTarget h
    · exact takes_nothing ts
  · next name _ => exact takes_readCall t name ts
  · exact takes_readReplica t ts
  · exact takes_readChoice t ts
  · exact takes_nothing ts

/-- The body and the rest of an item stand behind its first token. -/
theorem sublist_readItem (t : Token) (ts : List Token) :
    (readItem t ts).item.inside.Sublist ts ∧ (readItem t ts).rest.Sublist ts := by
  obtain ⟨taken, closing, hts, -, -⟩ := takes_readItem t ts
  generalize (readItem t ts).item.inside = inside at hts ⊢
  generalize (readItem t ts).rest = rest at hts ⊢
  subst hts
  refine ⟨?_, List.sublist_append_right _ _⟩
  rw [List.append_assoc, List.append_assoc]
  exact (List.sublist_append_left _ _).trans (List.sublist_append_right _ _)

/-- What tokens hold is what their first item holds, then its body, then the tokens behind it. -/
theorem collect_readItem (hf : FoundAtOpening f) (t : Token) (ts : List Token) :
    collect f (t :: ts) =
      f t ts ++ collect f (readItem t ts).item.inside ++ collect f (readItem t ts).rest := by
  rw [collect, collect_of_takes hf (takes_readItem t ts), List.append_assoc]

/-! ## Windows -/

/-- Whether a name stands right behind a header. -/
def beginsWithName : List Token → Bool
  | ⟨.identifier _, _⟩ :: _ => true
  | _ => false

/-- The tokens that are read, each with the tokens behind it: those before the end of the source, but
not those from a header without a name on up to the next header. -/
def heard (muted : Bool) : List Token → List (Token × List Token)
  | [] => []
  | t :: ts =>
    if t.kind = .eof then []
    else
      let muted := if t.kind = .header then !beginsWithName ts else muted
      (if muted then [] else [(t, ts)]) ++ heard muted ts

/-- The tokens before the end of the source. -/
def beforeEnd (tokens : List Token) : List Token := tokens.takeWhile (·.kind ≠ .eof)

/-- The part of a window before the first header ends where nothing is read on. -/
theorem windows_append (tokens : List Token) :
    ∃ rest, tokens = (windows (beforeEnd tokens)).1 ++ rest ∧ Detached rest := by
  induction tokens with
  | nil => exact ⟨[], rfl, detached_nil⟩
  | cons t ts ih =>
    by_cases he : t.kind = .eof
    · refine ⟨t :: ts, ?_, detached_cons (by rw [he]; rfl) ts⟩
      simp [beforeEnd, he, windows]
    · by_cases hh : t.kind = .header
      · refine ⟨t :: ts, ?_, detached_cons (by rw [hh]; rfl) ts⟩
        simp [beforeEnd, windows, hh]
      · obtain ⟨rest, hr, hd⟩ := ih
        refine ⟨rest, ?_, hd⟩
        have hb : beforeEnd (t :: ts) = t :: beforeEnd ts := by simp [beforeEnd, he]
        rw [hb, windows, if_neg hh, List.cons_append, ← hr]

theorem beginsWithName_windows (tokens : List Token) :
    beginsWithName (windows (beforeEnd tokens)).1 = beginsWithName tokens := by
  obtain ⟨rest, hr, hd⟩ := windows_append tokens
  conv => rhs; rw [hr]
  cases (windows (beforeEnd tokens)).1 with
  | cons t ts => cases t with | mk kind span => cases kind <;> rfl
  | nil =>
    cases rest with
    | nil => rfl
    | cons t ts =>
      cases t with
      | mk kind span =>
        have hk : kind.cuts := hd _ rfl
        cases kind <;> first | rfl | cases hk

/-- What the tokens that are read hold, window by window. -/
theorem collect_heard (hf : FoundAtOpening f) (muted : Bool) (tokens : List Token) :
    (heard muted tokens).flatMap (fun o => f o.1 o.2) =
      (if muted then [] else collect f (windows (beforeEnd tokens)).1) ++
        (windows (beforeEnd tokens)).2.flatMap
          fun w => if beginsWithName w.2 then collect f w.2 else [] := by
  induction tokens generalizing muted with
  | nil => cases muted <;> rfl
  | cons t ts ih =>
    by_cases he : t.kind = .eof
    · cases muted <;> simp [heard, beforeEnd, windows, collect, he]
    · have hb : beforeEnd (t :: ts) = t :: beforeEnd ts := by simp [beforeEnd, he]
      rw [hb, heard, if_neg he, windows, List.flatMap_append, ih]
      by_cases hh : t.kind = .header
      · have hnil : f t ts = [] := hf.nil_of_not_opening t ts (by rw [hh]; rfl)
        simp only [hh, if_true, List.flatMap_cons, collect, beginsWithName_windows]
        cases beginsWithName ts <;> simp [hnil]
      · obtain ⟨rest, hr, hd⟩ := windows_append ts
        have hloc : f t ts = f t (windows (beforeEnd ts)).1 := by
          conv => lhs; rw [hr]
          exact hf.append_detached t _ rest hd
        simp only [hh, if_false, collect]
        cases muted <;> simp [hloc]

end StoryScript

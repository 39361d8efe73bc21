import StoryScript.Proofs.Indexed.Segments
import StoryScript.Proofs.Text.Arguments
import StoryScript.Proofs.Token.Copies
import StoryScript.Proofs.Token.Coverage
/-!
# Where the lexer and the parser see inline calls

The lexer takes the mark of an inline call for text when a backslash stands before it. The parser does
when an odd number of backslashes does. Both look at the same backslashes, since no text is read
behind one and none ends with one in front of more text. So the two differ where an even number of
them stands before the mark, other than none, and only there (`inlineCalls_agree_iff`).
-/

namespace StoryScript

open Token (Kind)
open Indexed (trailingBackslashes trailingBackslashes_concat)
open String (utf8Len utf8Len_append)

/-! ## Backslashes -/

/-- Backslashes are counted up to what is no backslash. -/
theorem trailingBackslashes_append {front : List Char} (h : front.getLast? ≠ some '\\')
    (text : List Char) : trailingBackslashes (front ++ text) = trailingBackslashes text := by
  induction text using List.reverseRecOn with
  | nil =>
    rw [List.append_nil]
    rcases front.eq_nil_or_concat with rfl | ⟨init, c, rfl⟩
    · rfl
    · rw [List.concat_eq_append, trailingBackslashes_concat, if_neg]
      · rfl
      · rintro rfl
        simp at h
  | append_singleton text c ih =>
    rw [← List.append_assoc, trailingBackslashes_concat, trailingBackslashes_concat, ih]

theorem escaped_past {b : Lookbehind} (h : b.escaped = false) (text : List Char) :
    (b.past text).escaped = true ↔ 0 < trailingBackslashes text := by
  rcases text.eq_nil_or_concat with rfl | ⟨init, c, rfl⟩
  · simp [h, trailingBackslashes]
  · rw [List.concat_eq_append, trailingBackslashes_concat, Lookbehind.past_append]
    change (c == '\\') = true ↔ _
    split <;> simp_all

/-- The text before a place ends with a backslash where the place is behind one. -/
theorem getLast?_of_escaped {text : List Char} (hne : text ≠ []) (b : Lookbehind) :
    (b.past text).escaped = true ↔ text.getLast? = some '\\' :=
  Text.escaped_foldl (fun _ _ => rfl) hne b

/-- The lexer takes a mark for a call where no backslash stands before it. -/
theorem atInlineCall_past {b : Lookbehind} (h : b.escaped = false) (text rest : List Char) :
    (b.past text).atInlineCall (inlineCallMark ++ rest) = true ↔ trailingBackslashes text = 0 := by
  have hmark : inlineCallMark.isPrefixOf (inlineCallMark ++ rest) = true :=
    List.isPrefixOf_iff_prefix.2 (List.prefix_append _ _)
  have hescaped := escaped_past h text
  rw [Lookbehind.atInlineCall, hmark, Bool.and_true, Bool.not_eq_true']
  constructor
  · intro hb
    rw [hb] at hescaped
    simpa using hescaped
  · intro hzero
    rw [hzero] at hescaped
    simpa using hescaped

/-- The parser takes a mark for a call where the backslashes before it are even in number. -/
theorem findStart_eq_self (past rest : List Char) :
    Indexed.findStart (past ++ (inlineCallMark ++ rest)) (utf8Len past) =
        pure (some (utf8Len past)) ↔ trailingBackslashes past % 2 = 0 := by
  rw [Indexed.findStart_eq]
  change pure ((findInlineStart _ ('{' :: ("call:".toList ++ rest))).map _) = _ ↔ _
  rw [findInlineStart]
  have hmark : inlineCallMark.isPrefixOf ('{' :: ("call:".toList ++ rest)) = true :=
    List.isPrefixOf_iff_prefix.2 (List.prefix_append inlineCallMark rest)
  by_cases heven : trailingBackslashes past % 2 = 0
  · rw [if_pos ⟨hmark, heven⟩]
    simp [heven]
  · rw [if_neg fun h => heven h.2]
    refine iff_of_false (fun h => ?_) heven
    -- what is found stands further on
    have hfound := Except.ok.inj h
    rw [Option.map_map, Option.map_eq_some_iff] at hfound
    obtain ⟨r, -, hr⟩ := hfound
    have hpos : 0 < utf8Len ('{' :: r.1) := Indexed.utf8Len_pos (List.cons_ne_nil _ _)
    simp only [Function.comp_def, utf8Len_append] at hr
    omega

/-! ## Texts in front of what is said -/

namespace Share

/-- What stands in front of something said does not end with a backslash. -/
def Precedes (sh next : Share) : Prop :=
  next.isSaid → sh.text ≠ [] ∧ sh.text.getLast? ≠ some '\\'

/-- Nor does all of the text up to there. -/
theorem getLast?_texts {earlier later : List Share} {share : Share}
    (h : (earlier ++ share :: later).IsChain Precedes) (hs : share.isSaid) :
    (texts earlier).getLast? ≠ some '\\' := by
  rcases earlier.eq_nil_or_concat with rfl | ⟨init, last, rfl⟩
  · exact nofun
  · rw [List.concat_eq_append, List.append_assoc] at h
    obtain ⟨hne, hlast⟩ := (List.isChain_cons.1 (List.isChain_append.1 h).2.1).1 share rfl hs
    rw [texts, List.concat_eq_append, List.map_append, Run.glued, List.flatMap_append,
      List.map_singleton, List.flatMap_singleton, List.getLast?_append_of_ne_nil _ hne]
    exact hlast

end Share

/-- A line end in front of a text within a line is all there. -/
theorem newline_mem_of_atLineEnd {gap text rest : List Char} (hgap : gap ≠ []) (hne : text ≠ [])
    (hl : InLine text) (h : atLineEnd (gap ++ (text ++ rest)) = true) : '\n' ∈ gap := by
  obtain ⟨c, gap, rfl⟩ := List.exists_cons_of_ne_nil hgap
  obtain ⟨d, text, rfl⟩ := List.exists_cons_of_ne_nil hne
  rcases newline_of_atNewline h with ⟨ds, hds⟩ | ⟨ds, hds⟩
  · obtain ⟨rfl, -⟩ := List.cons.inj hds
    exact List.mem_cons_self
  · obtain ⟨-, hds⟩ := List.cons.inj hds
    cases gap with
    | nil =>
      obtain ⟨rfl, -⟩ := List.cons.inj hds
      exact absurd List.mem_cons_self hl
    | cons e gap =>
      obtain ⟨rfl, -⟩ := List.cons.inj hds
      exact List.mem_cons_of_mem _ List.mem_cons_self

namespace Token

variable {source : String} {t u : Token} {r : Run}

/-- What is read of a token is not empty, nor does it end with a backslash when something said stands
right behind it. -/
theorem getLast?_of_adjoining (ht : t ∈ tokenize source) (hu : u ∈ tokenize source)
    (hs : u.kind.isSaid) (hr : t.speech? = some r ∨ t.blockRun? = some r)
    (hlt : t.span.start.offset < t.span.stop.offset) (hstop : u.span.start = t.span.stop) :
    r.text ≠ [] ∧ r.text.getLast? ≠ some '\\' := by
  obtain ⟨before, text, after, hsource, hspan, hlex⟩ := lies_of_mem_tokenize ht
  obtain ⟨before', text', after', hread⟩ := exists_reading hu hs
  have hne : text ≠ [] := by
    rintro rfl
    rw [hspan] at hlt
    exact absurd hlt (Nat.lt_irrefl _)
  have hbefore : before' = before ++ text := by
    refine @Position.eq_of_prefix Position.origin _ _ source.toList ?_ ?_ ?_
    · rw [hread.source_eq, List.append_assoc]
      exact List.prefix_append _ _
    · rw [hsource]
      exact List.prefix_append _ _
    · rw [Position.advance_append]
      rwa [hread.span_eq, hspan] at hstop
  have hescaped := hread.reads.escaped
  rw [hbefore, Lookbehind.past_append] at hescaped
  rcases (text_of_lexeme hr hlex).2 with htext | ⟨-, htext⟩
  · rw [htext]
    refine ⟨hne, fun hlast => ?_⟩
    rw [(getLast?_of_escaped hne _).2 hlast] at hescaped
    cases hescaped
  · rw [htext]
    exact ⟨List.cons_ne_nil _ _, by decide⟩

/-- A speech that goes on in the same line does not end with a backslash. -/
theorem getLast?_of_speech (ht : t ∈ tokenize source) (hu : u ∈ tokenize source)
    (hs : u.speech?.isSome) (hr : t.speech? = some r)
    (hlt : t.span.start.offset < t.span.stop.offset)
    (hult : u.span.start.offset < u.span.stop.offset)
    (hapart : t.span.stop.offset < u.span.start.offset)
    (hline : t.span.stop.line = u.span.start.line) :
    r.text ≠ [] ∧ r.text.getLast? ≠ some '\\' := by
  have hsome : t.speech?.isSome := by rw [hr]; rfl
  obtain ⟨before, text, after, hread⟩ := exists_reading ht (isSaid_of_speech hsome)
  obtain ⟨before', text', after', hread'⟩ := exists_reading hu (isSaid_of_speech hs)
  have hne : ∀ {text : List Char} {p : Position}, (Span.ofText p text).start.offset <
      (Span.ofText p text).stop.offset → text ≠ [] := by
    rintro text p hlt rfl
    exact absurd hlt (Nat.lt_irrefl _)
  rw [hread.span_eq] at hlt hapart hline
  rw [hread'.span_eq] at hult hapart hline
  have hstop : (Span.ofText (Position.origin.advance before) text).stop =
      Position.origin.advance (before ++ text) := (Position.advance_append _ _ _).symm
  rw [hstop] at hapart hline
  have htext : r.text = text := by
    refine (text_of_lexeme (.inl hr) hread.lexeme).2.resolve_right fun hn => ?_
    rw [Token.speech?, hn.1] at hr
    cases hr
  rw [htext]
  refine ⟨hne hlt, fun hlast => ?_⟩
  -- behind a backslash the line ends, and the next speech is not on it
  have hend := hread.stops hsome (by
    rw [Lookbehind.past_append]
    exact (getLast?_of_escaped (hne hlt) _).2 hlast)
  obtain ⟨gap, rfl⟩ : before ++ text <+: before' := by
    refine @Position.prefix_of_offset_le Position.origin _ _ source.toList ?_ ?_ hapart.le
    · rw [hread.source_eq]
      exact List.prefix_append _ _
    · rw [hread'.source_eq, List.append_assoc]
      exact List.prefix_append _ _
  have hsame := hread.source_eq.symm.trans hread'.source_eq
  simp only [List.append_assoc, List.append_cancel_left_eq] at hsame
  have hgap : gap ≠ [] := by
    rintro rfl
    rw [List.append_nil] at hapart
    exact absurd hapart (Nat.lt_irrefl _)
  have hfeed := newline_mem_of_atLineEnd hgap (hne hult) hread'.inLine (hsame ▸ hend)
  have hlt := Position.line_lt_advance hfeed (Position.origin.advance (before ++ text))
  rw [← Position.advance_append, hline] at hlt
  exact absurd hlt (Nat.lt_irrefl _)

end Token

/-! ## Shares of the tokens of a source -/

theorem precedes_speechShares {source : String} {us : List Token}
    (hs : ∀ u ∈ us, u ∈ tokenize source ∧ u.speech?.isSome)
    (hc : us.IsChain (·.span.stop.offset < ·.span.start.offset)) :
    (speechShares us).IsChain Share.Precedes := by
  have hlt : ∀ u ∈ us, u.span.start.offset < u.span.stop.offset := fun u hu =>
    (laid_tokenize source).speech_lt u (hs u hu).1 (hs u hu).2
  induction us using speechShares.induct with
  | case1 => exact .nil
  | case2 t =>
    unfold speechShares Token.share
    cases t.speech? with
    | none => exact .nil
    | some r => exact .singleton _
  | case3 t u ts ih =>
    obtain ⟨ht, hts⟩ := List.forall_mem_cons.1 hs
    obtain ⟨hu, -⟩ := List.forall_mem_cons.1 hts
    obtain ⟨hapart, hc⟩ := List.isChain_cons.1 hc
    obtain ⟨r, hr⟩ := Option.isSome_iff_exists.1 ht.2
    obtain ⟨r', hr'⟩ := Option.isSome_iff_exists.1 hu.2
    have hlater := ih hts hc (List.forall_mem_cons.1 hlt).2
    have hhead := head?_speechShares hr' ts
    simp only [speechShares, Token.share, hr, Option.toList_some, List.map_singleton]
    split
    · next hline =>
      rw [List.append_nil, List.singleton_append]
      refine List.isChain_cons.2 ⟨?_, hlater⟩
      rw [hhead]
      rintro _ ⟨⟩ -
      exact Token.getLast?_of_speech ht.1 hu.1 hu.2 hr (hlt t (by simp)) (hlt u (by simp))
        (hapart u rfl) hline
    · rw [List.append_assoc, List.singleton_append, List.singleton_append]
      refine List.isChain_cons.2 ⟨?_, List.isChain_cons.2 ⟨?_, hlater⟩⟩
      · rintro _ ⟨⟩ hfeed
        cases hfeed
      · rintro next - -
        exact ⟨List.cons_ne_nil _ _, (by decide : ['\n'].getLast? ≠ some '\\')⟩

theorem precedes_blockShares {source : String} {us : List Token} {p : Position}
    (hs : ∀ u ∈ us, u ∈ tokenize source ∧ u.blockRun?.isSome) (ht : Tight p us) :
    (us.flatMap fun u => u.share u.blockRun?).IsChain Share.Precedes := by
  induction us generalizing p with
  | nil => exact .nil
  | cons t us ih =>
    obtain ⟨hmem, hrest⟩ := List.forall_mem_cons.1 hs
    obtain ⟨r, hr⟩ := Option.isSome_iff_exists.1 hmem.2
    obtain ⟨-, hlt, htight⟩ := ht hmem.2
    simp only [List.flatMap_cons, Token.share, hr, Option.toList_some, List.map_singleton,
      List.singleton_append]
    refine List.isChain_cons.2 ⟨fun next hnext hsaid => ?_, ih hrest htight⟩
    -- the next share is of the next token, which stands right behind this one
    cases us with
    | nil => cases hnext
    | cons u us =>
      obtain ⟨hu, -⟩ := List.forall_mem_cons.1 hrest
      obtain ⟨r', hr'⟩ := Option.isSome_iff_exists.1 hu.2
      simp only [List.flatMap_cons, hr', Option.toList_some, List.map_singleton,
        List.singleton_append, List.head?_cons, Option.mem_def, Option.some.injEq] at hnext
      subst hnext
      exact Token.getLast?_of_adjoining hmem.1 hu.1 hsaid (.inr hr) hlt (htight hu.2).1

/-- Nothing in a text stands behind a backslash that another token gives. -/
theorem precedes_shares {source : String} {front back ts : List Token} {t : Token}
    (h : tokenize source = front ++ (t :: ts ++ back)) :
    (t.shares ts).IsChain Share.Precedes := by
  unfold Token.shares
  split
  · obtain ⟨hspeech, hapart⟩ := apart_replica h
    exact precedes_speechShares hspeech hapart
  · next hk =>
    unfold choiceShares
    split
    · exact .singleton _
    · obtain ⟨hinside, htight⟩ := tight_choice h hk rfl
      exact precedes_blockShares hinside htight
    · exact .nil
  · exact .nil

/-- A share that a token gives is what is read of the token. -/
theorem run_of_mem_shares {t u : Token} {ts : List Token} {share : Share} (h : share ∈ t.shares ts)
    (hu : share.token = some u) :
    u ∈ ts ∧ (u.speech? = some share.toRun ∨ u.blockRun? = some share.toRun) := by
  have hshare : ∀ {v : Token} {r : Option Run}, share ∈ v.share r → v = u ∧ r = some share.toRun := by
    intro v r hmem
    obtain ⟨r', hr', rfl⟩ := List.mem_map.1 hmem
    exact ⟨Option.some.inj hu, Option.mem_toList.1 hr'⟩
  have hspeeches : ∀ us, share ∈ speechShares us → u ∈ us ∧ u.speech? = some share.toRun := by
    intro us hmem
    induction us using speechShares.induct with
    | case1 => cases hmem
    | case2 t =>
      obtain ⟨rfl, hr⟩ := hshare hmem
      exact ⟨List.mem_cons_self, hr⟩
    | case3 t v ts ih =>
      rw [speechShares] at hmem
      rcases List.mem_append.1 hmem with hmem | hmem
      · rcases List.mem_append.1 hmem with hmem | hmem
        · obtain ⟨rfl, hr⟩ := hshare hmem
          exact ⟨List.mem_cons_self, hr⟩
        · split at hmem
          · cases hmem
          · obtain ⟨r, -, rfl⟩ := List.mem_map.1 hmem
            cases hu
      · obtain ⟨hmem, hr⟩ := ih hmem
        exact ⟨List.mem_cons_of_mem _ hmem, hr⟩
  unfold Token.shares at h
  split at h
  · obtain ⟨hmem, hr⟩ := hspeeches _ h
    exact ⟨(List.takeWhile_sublist _).subset (List.mem_filter.1 hmem).1, .inl hr⟩
  · unfold choiceShares at h
    split at h
    · obtain rfl := List.mem_singleton.1 h
      obtain rfl := Option.some.inj hu
      exact ⟨by simp, .inr rfl⟩
    · obtain ⟨v, hv, hmem⟩ := List.mem_flatMap.1 h
      obtain ⟨rfl, hr⟩ := hshare hmem
      exact ⟨List.mem_cons_of_mem _ ((List.takeWhile_sublist _).subset hv), .inr hr⟩
    · cases h
  · cases h

/-- In front of an inline call's mark in a speech or a choice text, but not in a call that is copied,
the lexer and the parser agree on whether the mark opens a call, unless the backslashes right before
it are even in number and there are any. -/
theorem inlineCalls_agree_iff (source : String) :
    ∀ s ∈ (parseSource source).story.preorder, ∀ earlier share later t,
      s.shares (tokenize source) = earlier ++ share :: later → share.token = some t →
      t.kind.isSaid → ∃ before after, source.toList = before ++ share.text ++ after ∧
        share.start = Position.origin.advance before ∧
        ReadsText (.past {} before) share.text after ∧
        ∀ left right, share.text = left ++ (inlineCallMark ++ right) →
          copying (.past {} before) none left (inlineCallMark ++ (right ++ after)) = none →
          let text := Share.texts (earlier ++ share :: later)
          let place := utf8Len (Share.texts earlier ++ left)
          let taken : Prop :=
            (Lookbehind.past {} (before ++ left)).atInlineCall (inlineCallMark ++ (right ++ after))
          let found : Prop := Indexed.findStart text place = pure (some place)
          (taken ↔ found) ↔ trailingBackslashes left = 0 ∨ trailingBackslashes left % 2 = 1 := by
  refine forall_preorder_of_excerpt fun t ts hts tags choiceTags body s h => ?_
  obtain ⟨front, back, htokens, hb⟩ := hts
  intro earlier share later u hshares hu hsaid
  rw [shares_eq htokens hb h] at hshares
  have hchain := precedes_shares htokens
  rw [hshares] at hchain
  have hshare : share ∈ t.shares ts := by simp [hshares]
  obtain ⟨hmem, hr⟩ := run_of_mem_shares hshare hu
  have hin : u ∈ tokenize source := by simp [htokens, hmem]
  obtain ⟨before, text, after, hread⟩ := exists_reading hin hsaid
  obtain ⟨hstart, htext⟩ := text_of_lexeme hr hread.lexeme
  have htext : share.text = text := by
    refine htext.resolve_right fun hn => ?_
    rw [hn.1] at hsaid
    cases hsaid
  subst htext
  refine ⟨before, after, hread.source_eq, ?_, hread.reads, ?_⟩
  · rw [hstart, hread.span_eq]
    rfl
  intro left right hsplit _
  have hfront := Share.getLast?_texts hchain (by simp [Share.isSaid, hu, hsaid])
  have hjoined : Share.texts (earlier ++ share :: later) =
      (Share.texts earlier ++ left) ++ (inlineCallMark ++ (right ++ Share.texts later)) := by
    have hglued : Share.texts (earlier ++ share :: later) =
        Share.texts earlier ++ (share.text ++ Share.texts later) := by
      simp [Share.texts, Run.glued]
    rw [hglued, hsplit]
    simp only [List.append_assoc]
  have htaken := atInlineCall_past hread.reads.escaped left (right ++ after)
  rw [← Lookbehind.past_append] at htaken
  have hfound := findStart_eq_self (Share.texts earlier ++ left) (right ++ Share.texts later)
  rw [trailingBackslashes_append hfront] at hfound
  dsimp only
  rw [hjoined, htaken, hfound]
  omega

/-- A call that no backslash stands before is one for both, so its arguments can hold a comment
sign. -/
theorem inlineCalls_agree_iff_plain :
    let source := "\" \x7bcall:f(#)\x7d\n"
    let text := "\x7bcall:f(#)\x7d".toList
    ∃ before after, source.toList = before ++ text ++ after ∧
      ((Lookbehind.past {} before).atInlineCall (text ++ after) = true ↔
        Indexed.findStart text 0 = pure (some 0)) := by
  intro source text
  let speech : Token := ⟨.speech "\x7bcall:f(#)\x7d", ⟨⟨2, 1, 3⟩, ⟨13, 1, 14⟩⟩⟩
  let share : Share := ⟨⟨text, ⟨2, 1, 3⟩⟩, some speech⟩
  have hshares : [share] ∈ (parseSource source).story.preorder.map (·.shares (tokenize source)) := by
    decide +kernel
  obtain ⟨s, hs, hshare⟩ := List.mem_map.1 hshares
  obtain ⟨before, after, hsource, -, -, hagree⟩ :=
    inlineCalls_agree_iff source s hs [] share [] speech hshare rfl rfl
  refine ⟨before, after, hsource, ?_⟩
  have hplain := (hagree [] "f(#)\x7d".toList (by decide) rfl).2 (.inl rfl)
  rw [List.append_nil] at hplain
  exact hplain

/-- Two backslashes are no escape for the parser, and one for the lexer, which takes the comment sign
in the arguments for a comment. -/
theorem inlineCalls_differ_on_two_backslashes :
    let source := "\" \\\\\x7bcall:f(#)\x7d\n"
    let text := "\\\\\x7bcall:f(".toList
    ∃ s ∈ (parseSource source).story.preorder, ∃ share,
      s.shares (tokenize source) = [share] ∧ share.text = text ∧
        copying (.past {} ['"', ' ']) none ['\\', '\\'] "\x7bcall:f(#)\x7d\n".toList = none ∧
        (Lookbehind.past {} ['"', ' ', '\\', '\\']).atInlineCall
          "\x7bcall:f(#)\x7d\n".toList = false ∧
        Indexed.findStart (Share.texts [share]) 2 = pure (some 2) := by
  intro source text
  let speech : Token := ⟨.speech "\\\\\x7bcall:f(", ⟨⟨2, 1, 3⟩, ⟨12, 1, 13⟩⟩⟩
  let share : Share := ⟨⟨text, ⟨2, 1, 3⟩⟩, some speech⟩
  have hshares : [share] ∈ (parseSource source).story.preorder.map (·.shares (tokenize source)) := by
    decide +kernel
  obtain ⟨s, hs, hshare⟩ := List.mem_map.1 hshares
  exact ⟨s, hs, share, hshare, rfl, rfl, rfl, rfl⟩

end StoryScript

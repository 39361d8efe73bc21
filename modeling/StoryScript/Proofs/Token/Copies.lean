import StoryScript.Proofs.Token.Lines
import StoryScript.Proofs.Token.Texts
/-!
# How texts are read

Inside a text a reader knows which inline call it copies, if it copies one (`copying`). No text is
read behind a backslash: one that ends a stretch of text stands at the end of its line. Both hold of
every speech and every choice text of a source (`exists_reading`).
-/

namespace StoryScript

open Token (Kind)

/-! ## Inside a text -/

/-- The inline call that is being copied behind a text when `rest` follows it. -/
def copying : Lookbehind → Option CallNesting → List Char → List Char → Option CallNesting
  | _, nesting, [], _ => nesting
  | b, some n, c :: text, rest => copying (b.next c) (n.next b.escaped c) text rest
  | b, none, c :: text, rest =>
    copying (b.next c) (if b.atInlineCall (c :: (text ++ rest)) then some {} else none) text rest

/-- What has been read tells a reader nothing else of how to go on. -/
theorem readText_append_left (stop : Lookbehind → List Char → Bool) {nesting : Option CallNesting}
    {b : Lookbehind} {text rest : List Char}
    (h : text <+: (readText stop nesting b (text ++ rest)).1) :
    readText stop nesting b (text ++ rest) =
      (text ++ (readText stop (copying b nesting text rest) (b.past text) rest).1,
        (readText stop (copying b nesting text rest) (b.past text) rest).2) := by
  induction text generalizing nesting b with
  | nil => rfl
  | cons c text ih =>
    cases nesting with
    | some n =>
      rw [List.cons_append, readText] at h ⊢
      split at h
      · cases List.prefix_nil.1 h
      · next hl =>
        rw [if_neg hl, ih (List.cons_prefix_cons.1 h).2]
        rfl
    | none =>
      rw [List.cons_append, readText] at h ⊢
      split at h
      · cases List.prefix_nil.1 h
      · next hl =>
        rw [if_neg hl]
        split at h
        · next hcall =>
          rw [if_pos hcall, ih (List.cons_prefix_cons.1 h).2, copying, if_pos hcall]
          rfl
        · next hcall =>
          split at h
          · cases List.prefix_nil.1 h
          · next hs =>
            rw [if_neg hcall, if_neg hs, ih (List.cons_prefix_cons.1 h).2, copying, if_neg hcall]
            rfl

/-- Where speeches stop, choice texts between bounds, and choice texts on the line of their choice. -/
def textStops : List (Lookbehind → List Char → Bool) :=
  [fun b cs => b.endsReplica cs || b.atComment cs, fun b cs => b.atBound cs || b.atComment cs,
    fun b cs => b.atComment cs]

/-- A text is read at a place with no backslash before it. -/
structure ReadsText (b : Lookbehind) (text after : List Char) : Prop where
  escaped : b.escaped = false
  read : ∃ stop ∈ textStops, text <+: (readText stop none b (text ++ after)).1

/-- Behind a backslash no text stops but at the end of its line. -/
theorem atLineEnd_of_escaped {stop : Lookbehind → List Char → Bool}
    (hs : ∀ b cs, stop b cs = true → b.escaped = false) {nesting : Option CallNesting}
    {b : Lookbehind} {cs : List Char}
    (h : (b.past (readText stop nesting b cs).1).escaped = true) :
    atLineEnd (readText stop nesting b cs).2 = true := by
  refine (stopped_readText stop nesting b cs).resolve_right fun hstop => ?_
  rw [hs _ _ hstop] at h
  cases h

namespace Lookbehind

variable {b : Lookbehind} {cs : List Char}

theorem escaped_of_endsReplica (h : b.endsReplica cs = true) : b.escaped = false := by
  by_contra hb
  rw [Bool.not_eq_false] at hb
  unfold endsReplica atReplica atTag atHeader atGoto atChoice at h
  simp only [hb] at h
  repeat' split at h
  all_goals simp at h

theorem escaped_of_atBound (h : b.atBound cs = true) : b.escaped = false := by
  rw [atBound, Bool.and_eq_true] at h
  simpa using h.1

theorem escaped_of_atComment (h : b.atComment cs = true) : b.escaped = false := by
  by_contra hb
  rw [Bool.not_eq_false] at hb
  unfold atComment atCommentOpen atLineComment at h
  simp only [hb] at h
  repeat' split at h
  all_goals simp at h

end Lookbehind

theorem escaped_of_textStops {stop : Lookbehind → List Char → Bool} (hs : stop ∈ textStops)
    (b : Lookbehind) (cs : List Char) (h : stop b cs = true) : b.escaped = false := by
  simp only [textStops, List.mem_cons, List.not_mem_nil, or_false] at hs
  rcases hs with rfl | rfl | rfl
  · rcases Bool.or_eq_true_iff.1 h with h | h
    · exact b.escaped_of_endsReplica h
    · exact b.escaped_of_atComment h
  · rcases Bool.or_eq_true_iff.1 h with h | h
    · exact b.escaped_of_atBound h
    · exact b.escaped_of_atComment h
  · exact b.escaped_of_atComment h

/-! ## Pieces -/

namespace Piece

/-- How a piece at a place was read if it is a speech or a choice text. -/
def Heard (b : Lookbehind) (after : List Char) : Piece → Prop
  | covered text kinds => ∀ k ∈ kinds, k.isSaid → ReadsText b text after ∧
    (∀ said, k = .speech said → (b.past text).escaped → atLineEnd after)
  | arguments _ => True

/-- Pieces in a row, each heard at its place. -/
def AllHeard : Lookbehind → List Piece → Prop
  | _, [] => True
  | b, piece :: pieces => piece.Heard b (texts pieces) ∧ AllHeard (b.past piece.text) pieces

variable {b : Lookbehind} {piece : Piece} {pieces front : List Piece}

theorem Heard.of_free {after : List Char} (h : piece.Free Kind.isSaid) : piece.Heard b after := by
  cases piece with
  | covered text kinds =>
    intro k hk hs
    rw [h k hk] at hs
    cases hs
  | arguments list => trivial

theorem AllHeard.append_free (hf : ∀ piece ∈ front, piece.Free Kind.isSaid)
    (h : AllHeard (b.past (texts front)) pieces) : AllHeard b (front ++ pieces) := by
  induction front generalizing b with
  | nil => exact h
  | cons piece front ih =>
    obtain ⟨hpiece, hfront⟩ := List.forall_mem_cons.1 hf
    rw [texts_cons, Lookbehind.past_append] at h
    exact ⟨.of_free hpiece, ih hfront h⟩

theorem AllHeard.push (h : AllHeard b (piece :: pieces)) : AllHeard b (pushSettled piece pieces) := by
  unfold pushSettled
  split
  · split
    · exact h
    · obtain ⟨hpiece, -, hrest⟩ := h
      exact ⟨.of_free ((free_mark _ _).2 rfl), hpiece, hrest⟩
  · exact h

/-- The ends of replicas move over what is heard. -/
theorem AllHeard.settle (h : AllHeard b pieces) : AllHeard b (settle pieces) := by
  induction pieces generalizing b with
  | nil => exact h
  | cons piece pieces ih =>
    obtain ⟨hpiece, hpieces⟩ := h
    have htexts := texts_settle pieces
    exact AllHeard.push ⟨htexts.symm ▸ hpiece, ih hpieces⟩

end Piece

/-! ## Steps -/

namespace Lexer

open Piece (AllHeard)

/-- In an open text, outside of comments, a backslash stands only at the end of its line. -/
def State.Clear (s : State) (rest : List Char) : Prop :=
  s.mode ≠ .structural → s.inComment = false → s.behind.escaped = true → atLineEnd rest = true

/-- What the step reads is heard in front of all that can be read next. -/
structure Step.Hears (r : Step) (s : State) : Prop where
  heard : ∀ pieces, Piece.texts pieces = r.rest → AllHeard r.state.behind pieces →
    AllHeard s.behind (r.pieces ++ pieces)
  clear : r.state.Clear r.rest

namespace State

variable {s : State}

theorem hears_ite {p : Prop} [Decidable p] {a b : Step} (ha : p → a.Hears s) (hb : ¬p → b.Hears s) :
    (if p then a else b).Hears s := by
  split
  · next h => exact ha h
  · next h => exact hb h

theorem hears_of_free {r : Step} (hf : ∀ piece ∈ r.pieces, piece.Free Kind.isSaid)
    (hp : r.Passes s.behind) (hc : r.state.Clear r.rest) : r.Hears s := by
  refine ⟨fun pieces _ h => ?_, hc⟩
  rw [hp] at h
  exact .append_free hf h

theorem hears_plain {r : Step} {s' : State} (h : r.Plain s') (hb : s'.behind = s.behind)
    (hc : r.state.Clear r.rest) : r.Hears s := by
  refine hears_of_free (h.free fun k hk => ?_) ?_ hc
  · cases k <;> first | rfl | cases hk
  · rw [Step.Passes, h.state, ← hb]
    rfl

theorem hears_openComment (cs : List Char) : (s.openComment cs).Hears s :=
  hears_plain (s.plain_openComment cs) rfl nofun

theorem hears_lineComment (cs : List Char) : (s.lineComment cs).Hears s := by
  refine hears_plain (s.plain_lineComment cs) rfl fun _ _ _ => ?_
  rcases stopped_readUntil (fun _ cs => atLineEnd cs) s.behind cs with hnil | hend
  · rw [lineComment, rest_read, hnil]
    rfl
  · exact hend

theorem hears_commentLine (hc : s.inComment = true) (cs : List Char) :
    (s.commentLine cs).Hears s := by
  obtain ⟨inComment, hplain⟩ := s.plain_commentLine cs
  refine hears_plain hplain rfl ?_
  unfold commentLine
  dsimp only
  split
  · next hclose =>
    intro _ _ he
    obtain ⟨ds, hds⟩ := Lookbehind.cons_of_atCommentClose hclose
    rw [hds, read, past, Piece.texts_append, Lookbehind.past_append] at he
    cases he
  · intro _ ho _
    rw [read, past, hc] at ho
    cases ho

theorem hears_newline {cs : List Char} (hn : atNewline cs = true) : (s.newline cs).Hears s := by
  refine hears_plain (s.plain_newline cs) rfl fun _ _ he => ?_
  rcases newline_of_atNewline hn with ⟨ds, rfl⟩ | ⟨ds, rfl⟩
  · cases he
  · cases he

/-- A stretch of text as one piece. -/
theorem hears_readText {stop : Lookbehind → List Char → Bool} (hs : stop ∈ textStops)
    (hb : s.behind.escaped = false) {cs : List Char} {piece : Piece}
    (hp : piece = .gap (readText stop none s.behind cs).1 ∨
      ∃ kind, piece = .token kind (readText stop none s.behind cs).1) :
    (s.read [piece] (readText stop none s.behind cs).2).Hears s := by
  have hend := @atLineEnd_of_escaped stop (escaped_of_textStops hs) none s.behind cs
  have happend := readText_append stop none s.behind cs
  generalize hr : readText stop none s.behind cs = r at *
  have hpast : (s.read [piece] r.2).state.behind = s.behind.past r.1 := by
    rcases hp with rfl | ⟨kind, rfl⟩ <;> simp [read, past]
  refine ⟨fun pieces hpieces h => ⟨?_, ?_⟩, fun _ _ he => hend (hpast ▸ he)⟩
  · change piece.Heard s.behind (Piece.texts pieces)
    rw [hpieces]
    rcases hp with rfl | ⟨kind, rfl⟩
    · exact .of_free (Piece.free_gap _ _)
    · intro k hk' _
      refine ⟨⟨hb, stop, hs, ?_⟩, fun _ _ he => hend he⟩
      exact ⟨[], by rw [List.append_nil, rest_read, happend, hr]⟩
  · rw [hpast] at h
    rcases hp with rfl | ⟨kind, rfl⟩
    · exact h
    · exact h

theorem hears_choice (hs : s.mode = .structural) (cs : List Char) :
    (s.choice ('+' :: cs)).Hears s := by
  unfold choice
  dsimp only [List.take, List.drop]
  split
  · next hbound =>
    obtain ⟨ds, hds⟩ := List.isPrefixOf_iff_prefix.1 hbound
    refine hears_of_free ?_ rfl fun _ _ he => ?_
    · simp [openBound, Kind.isSaid]
    · rw [← hds] at he
      simp only [openBound, read, past, Piece.texts_append, Lookbehind.past_append] at he
      cases he
  · have hclear : ∀ pieces rest, (s.read pieces rest).state.Clear rest :=
      fun _ _ hm => absurd hs hm
    have happend := readText_append (fun b cs => b.atComment cs) none (s.behind.past ['+']) cs
    generalize hr : readText (fun b cs => b.atComment cs) none (s.behind.past ['+']) cs = r at *
    split
    · exact hears_of_free (by simp [Kind.isSaid]) rfl (hclear _ _)
    · refine ⟨fun pieces hpieces h => ?_, hclear _ _⟩
      have hfree : ∀ k : Kind, k.isSaid = false → ∀ text, (Piece.token k text).Free Kind.isSaid := by
        simp
      refine ⟨.of_free (hfree _ rfl _), .of_free (hfree _ rfl _), ?_, .of_free (hfree _ rfl _),
        .of_free (Piece.free_gap _ _), ?_⟩
      · intro k hk _
        obtain rfl := List.mem_singleton.1 hk
        refine ⟨⟨rfl, fun b cs => b.atComment cs, by simp [textStops], ?_⟩,
          fun _ hspeech => Kind.noConfusion hspeech⟩
        have hafter : Text.trimEnd r.1 ++ (Text.trailing r.1 ++ Piece.texts pieces) = cs := by
          rw [← List.append_assoc, Text.trimEnd_append_trailing, hpieces]
          exact happend
        change Text.trimEnd r.1 <+: (readText (fun b cs => b.atComment cs) none
          (s.behind.past ['+']) (Text.trimEnd r.1 ++ (Text.trailing r.1 ++ Piece.texts pieces))).1
        rw [hafter, hr]
        exact ⟨Text.trailing r.1, Text.trimEnd_append_trailing r.1⟩
      · simpa [read, past, Lookbehind.past_append] using h

theorem hears_structural (hs : s.mode = .structural) (c : Char) (cs : List Char) :
    (s.structural c cs).Hears s := by
  have hplain : ∀ {r : Step}, r.Plain s → r.Hears s := fun h =>
    hears_plain h rfl fun hm => absurd (by rw [h.state]; exact hs) hm
  apply structural_cases (motive := fun _ r => r.Hears s)
  case space => exact fun _ => hplain (s.plain_read (by simp) _)
  case openComment => exact fun _ => s.hears_openComment _
  case lineComment => exact s.hears_lineComment _
  case call => exact fun ds => hplain (s.plain_call _)
  case choiceTag => exact fun ds => hplain (s.plain_tag (fun _ => rfl) _)
  case tag => exact fun ds => hplain (s.plain_tag (fun _ => rfl) _)
  case header => exact fun ds => hplain (s.plain_header _)
  case goto => exact fun d ds _ => hplain (s.plain_goto _)
  case choice => exact hears_choice hs
  case replica =>
    exact fun ds => hears_of_free (by simp [openReplica, Kind.isSaid]) rfl
      fun _ _ hescaped => Bool.noConfusion hescaped
  case bound =>
    exact fun ds => hears_of_free (by simp [openBound, Kind.isSaid]) rfl
      fun _ _ hescaped => Bool.noConfusion hescaped
  case stray => exact hplain (s.plain_stray c cs)

theorem hears_replica (hb : s.behind.escaped = false) (cs : List Char) :
    (s.replica cs).Hears s := by
  unfold replica
  refine hears_ite (fun _ => ?_) fun _ => ?_
  · refine hears_of_free (s.free_replicaEnd rfl) ?_ fun _ _ he => ?_
    · rw [Step.Passes, ← s.behind_leaveReplica]
      rfl
    · have hbehind : (s.leaveReplica.read s.replicaEnd cs).state.behind = s.behind := by
        rw [read, past, texts_replicaEnd, Lookbehind.past_nil, s.behind_leaveReplica]
      rw [hbehind, hb] at he
      cases he
  refine hears_ite (fun _ => s.hears_openComment _) fun _ => ?_
  refine hears_ite (fun _ => s.hears_lineComment _) fun _ => ?_
  dsimp only
  refine hears_readText (by simp [textStops]) hb ?_
  split
  · exact .inl rfl
  · exact .inr ⟨_, rfl⟩

theorem hears_choiceText (hb : s.behind.escaped = false) (cs : List Char) :
    (s.choiceText cs).Hears s := by
  unfold choiceText
  refine hears_ite (fun h => ?_) fun _ => ?_
  · exact hears_of_free (by simp [Kind.isSaid]) rfl fun hm => absurd rfl hm
  refine hears_ite (fun _ => s.hears_openComment _) fun _ => ?_
  refine hears_ite (fun _ => s.hears_lineComment _) fun _ => ?_
  exact hears_readText (by simp [textStops]) hb (.inr ⟨_, rfl⟩)

theorem hears_scan {c : Char} {cs : List Char} (hl : atLineEnd (c :: cs) = false)
    (h : s.Clear (c :: cs)) : (s.scan c cs).Hears s := by
  unfold scan
  refine hears_ite (fun hc => hears_commentLine hc _) fun hc => ?_
  have hb : s.mode ≠ .structural → s.behind.escaped = false := by
    intro hm
    by_contra he
    have hend := h hm (by simpa using hc) (by simpa using he)
    rw [hl] at hend
    cases hend
  split
  · next hm => exact hears_structural hm c cs
  · next hm => exact hears_replica (hb (by simp [hm])) _
  · next hm => exact hears_choiceText (hb (by simp [hm])) _

theorem structural_indentation (h : s.mode = .structural) (spacers rest : List Char) :
    (s.indentation spacers rest).2.mode = .structural := by
  have hleave : s.leaveReplica = s := if_neg (by rw [h]; exact nofun)
  unfold indentation
  dsimp only
  rw [hleave]
  split
  · exact h
  · exact h

/-- Spaces and tabs are no backslashes. -/
theorem Clear.indented {spacers rest : List Char} (h : s.Clear (spacers ++ rest))
    (hs : ∀ c ∈ spacers, isSpacer c) (hc : s.inComment = false) :
    ((s.indentation spacers rest).2.past (s.indentation spacers rest).1).Clear rest := by
  intro hm _ he
  have hmode : s.mode ≠ .structural := fun h => hm (structural_indentation h spacers rest)
  have hbehind : ((s.indentation spacers rest).2.past (s.indentation spacers rest).1).behind =
      s.behind.past spacers := by
    rw [past, behind_indentation, (splits_indentation s hs rest).1]
  rw [hbehind] at he
  rcases spacers.eq_nil_or_concat with rfl | ⟨front, c, rfl⟩
  · exact h hmode hc he
  · rw [List.concat_eq_append, Lookbehind.past_append] at he
    have hspacer := hs c (by simp)
    rw [eq_of_beq (show (c == '\\') = true from he)] at hspacer
    cases hspacer

theorem hears_step {c : Char} {cs : List Char} (h : s.Clear (c :: cs)) : (s.step c cs).Hears s := by
  unfold step
  refine hears_ite (fun hn => hears_newline hn) fun hn => ?_
  have hl : atLineEnd (c :: cs) = false := by simpa [atLineEnd] using hn
  dsimp only
  split
  · next hmeasures =>
    simp only [measures, Bool.and_eq_true, Bool.not_eq_true'] at hmeasures
    have hspacers := isSpacer_of_mem_takeWhile (c :: cs)
    have hsplit := List.takeWhile_append_dropWhile (p := isSpacer) (l := c :: cs)
    have hspace : ∀ rest, atLineEnd rest = true → ({ s with freshLine := false }.read
        [.gap ((c :: cs).takeWhile isSpacer)] rest).Hears s := fun rest hr =>
      hears_of_free (by simp) rfl fun _ _ _ => hr
    split
    · exact hspace [] rfl
    · next d ds hd =>
      rw [hd] at hsplit
      refine hears_ite (fun hdn => hspace _ (by simpa [atLineEnd] using hdn)) fun hdn => ?_
      have hclear := Clear.indented (s := { s with freshLine := false }) (hsplit.symm ▸ h) hspacers
        hmeasures.1.2
      have hfree := free_indentation (p := Kind.isSaid) { s with freshLine := false } rfl rfl rfl
        ((c :: cs).takeWhile isSpacer) (d :: ds)
      have hbehind := behind_indentation { s with freshLine := false }
        ((c :: cs).takeWhile isSpacer) (d :: ds)
      generalize { s with freshLine := false }.indentation ((c :: cs).takeWhile isSpacer) (d :: ds) =
        i at hclear hfree hbehind ⊢
      have hscan := hears_scan (by simpa [atLineEnd] using hdn) hclear
      refine ⟨fun pieces hpieces hheard => ?_, hscan.clear⟩
      rw [List.append_assoc]
      apply AllHeard.append_free hfree
      have hpast : (i.2.past i.1).behind = s.behind.past (Piece.texts i.1) := by rw [past, hbehind]
      exact hpast ▸ hscan.heard pieces hpieces hheard
  · have hscan := hears_scan (s := { s with freshLine := false }) hl h
    exact ⟨hscan.heard, hscan.clear⟩

end State

/-- A run hears all that it reads. -/
theorem heard_run {s : State} {cs : List Char} (h : s.Clear cs) :
    AllHeard s.behind (run s cs) := by
  fun_induction run s cs with
  | case1 s =>
    rw [← List.append_nil s.finish]
    refine .append_free ?_ trivial
    rw [State.finish, List.append_assoc]
    refine List.forall_mem_append.2 ⟨s.free_replicaEnd rfl, ?_⟩
    simp [List.mem_append, Kind.isSaid, or_imp, forall_and]
  | case2 s c cs ih =>
    have hears := State.hears_step h
    exact hears.heard _ (texts_run _ _) (ih hears.clear)

end Lexer

/-! ## Tokens -/

/-- How a speech or a choice text that stands at `p` was read. -/
structure Token.Reading (p : Position) (b : Lookbehind) (source : List Char) (t : Token)
    (before text after : List Char) : Prop where
  source_eq : source = before ++ text ++ after
  span_eq : t.span = Span.ofText (p.advance before) text
  lexeme : t.kind.Lexeme text
  inLine : InLine text
  reads : ReadsText (b.past before) text after
  /-- A speech that ends with a backslash goes on to the end of its line. -/
  stops : t.speech?.isSome → (b.past (before ++ text)).escaped → atLineEnd after

theorem Piece.reading_of_mem_place {pieces : List Piece} {b : Lookbehind} (h : AllHeard b pieces)
    (hf : ∀ piece ∈ pieces, piece.Faithful) (ht : ∀ piece ∈ pieces, piece.Tidy) {p : Position}
    {t : Token} (hmem : t ∈ place p pieces) (hk : t.kind.isSaid) :
    ∃ before text after, t.Reading p b (texts pieces) before text after := by
  induction pieces generalizing p b with
  | nil => cases hmem
  | cons piece pieces ih =>
    obtain ⟨hpiece, hpieces⟩ := h
    obtain ⟨hfaithful, hf⟩ := List.forall_mem_cons.1 hf
    obtain ⟨htidy, ht⟩ := List.forall_mem_cons.1 ht
    rcases List.mem_append.1 hmem with hmem | hmem
    · cases piece with
      | arguments list =>
        have hfree := Free.of_mem_tokens (p := Kind.isSaid) (fun _ => rfl) (fun _ => rfl)
          (free_arguments _ list) hmem
        rw [hk] at hfree
        cases hfree
      | covered text kinds =>
        obtain ⟨k, hkind, rfl⟩ := List.mem_map.1 hmem
        obtain ⟨hreads, hstops⟩ := hpiece k hkind hk
        refine ⟨[], text, texts pieces, rfl, rfl, hfaithful k hkind, fun hn => ?_, hreads, ?_⟩
        · rw [htidy.newline hn, List.mem_singleton] at hkind
          subst hkind
          cases hk
        · intro hspeech
          cases k with
          | speech said => exact hstops said rfl
          | _ => cases hspeech
    · obtain ⟨before, text, after, h⟩ := ih hpieces hf ht hmem
      refine ⟨piece.text ++ before, text, after, ?_, ?_, h.lexeme, h.inLine, ?_, ?_⟩
      · rw [texts_cons, h.source_eq]
        simp
      · rw [h.span_eq, Position.advance_append]
      · rw [Lookbehind.past_append]
        exact h.reads
      · rw [List.append_assoc, Lookbehind.past_append]
        exact h.stops

/-- Every speech and every choice text of a source is read behind no backslash. -/
theorem exists_reading {source : String} {t : Token} (h : t ∈ tokenize source) (hk : t.kind.isSaid) :
    ∃ before text after, t.Reading Position.origin {} source.toList before text after := by
  have hheard := (@Lexer.heard_run {} source.toList fun hm => absurd rfl hm).settle
  have htexts : Piece.texts (Piece.settle (Lexer.run {} source.toList)) = source.toList := by
    rw [Piece.texts_settle, Lexer.texts_run]
  have hread := Piece.reading_of_mem_place hheard (fun piece hp => ?_) (fun piece hp => ?_) h hk
  · rwa [htexts] at hread
  · exact Lexer.faithful_run _ _ piece ((Piece.perm_settle _).mem_iff.1 hp)
  · exact Lexer.tidy_run _ _ piece ((Piece.perm_settle _).mem_iff.1 hp)

end StoryScript

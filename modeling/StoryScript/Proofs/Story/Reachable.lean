import StoryScript.Proofs.Canonical.RoundTrip
import StoryScript.Proofs.Token.Joining
import StoryScript.Proofs.Token.Names
/-!
# Sections that name themselves

A header takes its name up to a space or a tab, an arrow takes its target to the end of the line and
trims it. So what a header takes for a name is the target of an arrow as well, but for other blanks at
its ends: these belong to the name and are cut off from the target. A section that sends to itself is
reached exactly if its name is trimmed (`selfReference_reached`).
-/

namespace StoryScript

open Token (Kind)

/-! ## Lowercase keeps what is trimmed apart -/

namespace Text

theorem length_lowerFrom (behind : Bool) (cs : List Char) :
    (lowerFrom behind cs).length = (cs.flatMap lowerChar).length := by
  induction cs generalizing behind with
  | nil => rfl
  | cons c cs ih =>
    rw [lowerFrom, List.length_append, ih, List.flatMap_cons, List.length_append]
    split
    · next hc =>
      -- a sigma has two lowercase forms of one character each
      subst hc
      rfl
    · rfl

theorem length_lowerChar_pos (c : Char) : 0 < (lowerChar c).length := by
  unfold lowerChar
  split <;> simp

theorem length_le_lowered (cs : List Char) : cs.length ≤ (cs.flatMap lowerChar).length := by
  induction cs with
  | nil => exact Nat.le_refl 0
  | cons c cs ih =>
    have hpos := length_lowerChar_pos c
    rw [List.flatMap_cons, List.length_append, List.length_cons]
    omega

/-- Blanks at the ends of a text are blanks of its lowercase. -/
theorem trim_eq_of_lowerFrom_eq {cs : List Char}
    (h : lowerFrom false (trim cs) = lowerFrom false cs) : trim cs = cs := by
  have hlength := congrArg List.length h
  have hmargins := margins_append cs
  have hlowered := congrArg (fun l : List Char => (l.flatMap lowerChar).length) hmargins
  rw [length_lowerFrom, length_lowerFrom] at hlength
  simp only [List.flatMap_append, List.length_append] at hlowered
  have hleading := length_le_lowered (leading cs)
  have htrailing := length_le_lowered (trailing (trimStart cs))
  have hl : leading cs = [] := List.eq_nil_of_length_eq_zero (by omega)
  have ht : trailing (trimStart cs) = [] := List.eq_nil_of_length_eq_zero (by omega)
  rwa [hl, ht, List.nil_append, List.append_nil] at hmargins

theorem lowercase_trimmed_eq_iff (s : String) :
    lowercase (trimmed s) = lowercase s ↔ trimmed s = s := by
  constructor
  · intro h
    have hlower := congrArg String.toList h
    simp only [lowercase, trimmed, String.toList_ofList] at hlower
    rw [trimmed, trim_eq_of_lowerFrom_eq hlower, String.ofList_toList]
  · intro h
    rw [h]

theorem toLower_of_isBlank {c : Char} (h : isBlank c = true) : c.toLower = c := by
  simp only [isBlank, Bool.or_eq_true, Bool.and_eq_true, decide_eq_true_eq, beq_iff_eq] at h
  have hc : c.val.toNat = c.toNat := rfl
  have ha : 'A'.val.toNat = 65 := rfl
  have hz : 'Z'.val.toNat = 90 := rfl
  unfold Char.toLower
  split
  · next hupper =>
    simp only [ge_iff_le, UInt32.le_iff_toNat_le] at hupper
    omega
  · rfl

/-- A section that bears the name of the main one bears no blank. -/
theorem trimmed_of_lowerLetters {s : String} (h : lowerLetters s = "main") : trimmed s = s := by
  have hletters := congrArg String.toList h
  rw [lowerLetters, String.toList_ofList] at hletters
  have hblank : ∀ c ∈ s.toList, isBlank c = false := by
    intro c hc
    by_contra hb
    rw [Bool.not_eq_false] at hb
    have hmem : c.toLower ∈ "main".toList := hletters ▸ List.mem_map_of_mem hc
    rw [toLower_of_isBlank hb] at hmem
    have hmain : "main".toList.all (fun c => !isBlank c) = true := by decide
    have hinert := List.all_eq_true.1 hmain c hmem
    rw [hb] at hinert
    cases hinert
  have htrimmed : IsTrimmed s.toList := fun c hc =>
    hblank c (hc.elim List.mem_of_mem_head? List.mem_of_mem_getLast?)
  rw [trimmed, htrimmed.trim_eq, String.ofList_toList]

end Text

/-! ## Names of sections -/

/-- A header takes the name as it is written. -/
def IsSectionName (name : String) : Prop :=
  (tokenize ("== " ++ name ++ "\n")).map Token.kind =
    [.header, .identifier name, .newline, .eof]

instance (name : String) : Decidable (IsSectionName name) := inferInstanceAs (Decidable (_ = _))

/-- A section of that name that sends to the section of that name. -/
def selfReference (name : String) : String := "== " ++ name ++ "\n-> " ++ name ++ "\n"

/-- A reader that stops at fewer places passes what another passes. -/
theorem readUntil_of_fewer {stop stop' : Lookbehind → List Char → Bool}
    (hfew : ∀ b cs, stop' b cs = true → stop b cs = true) {b : Lookbehind} {text rest : List Char}
    (h : readUntil stop b (text ++ rest) = (text, rest)) (hrest : stop' (b.past text) rest = true) :
    readUntil stop' b (text ++ rest) = (text, rest) := by
  induction text generalizing b with
  | nil =>
    cases rest with
    | nil => rfl
    | cons c rest =>
      have hstop : stop' b (c :: rest) = true := hrest
      rw [List.nil_append, readUntil, if_pos hstop]
  | cons c text ih =>
    rw [List.cons_append, readUntil] at h ⊢
    split at h
    · cases (Prod.mk.inj h).1
    · next hgo =>
      obtain ⟨htext, htail⟩ := Prod.mk.inj h
      rw [if_neg fun hstop => hgo (hfew _ _ hstop),
        ih (Prod.ext (List.cons.inj htext).2 htail) hrest]

namespace Lexer

/-- On its line a header reads the name and nothing else. -/
structure HeaderName (name : List Char) : Prop where
  ne_nil : name ≠ []
  read : readUntil (fun b cs => State.endsName cs || b.atComment cs) ⟨false, false⟩
    (name ++ ['\n']) = (name, ['\n'])

namespace HeaderName

variable {name : List Char} (h : HeaderName name) (rest : List Char)
include h

theorem exists_cons : ∃ c cs, name = c :: cs ∧ isSpacer c = false := by
  obtain ⟨hne, hread⟩ := h
  cases name with
  | nil => exact absurd rfl hne
  | cons c cs =>
    refine ⟨c, cs, rfl, ?_⟩
    rw [List.cons_append, readUntil] at hread
    split at hread
    · cases (Prod.mk.inj hread).1
    · next hgo =>
      simp only [State.endsName, List.head?_cons, Option.map_some, Option.getD_some,
        Bool.or_eq_true, not_or, Bool.not_eq_true] at hgo
      exact hgo.1.2

theorem read_append : readUntil (fun b cs => State.endsName cs || b.atComment cs) ⟨false, false⟩
    (name ++ '\n' :: rest) = (name, '\n' :: rest) := by
  have hends : EndsLine (name ++ ['\n']) := List.getLast?_concat
  obtain ⟨text, left, hr, hr', -⟩ := readUntil_split hends rest
    (fun b cs => State.endsName cs || b.atComment cs)
    (fun b _ h => by rw [endsName_append h, (alike_append h rest).atComment]) (fun _ _ => rfl)
    ⟨false, false⟩
  obtain ⟨rfl, rfl⟩ := Prod.mk.inj (h.read.symm.trans hr)
  rwa [List.append_assoc] at hr'

theorem read_target : readUntil (fun b cs => atLineEnd cs || b.atComment cs) ⟨false, false⟩
    (name ++ '\n' :: rest) = (name, '\n' :: rest) := by
  refine readUntil_of_fewer (fun b cs hstop => ?_) (h.read_append rest) rfl
  rcases Bool.or_eq_true_iff.1 hstop with hline | hcomment
  · simp [State.endsName, hline]
  · simp [hcomment]

theorem span_spacer : (' ' :: (name ++ '\n' :: rest)).takeWhile isSpacer = [' '] ∧
    (' ' :: (name ++ '\n' :: rest)).dropWhile isSpacer = name ++ '\n' :: rest := by
  obtain ⟨c, cs, rfl, hc⟩ := h.exists_cons
  exact @Canonical.span_append Char isSpacer [' '] (cs ++ '\n' :: rest) c
    (List.forall_mem_singleton.2 rfl) hc

theorem structural_header : (Canonical.inLine 0).structural '=' ('=' :: ' ' :: (name ++ '\n' :: rest)) =
    (Canonical.inLine 0).read [.token .header ['=', '='], .gap [' '],
      .token (.identifier (String.ofList name)) name] ('\n' :: rest) := by
  change (Canonical.inLine 0).header ('=' :: '=' :: ' ' :: (name ++ '\n' :: rest)) = _
  have hread : readUntil (fun b cs => State.endsName cs || b.atComment cs)
      ((Canonical.inLine 0).behind.past (['=', '='] ++ [' '])) (name ++ '\n' :: rest) =
      (name, '\n' :: rest) := h.read_append rest
  have hne : name.isEmpty = false := by simpa using h.ne_nil
  unfold State.header
  simp only [List.take_succ_cons, List.take_zero, List.drop_succ_cons, List.drop_zero,
    h.span_spacer, hread, hne]
  rfl

/-- The tokens of an arrow in front of the name. -/
theorem structural_goto : (Canonical.inLine 0).structural '-' ('>' :: ' ' :: (name ++ '\n' :: rest)) =
    (Canonical.inLine 0).read ([.token (.goto "->") ['-', '>'], .gap [' ']] ++
      if Text.allBlank name then [.gap name] else Piece.trimmed .identifier name) ('\n' :: rest) := by
  change (Canonical.inLine 0).goto ('-' :: '>' :: ' ' :: (name ++ '\n' :: rest)) = _
  have hread : readUntil (fun b cs => atLineEnd cs || b.atComment cs)
      ((Canonical.inLine 0).behind.past (['-', '>'] ++ [' '])) (name ++ '\n' :: rest) =
      (name, '\n' :: rest) := h.read_target rest
  unfold State.goto
  simp only [List.take_succ_cons, List.take_zero, List.drop_succ_cons, List.drop_zero,
    h.span_spacer, hread]

end HeaderName

/-- Outside of replicas nothing that is read begins with a name. -/
theorem aimed_run {s : State} (hs : s.mode ≠ .replica) (cs : List Char) (p : Position) :
    Aimed (Piece.place p (Piece.settle (run s cs))) := by
  obtain ⟨body, f, hrun, hbody, hf⟩ := readsAll_run s cs
  rw [hrun, Piece.settle_append (mark_not_mem_closing f.level), Piece.place_append,
    Piece.place_closing]
  refine (((Piece.settled_settle hbody hf).1 hs).aimed_place p).append (.of_nameless ?_)
  simp [Kind.isName, or_imp, forall_and]

/-- The name that the tokens give to a header is all that stands between the header and the end of
its line. -/
theorem headerName_of_kinds {name : String} {kinds : List Kind}
    (h : (tokenize ("== " ++ name ++ "\n")).map Token.kind =
      .header :: .identifier name :: kinds) : HeaderName name.toList := by
  have hsource : ("== " ++ name ++ "\n").toList = '=' :: '=' :: ' ' :: (name.toList ++ ['\n']) := by
    simp
  rw [tokenize_section ⟨_, hsource, rfl⟩, hsource, Canonical.run_scan rfl rfl] at h
  generalize hline : name.toList ++ ['\n'] = line at h
  have hsplit := List.takeWhile_append_dropWhile (p := isSpacer) (l := line)
  have hspacers := isSpacer_of_mem_takeWhile line
  have hheader : (Canonical.inLine 0).scan '=' ('=' :: ' ' :: line) =
      (Canonical.inLine 0).header ('=' :: '=' :: ' ' :: line) := rfl
  have hbegin : (' ' :: line).takeWhile isSpacer = ' ' :: line.takeWhile isSpacer ∧
      (' ' :: line).dropWhile isSpacer = line.dropWhile isSpacer := ⟨rfl, rfl⟩
  rw [hheader, State.header] at h
  simp only [List.take_succ_cons, List.take_zero, List.drop_succ_cons, List.drop_zero, hbegin] at h
  generalize line.takeWhile isSpacer = spacers at h hsplit hspacers
  generalize line.dropWhile isSpacer = rest at h hsplit
  have hinLine := inLine_readUntil (fun b cs => State.endsName cs || b.atComment cs) (fun _ _ => rfl)
    ((Canonical.inLine 0).behind.past (['=', '='] ++ ' ' :: spacers)) rest
  have happend := readUntil_append (fun b cs => State.endsName cs || b.atComment cs)
    ((Canonical.inLine 0).behind.past (['=', '='] ++ ' ' :: spacers)) rest
  generalize hr : readUntil (fun b cs => State.endsName cs || b.atComment cs)
    ((Canonical.inLine 0).behind.past (['=', '='] ++ ' ' :: spacers)) rest = r at h hinLine happend
  obtain ⟨text, left⟩ := r
  have hmode : ∀ pieces, ((Canonical.inLine 0).read pieces left).state.mode ≠ .replica :=
    fun _ => (by decide : Mode.structural ≠ .replica)
  have hmarks : Piece.mark .replicaEnd ∉ [Piece.token .header ['=', '='], .gap (' ' :: spacers)] ++
      if text.isEmpty then [] else [.token (.identifier (String.ofList text)) text] := by
    split <;> simp [Piece.token, Piece.gap, Piece.mark]
  rw [State.pieces_read, State.rest_read, settle_append_run hmarks (hmode _), Piece.place_append,
    List.map_append] at h
  cases text with
  | nil =>
    -- what comes next begins with no name
    obtain ⟨t, ts, hts, ht, -⟩ := List.map_eq_cons_iff.1 (List.cons.inj h).2
    have hname := (hts ▸ aimed_run (hmode _) left _).head t (by simp)
    rw [ht] at hname
    cases hname
  | cons c text =>
    have hname : String.ofList (c :: text) = name := by
      have hkind := (List.cons.inj (List.cons.inj h).2).1
      simpa using hkind
    subst hname
    rw [String.toList_ofList] at hline ⊢
    have hends : EndsLine (spacers ++ (c :: text) ++ left) := by
      rw [List.append_assoc, happend, hsplit, ← hline]
      exact List.getLast?_concat
    have hleft := hends.after_inLine ((inLine_of_spacers hspacers).append hinLine)
    have hlength := congrArg List.length (hline.trans (hsplit.symm.trans (by rw [← happend])))
    simp only [List.length_append, List.length_cons, List.length_nil] at hlength
    have hpos := List.length_pos_iff.2 hleft.ne_nil
    obtain rfl : spacers = [] := List.eq_nil_of_length_eq_zero (by omega)
    obtain ⟨d, rfl⟩ := List.length_eq_one_iff.1 (by omega : left.length = 1)
    obtain rfl : d = '\n' := Option.some.inj hleft
    refine ⟨List.cons_ne_nil _ _, ?_⟩
    rw [happend]
    exact hr

end Lexer

/-- The kinds of the tokens of such a section. Only the target of its arrow is trimmed. -/
theorem kinds_selfReference {name : String} (h : Lexer.HeaderName name.toList) :
    (tokenize (selfReference name)).map Token.kind =
      [.header, .identifier name, .newline, .goto "->"] ++
        (if Text.isBlankText name then [] else [.identifier (Text.trimmed name)]) ++
        [.newline, .eof] := by
  have hsource : (selfReference name).toList = '=' :: '=' :: ' ' :: (name.toList ++
      '\n' :: '-' :: '>' :: ' ' :: (name.toList ++ ['\n'])) := by
    simp [selfReference]
  have hend : Lexer.run (Canonical.lineState false 0) [] = [.mark .eof] := by
    rw [Lexer.run]
    rfl
  have hgoto : Lexer.run (Canonical.lineState false 0)
      ('-' :: '>' :: ' ' :: (name.toList ++ ['\n'])) = .gap [] ::
        ([.token (.goto "->") ['-', '>'], .gap [' ']] ++
          (if Text.allBlank name.toList then [.gap name.toList]
            else Piece.trimmed .identifier name.toList) ++ [Canonical.lineFeed, .mark .eof]) := by
    refine (@Canonical.run_same_level 0 '-' _ false rfl rfl).trans ?_
    rw [if_neg Bool.false_ne_true, Canonical.run_line rfl (h.structural_goto []), hend]
    rfl
  have hrun := Canonical.run_line rfl (h.structural_header
    ('-' :: '>' :: ' ' :: (name.toList ++ ['\n'])))
  rw [hgoto, ← hsource] at hrun
  have hmarks : Piece.mark .replicaEnd ∉
      Lexer.run (Canonical.inLine 0) (selfReference name).toList := by
    rw [hrun]
    split <;> simp [Piece.token, Piece.gap, Piece.mark, Canonical.lineFeed, Piece.trimmed]
  have hsettle := @Piece.foldr_pushSettled [] _ hmarks (by simp)
  rw [List.append_nil] at hsettle
  rw [tokenize_section ⟨_, hsource, rfl⟩, Piece.settle, hsettle, hrun, Piece.kinds_place,
    Text.isBlankText]
  split <;> simp [Piece.kinds, Piece.token, Piece.gap, Piece.mark, Canonical.lineFeed,
    Piece.trimmed, Text.trimmed]

/-! ## Reading and checking such a section -/

/-- One section and nothing before its header. -/
theorem parse_section {header named eof : Token} {name : String} {inside : List Token}
    (hh : header.kind = .header) (hn : named.kind = .identifier name) (he : eof.kind = .eof)
    (hi : ∀ t ∈ inside, t.kind ≠ .header ∧ t.kind ≠ .eof) :
    parse (header :: named :: (inside ++ [eof])) =
      let block := parseBlock [] [] inside
      let extent := (Token.extent (header :: named :: inside)).getD header.span
      ⟨⟨[⟨name, [], block.statements, extent⟩]⟩,
        block.diagnostics ++ looseTags block.dangling⟩ := by
  have hall : ∀ t ∈ header :: named :: inside, decide (t.kind ≠ .eof) = true := by
    simp only [List.mem_cons, decide_eq_true_eq]
    rintro t (rfl | rfl | ht)
    · rw [hh]
      nofun
    · rw [hn]
      nofun
    · exact (hi t ht).2
  have hend : (header :: named :: (inside ++ [eof])).takeWhile (fun t => decide (t.kind ≠ .eof)) =
      header :: named :: inside := (@Canonical.span_append _ _ _ [] _ hall (by simpa using he)).1
  have hinside := Canonical.windows_append_inner (fun t ht => (hi t ht).1) []
  rw [List.append_nil] at hinside
  obtain ⟨_, span⟩ := named
  obtain rfl : _ = Kind.identifier name := hn
  unfold parse
  rw [hend]
  simp [windows, hh, hinside, parseWindows]

theorem preorders_gotos (gotos : List Goto) :
    Statement.preorders (gotos.map .goto) = gotos.map .goto := by
  induction gotos with
  | nil => rfl
  | cons g gotos ih => simp [Statement.preorders, Statement.preorder, ih]

/-- A story of one section that holds gotos and nothing else. -/
theorem validate_gotos (name : String) (gotos : List Goto) (extent : Span) :
    validate ⟨[⟨name, [], gotos.map .goto, extent⟩]⟩ =
      (if gotos.isEmpty then [⟨.emptySection name, extent⟩] else []) ++
        ((gotos.filter fun g => Text.lowercase g.target ≠ Text.lowercase name).map fun g =>
          ⟨.unknownTarget g.target, g.span⟩) ++
        if Text.lowerLetters name = "main" ∨
          Text.lowercase name ∈ gotos.map (fun g => Text.lowercase g.target) then []
        else [⟨.unreferencedSection name, extent⟩] := by
  generalize hs : (⟨name, [], gotos.map .goto, extent⟩ : Section) = s
  have hname : s.name = name := by rw [← hs]
  have hspan : s.span = extent := by rw [← hs]
  have hpreorder : s.preorder = gotos.map .goto := by
    rw [Section.preorder, ← hs, preorders_gotos]
  have hgotos : Story.gotos ⟨[s]⟩ = gotos := by
    simp [Story.gotos, Story.preorder, hpreorder, List.filterMap_map, Function.comp_def,
      Statement.goto?]
  have hfindings : s.findings = if gotos.isEmpty then [⟨.emptySection name, extent⟩] else [] := by
    have hempty : s.statements.isEmpty = gotos.isEmpty := by rw [← hs, List.isEmpty_map]
    have hsilent : (gotos.map Statement.goto).flatMap (Statement.findings name) = [] := by
      simp [Statement.findings]
    rw [Section.findings, hempty, hpreorder, hname, hspan, hsilent, List.append_nil]
  have hunknown : unknownTargets ⟨[s]⟩ =
      (gotos.filter fun g => Text.lowercase g.target ≠ Text.lowercase name).map fun g =>
        ⟨.unknownTarget g.target, g.span⟩ := by
    simp [unknownTargets, hgotos, Section.key, hname]
  have hunreferenced : unreferencedSections ⟨[s]⟩ =
      if Text.lowerLetters name = "main" ∨
        Text.lowercase name ∈ gotos.map (fun g => Text.lowercase g.target) then []
      else [⟨.unreferencedSection name, extent⟩] := by
    simp only [unreferencedSections, hgotos, Section.isMain, Section.mainName, Section.key,
      List.filter_cons, hname, List.filter_nil]
    by_cases hmain : Text.lowerLetters name = "main"
    · simp [hmain]
    · split <;> simp_all
  have hduplicate : duplicateSections [s] = [] := by simp [duplicateSections, groups]
  rw [validate, hduplicate, hunknown, hunreferenced, List.flatMap_singleton, hfindings,
    List.nil_append]

/-- An arrow at the end of its line has no target. -/
theorem readItem_goto_nothing {arrow line : Token} {sign : String} (ha : arrow.kind = .goto sign)
    (hl : line.kind = .newline) (ts : List Token) :
    readItem arrow (line :: ts) =
      { item := .skipped
        diagnostics := [⟨.gotoWithoutTarget, arrow.span⟩]
        rest := line :: ts } := by
  obtain ⟨_, span⟩ := line
  obtain rfl : _ = Kind.newline := hl
  unfold readItem
  rw [ha]
  rfl

/-- An arrow before a name that is not blank leads to it, and only blanks at its ends are lost. -/
theorem readItem_goto_name {arrow target : Token} {sign name : String}
    (ha : arrow.kind = .goto sign) (ht : target.kind = .identifier (Text.trimmed name))
    (hb : Text.isBlankText name = false) (ts : List Token) :
    readItem arrow (target :: ts) =
      { item := .goto ⟨Text.trimmed name, [], arrow.span.through target.span⟩, rest := ts } := by
  have hidem : Text.trimmed (Text.trimmed name) = Text.trimmed name := by
    rw [Text.trimmed, Text.trimmed, String.toList_ofList, (Text.isTrimmed_trim _).trim_eq]
  have hblank : Text.isBlankText (Text.trimmed name) = false := by
    rw [Text.isBlankText, Text.trimmed, String.toList_ofList]
    exact Text.not_allBlank_trim hb
  obtain ⟨_, span⟩ := target
  obtain rfl : _ = Kind.identifier _ := ht
  have htarget : readTarget (⟨.identifier (Text.trimmed name), span⟩ :: ts) =
      some (Text.trimmed name, span, ts) := by
    simp [readTarget, hidem, hblank]
  unfold readItem
  rw [ha]
  simp only [htarget]

/-- What such a section holds: a goto to the trimmed name, unless the name is blank. -/
theorem parse_selfReference {name : String} (h : Lexer.HeaderName name.toList) :
    ∃ (gotos : List Goto) (extent : Span),
      (parseSource (selfReference name)).story = ⟨[⟨name, [], gotos.map .goto, extent⟩]⟩ ∧
      gotos.map Goto.target = (if Text.isBlankText name then [] else [Text.trimmed name]) ∧
      (Text.isBlankText name = false → (parseSource (selfReference name)).diagnostics = []) := by
  have hkinds := kinds_selfReference h
  rw [parseSource]
  generalize tokenize (selfReference name) = tokens at hkinds
  obtain ⟨header, ts, rfl, hh, hts⟩ := List.map_eq_cons_iff.1 hkinds
  obtain ⟨named, us, rfl, hn, hus⟩ := List.map_eq_cons_iff.1 hts
  obtain ⟨line, vs, rfl, hl, hvs⟩ := List.map_eq_cons_iff.1 hus
  obtain ⟨arrow, ws, rfl, ha, hws⟩ := List.map_eq_cons_iff.1 hvs
  obtain ⟨target, xs, rfl, ht, hxs⟩ := List.map_eq_append_iff.1 hws
  obtain ⟨line', ys, rfl, hl', hys⟩ := List.map_eq_cons_iff.1 hxs
  obtain ⟨eof, zs, rfl, he, hzs⟩ := List.map_eq_cons_iff.1 hys
  obtain rfl := List.map_eq_nil_iff.1 hzs
  have hinside : ∀ t ∈ line :: arrow :: (target ++ [line']), t.kind ≠ .header ∧ t.kind ≠ .eof := by
    have hmem : ∀ t ∈ target, ∃ n, t.kind = .identifier n := by
      intro t hmem
      have hk := List.mem_map_of_mem (f := Token.kind) hmem
      rw [ht] at hk
      split at hk
      · cases hk
      · exact ⟨_, List.mem_singleton.1 hk⟩
    simp only [List.mem_cons, List.mem_append, List.not_mem_nil, or_false]
    rintro t (rfl | rfl | hmem' | rfl)
    · simp [hl]
    · simp [ha]
    · obtain ⟨n, hk⟩ := hmem t hmem'
      simp [hk]
    · simp [hl']
  have hparse := parse_section hh hn he hinside
  rw [List.cons_append, List.cons_append, List.append_assoc, List.singleton_append,
    Canonical.parseBlock_newline hl] at hparse
  rw [hparse]
  have hlast : ∀ tags, parseBlock tags [] [line'] = ⟨[], tags, []⟩ := by
    intro tags
    rw [Canonical.parseBlock_newline hl', parseBlock_nil]
    rfl
  by_cases hb : Text.isBlankText name = true
  · rw [if_pos hb] at ht
    obtain rfl := List.map_eq_nil_iff.1 ht
    have hread := readItem_goto_nothing ha hl' []
    rw [List.nil_append, parseBlock_skipped (by rw [hread]), hread, hlast]
    exact ⟨[], _, rfl, by rw [if_pos hb]; rfl, fun hn => by rw [hb] at hn; cases hn⟩
  · rw [if_neg hb] at ht
    obtain ⟨u, us, rfl, hu, hus⟩ := List.map_eq_cons_iff.1 ht
    obtain rfl := List.map_eq_nil_iff.1 hus
    have hread := readItem_goto_name ha hu (Bool.eq_false_iff.2 hb) [line']
    have hgoto := @Canonical.parseBlock_item [] [] _ _ _ _ _ _ hread (parseBlock_nil [] []) rfl rfl
    rw [List.singleton_append, hgoto, hlast]
    refine ⟨[⟨Text.trimmed name, [], arrow.span.through u.span⟩], _, rfl, ?_, fun _ => rfl⟩
    rw [if_neg hb]
    rfl

/-- A section that sends to itself by its name is the one section of its story and bears that name.
It is reached, and nothing is said about it, if the name has no blank at its ends. If it has one, the
target of the goto lacks it, or there is no goto if the name is blank: the target is unknown and the
section unreferenced. -/
theorem selfReference_reached (name : String) (h : IsSectionName name) :
    let parsed := parseSource (selfReference name)
    ∃ (gotos : List Goto) (extent : Span),
      parsed.story = ⟨[⟨name, [], gotos.map .goto, extent⟩]⟩ ∧
      gotos.map Goto.target = (if Text.isBlankText name then [] else [Text.trimmed name]) ∧
      if Text.trimmed name = name then
        gotos.map Goto.target = [name] ∧ parsed.diagnostics = [] ∧ validate parsed.story = []
      else
        (∀ g ∈ gotos, ⟨.unknownTarget g.target, g.span⟩ ∈ validate parsed.story) ∧
          ⟨.unreferencedSection name, extent⟩ ∈ validate parsed.story := by
  have hname := Lexer.headerName_of_kinds h
  obtain ⟨gotos, extent, hstory, htargets, hsilent⟩ := parse_selfReference hname
  refine ⟨gotos, extent, hstory, htargets, ?_⟩
  rw [hstory, validate_gotos]
  split
  · next htrim =>
    have hb : Text.isBlankText name = false := by
      rw [← Bool.not_eq_true]
      intro hb
      rw [Text.isBlankText, ← Text.trim_eq_nil_iff] at hb
      rw [Text.trimmed, hb] at htrim
      exact hname.ne_nil (by rw [← htrim]; rfl)
    rw [hb, if_neg Bool.false_ne_true, htrim] at htargets
    obtain ⟨g, gs, rfl, hg, hgs⟩ := List.map_eq_cons_iff.1 htargets
    obtain rfl := List.map_eq_nil_iff.1 hgs
    refine ⟨htargets, hsilent hb, ?_⟩
    simp [hg]
  · next htrim =>
    have hlower : Text.lowercase (Text.trimmed name) ≠ Text.lowercase name :=
      fun he => htrim ((Text.lowercase_trimmed_eq_iff name).1 he)
    have htarget : ∀ g ∈ gotos, Text.lowercase g.target ≠ Text.lowercase name := by
      intro g hg
      have hmem : g.target ∈ gotos.map Goto.target := List.mem_map_of_mem hg
      rw [htargets] at hmem
      split at hmem
      · cases hmem
      · rwa [List.mem_singleton.1 hmem]
    have hmain : Text.lowerLetters name ≠ "main" := fun he => htrim (Text.trimmed_of_lowerLetters he)
    constructor
    · intro g hg
      refine List.mem_append_left _ (List.mem_append_right _ (List.mem_map.2 ⟨g, ?_, rfl⟩))
      exact List.mem_filter.2 ⟨hg, by simpa using htarget g hg⟩
    · refine List.mem_append_right _ ?_
      have hunreached : ¬(Text.lowerLetters name = "main" ∨
          Text.lowercase name ∈ gotos.map fun g => Text.lowercase g.target) := by
        rintro (he | hmem)
        · exact hmain he
        · obtain ⟨g, hg, he⟩ := List.mem_map.1 hmem
          exact htarget g hg he
      rw [if_neg hunreached]
      exact List.mem_singleton_self _

/-- A name with an escaped comment sign and a blank inside. -/
theorem selfReference_reached_escaped :
    let name := "a\\#\u00a0b"
    IsSectionName name ∧ ∃ (gotos : List Goto) (extent : Span),
      (parseSource (selfReference name)).story = ⟨[⟨name, [], gotos.map .goto, extent⟩]⟩ ∧
      gotos.map Goto.target = [name] ∧ (parseSource (selfReference name)).diagnostics = [] ∧
      validate (parseSource (selfReference name)).story = [] := by
  intro name
  have hname : IsSectionName name := by decide +kernel
  obtain ⟨gotos, extent, hstory, -, hreached⟩ := selfReference_reached name hname
  have htrim : Text.trimmed name = name := by decide +kernel
  rw [if_pos htrim] at hreached
  exact ⟨hname, gotos, extent, hstory, hreached⟩

/-- A header takes a name that ends with a no-break space, and no goto can lead to it. -/
theorem selfReference_lost_blank :
    let name := "a\u00a0"
    let found := validate (parseSource (selfReference name)).story
    IsSectionName name ∧ ⟨.unknownTarget "a", ⟨⟨7, 2, 1⟩, ⟨11, 2, 5⟩⟩⟩ ∈ found ∧
      ⟨.unreferencedSection name, ⟨⟨0, 1, 1⟩, ⟨11, 2, 5⟩⟩⟩ ∈ found := by
  decide +kernel

end StoryScript

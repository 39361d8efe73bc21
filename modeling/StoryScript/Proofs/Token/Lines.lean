import StoryScript.Proofs.Token.Units
/-!
# The lexer reads line by line

No step looks over the end of its line. So the steps over a text that ends with a line end are the same
whatever follows (`step_append`), and a run goes through such a text to a state that is all it tells
the rest (`run_append`). In that state a line is about to begin (`fresh_walk`).
-/

namespace StoryScript

open Token (Kind)

/-- The text ends with a line end. -/
def EndsLine (cs : List Char) : Prop := cs.getLast? = some '\n'

instance (cs : List Char) : Decidable (EndsLine cs) := inferInstanceAs (Decidable (_ = _))

namespace EndsLine

variable {as bs cs ds : List Char}

theorem ne_nil (h : EndsLine cs) : cs ≠ [] := by
  rintro rfl
  cases h

theorem mem (h : EndsLine cs) : '\n' ∈ cs := List.mem_of_getLast? h

theorem right (h : EndsLine (as ++ bs)) (hb : bs ≠ []) : EndsLine bs := by
  rw [EndsLine, List.getLast?_append, List.getLast?_eq_some_getLast hb, Option.some_or] at h
  rw [EndsLine, List.getLast?_eq_some_getLast hb, h]

theorem append_left (h : EndsLine bs) (as : List Char) : EndsLine (as ++ bs) := by
  rw [EndsLine, List.getLast?_append, show bs.getLast? = some '\n' from h]
  rfl

/-- What is read of a line before its end leaves the end. -/
theorem after_inLine (h : EndsLine (as ++ bs)) (ha : InLine as) : EndsLine bs := by
  refine h.right ?_
  rintro rfl
  rw [List.append_nil] at h
  exact ha h.mem

theorem tail {c : Char} (h : EndsLine (c :: cs)) (hc : c ≠ '\n') : EndsLine cs :=
  @after_inLine [c] cs h (by simpa [InLine] using hc.symm)

/-- A mark lies before the end of the line or not at all. -/
theorem cut {mark es : List Char} (h : EndsLine cs) (hm : InLine mark)
    (he : cs ++ ds = mark ++ es) : ∃ fs, cs = mark ++ fs ∧ EndsLine fs ∧ es = fs ++ ds := by
  rcases List.append_eq_append_iff.1 he with ⟨as, has, -⟩ | ⟨fs, rfl, rfl⟩
  · exact absurd (has ▸ List.mem_append_left as h.mem) hm
  · exact ⟨fs, rfl, h.after_inLine hm, rfl⟩

end EndsLine

/-! ## What a place looks like -/

section
variable {cs : List Char} (h : EndsLine cs) (ds : List Char)
include h

theorem atSeparator_append : atSeparator (cs ++ ds) = atSeparator cs := by
  cases cs with
  | nil => exact absurd rfl h.ne_nil
  | cons c cs => rfl

theorem atNewline_append : atNewline (cs ++ ds) = atNewline cs := by
  cases cs with
  | nil => exact absurd rfl h.ne_nil
  | cons c cs =>
    by_cases hc : c = '\n'
    · subst hc
      rfl
    · cases cs with
      | nil => exact absurd rfl (h.tail hc).ne_nil
      | cons d cs =>
        simp only [List.cons_append]
        unfold atNewline
        split <;> simp_all

theorem atLineEnd_append : atLineEnd (cs ++ ds) = atLineEnd cs := by
  have hnew := atNewline_append h ds
  cases cs with
  | nil => exact absurd rfl h.ne_nil
  | cons c cs => exact hnew

theorem endsName_append : Lexer.State.endsName (cs ++ ds) = Lexer.State.endsName cs := by
  have hend := atLineEnd_append h ds
  unfold Lexer.State.endsName
  cases cs with
  | nil => exact absurd rfl h.ne_nil
  | cons c cs => exact congrArg (· || _) hend

end

/-! ## Marks -/

/-- What follows a text that ends with a line end changes no mark in it. -/
theorem keepsMarks_append (ds : List Char) :
    KeepsMarks fun cs fs => EndsLine cs ∧ fs = cs ++ ds where
  left mark h hm hcs := by
    obtain ⟨hends, rfl⟩ := h
    rw [hcs] at hends ⊢
    exact ⟨_, List.append_assoc .., hends.after_inLine hm.1, rfl⟩
  right mark h hm hds := by
    obtain ⟨hends, rfl⟩ := h
    obtain ⟨es, hcs, hes, rfl⟩ := hends.cut hm.1 hds
    exact ⟨es, hcs, hes, rfl⟩
  atSeparator h := by
    obtain ⟨hends, rfl⟩ := h
    exact atSeparator_append hends ds

theorem alike_append {cs : List Char} (h : EndsLine cs) (ds : List Char) : Alike cs (cs ++ ds) :=
  (keepsMarks_append ds).alike ⟨h, rfl⟩

/-! ## Readers -/

section
variable {cs : List Char} (h : EndsLine cs) (ds : List Char)
include h

theorem spacers_append : (cs ++ ds).takeWhile isSpacer = cs.takeWhile isSpacer ∧
    (cs ++ ds).dropWhile isSpacer = cs.dropWhile isSpacer ++ ds ∧
    EndsLine (cs.dropWhile isSpacer) := by
  have hsp := inLine_of_spacers (isSpacer_of_mem_takeWhile cs)
  have hsplit := List.takeWhile_append_dropWhile (p := isSpacer) (l := cs)
  have hends : EndsLine (cs.dropWhile isSpacer) := EndsLine.after_inLine (hsplit.symm ▸ h) hsp
  have hdrop : (cs ++ ds).dropWhile isSpacer = cs.dropWhile isSpacer ++ ds := by
    rw [List.dropWhile_append, if_neg (by simpa using hends.ne_nil)]
  have htake := List.takeWhile_append_dropWhile (p := isSpacer) (l := cs ++ ds)
  rw [hdrop, ← List.append_assoc] at htake
  refine ⟨?_, hdrop, hends⟩
  exact List.append_cancel_right ((List.append_cancel_right htake).trans hsplit.symm)

theorem readUntil_split (stop : Lookbehind → List Char → Bool)
    (hs : ∀ b cs, EndsLine cs → stop b (cs ++ ds) = stop b cs)
    (hn : ∀ b cs, stop b ('\n' :: cs) = true) (b : Lookbehind) :
    ∃ text rest, readUntil stop b cs = (text, rest) ∧
      readUntil stop b (cs ++ ds) = (text, rest ++ ds) ∧ EndsLine rest := by
  have happ := readUntil_append stop b cs
  refine ⟨_, _, rfl, ?_, EndsLine.after_inLine (happ.symm ▸ h) (inLine_readUntil stop hn b cs)⟩
  clear happ
  induction cs generalizing b with
  | nil => exact absurd rfl h.ne_nil
  | cons c cs ih =>
    rw [List.cons_append, readUntil, readUntil, ← List.cons_append, hs b (c :: cs) h]
    by_cases hstop : stop b (c :: cs) = true
    · rw [if_pos hstop, if_pos hstop]
    · have hc : c ≠ '\n' := fun hc => hstop (hc ▸ hn b cs)
      rw [if_neg hstop, if_neg hstop, ih (h.tail hc)]

theorem readText_split (stop : Lookbehind → List Char → Bool)
    (hs : ∀ b cs, EndsLine cs → stop b (cs ++ ds) = stop b cs) (nesting : Option CallNesting)
    (b : Lookbehind) :
    ∃ text rest, readText stop nesting b cs = (text, rest) ∧
      readText stop nesting b (cs ++ ds) = (text, rest ++ ds) ∧ EndsLine rest := by
  have happ := readText_append stop nesting b cs
  refine ⟨_, _, rfl, ?_, EndsLine.after_inLine (happ.symm ▸ h) (inLine_readText stop nesting b cs)⟩
  clear happ
  induction cs generalizing nesting b with
  | nil => exact absurd rfl h.ne_nil
  | cons c cs ih =>
    by_cases hend : atLineEnd (c :: cs) = true
    · have hend' : atLineEnd (c :: (cs ++ ds)) = true := by
        rw [← List.cons_append, atLineEnd_append h, hend]
      cases nesting <;> rw [List.cons_append, readText, readText, if_pos hend, if_pos hend'] <;> rfl
    · have htail := h.tail (ne_newline_of_not_atLineEnd hend)
      cases nesting with
      | some n =>
        rw [List.cons_append, readText, readText, ← List.cons_append, atLineEnd_append h,
          if_neg hend, if_neg hend, ih htail]
      | none =>
        rw [List.cons_append, readText, readText, ← List.cons_append, atLineEnd_append h,
          if_neg hend, if_neg hend, (alike_append h ds).atInlineCall, hs b _ h, ih htail, ih htail]
        repeat' split
        all_goals rfl

/-- The same list, with more text behind what it leaves. -/
theorem readArguments_split (depth : Nat) (quoted : Bool) (b : Lookbehind) :
    readArguments depth quoted b (cs ++ ds) =
        { readArguments depth quoted b cs with
          rest := (readArguments depth quoted b cs).rest ++ ds } ∧
      EndsLine (readArguments depth quoted b cs).rest := by
  have happ := readArguments_append depth quoted b cs
  refine ⟨?_, EndsLine.after_inLine (happ.symm ▸ h) (inLine_readArguments depth quoted b cs)⟩
  clear happ
  induction cs generalizing depth quoted b with
  | nil => exact absurd rfl h.ne_nil
  | cons c cs ih =>
    rw [List.cons_append, readArguments, readArguments, ← List.cons_append, atLineEnd_append h]
    by_cases hend : atLineEnd (c :: cs) = true
    · rw [if_pos hend, if_pos hend]
    · rw [if_neg hend, if_neg hend]
      simp only [ih (h.tail (ne_newline_of_not_atLineEnd hend))]
      repeat' split
      all_goals rfl

end

/-! ## Scanners -/

/-- A piece without the text behind it, which a list of arguments keeps. -/
def Piece.alone : Piece → Piece
  | covered text kinds => covered text kinds
  | arguments list => arguments { list with rest := [] }

namespace Lexer

/-- The step reads the same as another and comes to the same state, with more text left. -/
structure Step.Extends (r' r : Step) (ds : List Char) : Prop where
  pieces : r'.pieces.map Piece.alone = r.pieces.map Piece.alone
  state : r'.state = r.state
  rest : r'.rest = r.rest ++ ds

/-- The same for a step that stays in its line. -/
structure Step.Continues (r' r : Step) (ds : List Char) : Prop extends r'.Extends r ds where
  ends : EndsLine r.rest

/-- The step reads its pieces and nothing else, so what is known of the text before goes past them. -/
def Step.Passes (r : Step) (b : Lookbehind) : Prop := r.state.behind = b.past (Piece.texts r.pieces)

namespace State

variable (s : State) {cs : List Char} (ds : List Char)

theorem continues_read (pieces : List Piece) {rest : List Char} (h : EndsLine rest) :
    (s.read pieces (rest ++ ds)).Continues (s.read pieces rest) ds := ⟨⟨rfl, rfl, rfl⟩, h⟩

theorem continues_openComment {b : Lookbehind} (hm : b.atCommentOpen cs = true)
    (h : EndsLine cs) : (s.openComment (cs ++ ds)).Continues (s.openComment cs) ds := by
  obtain ⟨es, rfl⟩ := Lookbehind.cons_of_atCommentOpen hm
  have hes : EndsLine es := (h.tail (by decide)).tail (by decide)
  exact continues_read _ ds _ hes

theorem continues_lineComment (h : EndsLine cs) :
    (s.lineComment (cs ++ ds)).Continues (s.lineComment cs) ds := by
  obtain ⟨text, rest, hr, hr', hrest⟩ := readUntil_split h ds (fun _ cs => atLineEnd cs)
    (fun _ _ h => atLineEnd_append h ds) (fun _ _ => rfl) s.behind
  rw [lineComment, lineComment, hr, hr']
  exact continues_read s ds _ hrest

theorem continues_commentLine (h : EndsLine cs) :
    (s.commentLine (cs ++ ds)).Continues (s.commentLine cs) ds := by
  obtain ⟨text, rest, hr, hr', hrest⟩ := readUntil_split h ds
    (fun b cs => atLineEnd cs || b.atCommentClose cs)
    (fun b _ h => by rw [atLineEnd_append h, (alike_append h ds).atCommentClose]) (fun _ _ => rfl)
    s.behind
  rw [commentLine, commentLine, hr, hr']
  dsimp only
  rw [(alike_append hrest ds).atCommentClose]
  split
  · next hclose =>
    obtain ⟨es, rfl⟩ := Lookbehind.cons_of_atCommentClose hclose
    have hes : EndsLine es := (hrest.tail (by decide)).tail (by decide)
    exact continues_read _ ds _ hes
  · exact continues_read s ds _ hrest

theorem continues_tag (kind : String → Kind) {es : List Char} (h : EndsLine es) :
    (s.tag kind ('@' :: (es ++ ds))).Continues (s.tag kind ('@' :: es)) ds := by
  obtain ⟨name, rest, hr, hr', hrest⟩ := readUntil_split h ds (fun _ cs => endsName cs)
    (fun _ _ h => endsName_append h ds) (fun _ _ => rfl) (s.behind.past ['@'])
  obtain ⟨value, rest', hv, hv', hrest'⟩ := readUntil_split hrest ds
    (fun b cs => atLineEnd cs || b.startsToken cs)
    (fun b _ h => by rw [atLineEnd_append h, (alike_append h ds).startsToken]) (fun _ _ => rfl)
    (s.behind.past (['@'] ++ name))
  unfold tag
  dsimp only [List.take, List.drop]
  rw [hr, hr']
  dsimp only
  rw [hv, hv']
  split
  · exact continues_read s ds _ h
  · exact continues_read s ds _ hrest'

theorem continues_call {es : List Char} (h : EndsLine es) :
    (s.call (callMark ++ (es ++ ds))).Continues (s.call (callMark ++ es)) ds := by
  obtain ⟨name, rest, hr, hr', hrest⟩ := readUntil_split h ds
    (fun b cs => endsName cs || b.atParenthesis cs)
    (fun b _ h => by rw [endsName_append h, (alike_append h ds).atParenthesis]) (fun _ _ => rfl)
    (s.behind.past callMark)
  unfold call
  simp only [List.take_left, List.drop_left]
  rw [hr, hr']
  dsimp only
  rw [(alike_append hrest ds).atParenthesis]
  split
  · next hp =>
    obtain ⟨fs, rfl⟩ := Lookbehind.cons_of_atParenthesis hp
    have hfs : EndsLine fs := hrest.tail (by decide)
    rw [List.cons_append, List.drop_one, List.tail_cons, List.drop_one, List.tail_cons]
    obtain ⟨hlist, hends⟩ := readArguments_split hfs ds 1 false
      ((s.behind.past (callMark ++ name)).next '(')
    rw [hlist]
    exact ⟨⟨rfl, rfl, rfl⟩, hends⟩
  · exact continues_read s ds _ hrest

theorem continues_header {es : List Char} (h : EndsLine es) :
    (s.header ('=' :: '=' :: (es ++ ds))).Continues (s.header ('=' :: '=' :: es)) ds := by
  obtain ⟨htake, hdrop, hends⟩ := spacers_append h ds
  obtain ⟨name, rest, hr, hr', hrest⟩ := readUntil_split hends ds
    (fun b cs => endsName cs || b.atComment cs)
    (fun b _ h => by rw [endsName_append h, (alike_append h ds).atComment]) (fun _ _ => rfl)
    (s.behind.past (['=', '='] ++ es.takeWhile isSpacer))
  unfold header
  dsimp only [List.take, List.drop]
  rw [htake, hdrop, hr, hr']
  exact continues_read s ds _ hrest

theorem continues_goto (c : Char) {es : List Char} (h : EndsLine es) :
    (s.goto (c :: '>' :: (es ++ ds))).Continues (s.goto (c :: '>' :: es)) ds := by
  obtain ⟨htake, hdrop, hends⟩ := spacers_append h ds
  obtain ⟨target, rest, hr, hr', hrest⟩ := readUntil_split hends ds
    (fun b cs => atLineEnd cs || b.atComment cs)
    (fun b _ h => by rw [atLineEnd_append h, (alike_append h ds).atComment]) (fun _ _ => rfl)
    (s.behind.past ([c, '>'] ++ es.takeWhile isSpacer))
  unfold goto
  dsimp only [List.take, List.drop]
  rw [htake, hdrop, hr, hr']
  exact continues_read s ds _ hrest

theorem continues_stray (c : Char) {es : List Char} (h : EndsLine es) :
    (s.stray c (es ++ ds)).Continues (s.stray c es) ds := by
  obtain ⟨text, rest, hr, hr', hrest⟩ := readUntil_split h ds
    (fun b cs => atLineEnd cs || b.startsToken cs)
    (fun b _ h => by rw [atLineEnd_append h, (alike_append h ds).startsToken]) (fun _ _ => rfl)
    (s.behind.next c)
  rw [stray, stray, hr, hr']
  exact continues_read s ds _ hrest

theorem continues_openBound (before : List Piece) {es : List Char} (h : EndsLine es) :
    (s.openBound before (boundMark ++ (es ++ ds))).Continues
      (s.openBound before (boundMark ++ es)) ds := by
  simp only [openBound, List.take_left, List.drop_left]
  exact continues_read _ ds _ h

theorem continues_choice {es : List Char} (h : EndsLine es) :
    (s.choice ('+' :: (es ++ ds))).Continues (s.choice ('+' :: es)) ds := by
  obtain ⟨htake, hdrop, hends⟩ := spacers_append h ds
  obtain ⟨text, rest, hr, hr', hrest⟩ := readText_split h ds (fun b cs => b.atComment cs)
    (fun b _ h => (alike_append h ds).atComment b) none (s.behind.past ['+'])
  unfold choice
  dsimp only [List.take, List.drop]
  rw [htake, hdrop, hr, hr', (keepsMarks_append ds).isPrefixOf boundMark (by decide) ⟨hends, rfl⟩]
  split
  · next hp =>
    obtain ⟨fs, hfs⟩ := List.isPrefixOf_iff_prefix.1 hp
    rw [← hfs] at hends ⊢
    rw [List.append_assoc]
    exact continues_openBound s ds _ (hends.after_inLine (by decide))
  · exact continues_read s ds _ hrest

theorem continues_choiceText (h : EndsLine cs) :
    (s.choiceText (cs ++ ds)).Continues (s.choiceText cs) ds := by
  obtain ⟨text, rest, hr, hr', hrest⟩ := readText_split h ds
    (fun b cs => b.atBound cs || b.atComment cs)
    (fun b _ h => by rw [(alike_append h ds).atBound, (alike_append h ds).atComment]) none s.behind
  have ha := alike_append h ds
  unfold choiceText
  rw [ha.atBound, ha.atCommentOpen, ha.atLineComment, hr, hr']
  split
  · next hb =>
    obtain ⟨es, rfl⟩ := Lookbehind.append_of_atBound hb
    rw [List.append_assoc]
    simp only [List.take_left, List.drop_left]
    exact continues_read _ ds _ (h.after_inLine (by decide))
  · split
    · next ho => exact continues_openComment s ds ho h
    · split
      · exact continues_lineComment s ds h
      · exact continues_read s ds _ hrest

theorem continues_openReplica {es : List Char} (h : EndsLine es) :
    (s.openReplica ('"' :: ' ' :: (es ++ ds))).Continues (s.openReplica ('"' :: ' ' :: es)) ds :=
  continues_read _ ds _ h

theorem continues_replica (h : EndsLine cs) :
    (s.replica (cs ++ ds)).Continues (s.replica cs) ds := by
  obtain ⟨text, rest, hr, hr', hrest⟩ := readText_split h ds
    (fun b cs => b.endsReplica cs || b.atComment cs)
    (fun b _ h => by rw [(alike_append h ds).endsReplica, (alike_append h ds).atComment]) none
    s.behind
  have ha := alike_append h ds
  unfold replica
  rw [ha.endsReplica, ha.atCommentOpen, ha.atLineComment, hr, hr']
  split
  · exact continues_read _ ds _ h
  · split
    · next ho => exact continues_openComment s ds ho h
    · split
      · exact continues_lineComment s ds h
      · exact continues_read s ds _ hrest

/-! ## Steps -/

theorem continues_ite {p : Prop} [Decidable p] {a b a' b' : Step} {ds : List Char}
    (ha : p → a'.Continues a ds) (hb : b'.Continues b ds) :
    (if p then a' else b').Continues (if p then a else b) ds := by
  split
  · next h => exact ha h
  · exact hb

theorem continues_structural {c : Char} (hc : c ≠ '\n') (h : EndsLine (c :: cs)) :
    (s.structural c (cs ++ ds)).Continues (s.structural c cs) ds := by
  apply structural_both (motive := fun _ r r' => r'.Continues r ds) (keepsMarks_append ds) ⟨h, rfl⟩
  case space => exact fun _ => continues_read s ds _ (h.tail hc)
  case openComment => exact fun hm => continues_openComment s ds hm h
  case lineComment => exact continues_lineComment s ds h
  case call =>
    rintro es - ⟨hes, rfl⟩
    exact continues_call s ds hes
  case choiceTag =>
    rintro es - ⟨hes, rfl⟩
    exact continues_tag s ds _ hes
  case tag =>
    rintro es - ⟨hes, rfl⟩
    exact continues_tag s ds _ hes
  case header =>
    rintro es - ⟨hes, rfl⟩
    exact continues_header s ds hes
  case goto =>
    rintro d es - - ⟨hes, rfl⟩
    exact continues_goto s ds d hes
  case choice =>
    rintro es - ⟨hes, rfl⟩
    exact continues_choice s ds hes
  case replica =>
    rintro es - ⟨hes, rfl⟩
    exact continues_openReplica s ds hes
  case bound =>
    rintro es - ⟨hes, rfl⟩
    exact continues_openBound s ds [] hes
  case stray => exact continues_stray s ds c (h.tail hc)

theorem ne_newline_of_not_atNewline {c : Char} (h : ¬ atNewline (c :: cs) = true) : c ≠ '\n' := by
  rintro rfl
  exact h rfl

theorem continues_scan {c : Char} (hn : ¬ atNewline (c :: cs) = true) (h : EndsLine (c :: cs)) :
    (s.scan c (cs ++ ds)).Continues (s.scan c cs) ds := by
  unfold scan
  rw [← List.cons_append]
  split
  · exact continues_commentLine s ds h
  · split
    · exact continues_structural s ds (ne_newline_of_not_atNewline hn) h
    · exact continues_replica s ds h
    · exact continues_choiceText s ds h

theorem extends_newline (h : atNewline cs = true) :
    (s.newline (cs ++ ds)).Extends (s.newline cs) ds := by
  rcases newline_of_atNewline h with ⟨es, rfl⟩ | ⟨es, rfl⟩
  · exact ⟨rfl, rfl, rfl⟩
  · exact ⟨rfl, rfl, rfl⟩

/-- A step that is not at a line end stays in its line, and reads the same whatever follows. -/
theorem continues_step {c : Char} (hn : ¬ atNewline (c :: cs) = true) (h : EndsLine (c :: cs)) :
    (s.step c (cs ++ ds)).Continues (s.step c cs) ds := by
  obtain ⟨htake, hdrop, hends⟩ := spacers_append h ds
  unfold step
  rw [← List.cons_append, atNewline_append h, htake, hdrop, if_neg hn, if_neg hn]
  refine continues_ite (fun _ => ?_) (continues_scan _ ds hn h)
  cases hd : (c :: cs).dropWhile isSpacer with
  | nil => exact absurd hd hends.ne_nil
  | cons d es =>
    rw [hd] at hends
    dsimp only [List.cons_append]
    rw [← List.cons_append, atNewline_append hends]
    by_cases hdn : atNewline (d :: es) = true
    · rw [if_pos hdn, if_pos hdn]
      exact continues_read _ ds _ hends
    · rw [if_neg hdn, if_neg hdn]
      unfold indentation
      rw [(alike_append hends ds).atLineComment]
      obtain ⟨⟨hp, hs, hr⟩, he⟩ := continues_scan _ ds hdn hends
      refine ⟨⟨?_, hs, hr⟩, he⟩
      rw [List.map_append, List.map_append, hp]

/-- A step in a text that ends its last line reads the same whatever follows. -/
theorem extends_step {c : Char} (h : EndsLine (c :: cs)) :
    (s.step c (cs ++ ds)).Extends (s.step c cs) ds := by
  by_cases hn : atNewline (c :: cs) = true
  · unfold step
    rw [← List.cons_append, atNewline_append h, if_pos hn, if_pos hn]
    exact extends_newline s ds hn
  · exact (continues_step s ds hn h).toExtends

/-! ## What the state knows of the text -/

theorem passes_ite {p : Prop} [Decidable p] {a b : Step} {l : Lookbehind} (ha : a.Passes l)
    (hb : b.Passes l) : (if p then a else b).Passes l := by
  split
  · exact ha
  · exact hb

theorem behind_leaveReplica : s.leaveReplica.behind = s.behind := by
  unfold leaveReplica
  split <;> rfl

theorem passes_structural (c : Char) (cs : List Char) : (s.structural c cs).Passes s.behind := by
  apply structural_cases (motive := fun _ r => r.Passes s.behind)
  -- whatever a scanner reads, it passes; three of them choose between two ways to read it
  case call => exact fun ds => passes_ite rfl rfl
  case choiceTag => exact fun ds => passes_ite rfl rfl
  case tag => exact fun ds => passes_ite rfl rfl
  case choice => exact fun ds => passes_ite rfl rfl
  all_goals intros; rfl

theorem passes_replica (cs : List Char) : (s.replica cs).Passes s.behind := by
  unfold replica
  refine passes_ite ?_ (passes_ite rfl (passes_ite rfl rfl))
  exact congrArg (Lookbehind.past · _) s.behind_leaveReplica

theorem passes_scan (c : Char) (cs : List Char) : (s.scan c cs).Passes s.behind := by
  unfold scan
  refine passes_ite (passes_ite rfl rfl) ?_
  split
  · exact passes_structural s c cs
  · exact passes_replica s (c :: cs)
  · exact passes_ite rfl (passes_ite rfl (passes_ite rfl rfl))

theorem behind_indentation (spacers rest : List Char) :
    (s.indentation spacers rest).2.behind = s.behind := by
  unfold indentation
  dsimp only
  split
  · rfl
  · exact s.behind_leaveReplica

theorem passes_step (c : Char) (cs : List Char) : (s.step c cs).Passes s.behind := by
  unfold step
  refine passes_ite rfl (passes_ite ?_ (passes_scan _ c cs))
  split
  · rfl
  · next d es _ =>
    refine passes_ite rfl ?_
    have hbehind := behind_indentation { s with freshLine := false }
      ((c :: cs).takeWhile isSpacer) (d :: es)
    generalize { s with freshLine := false }.indentation ((c :: cs).takeWhile isSpacer) (d :: es) =
      i at hbehind ⊢
    have hscan := passes_scan (i.2.past i.1) d es
    rw [Step.Passes] at hscan ⊢
    dsimp only at hbehind hscan ⊢
    rw [hscan, Piece.texts_append, Lookbehind.past_append, ← hbehind]
    rfl

/-- A line is about to begin. -/
structure Fresh (s : State) : Prop where
  freshLine : s.freshLine = true
  behind : s.behind = {}

end State

/-! ## Runs -/

/-- The pieces of a text and the state behind it. -/
def walk (s : State) : List Char → List Piece × State
  | [] => ([], s)
  | c :: cs =>
    let later := walk (s.step c cs).state (s.step c cs).rest
    ((s.step c cs).pieces ++ later.1, later.2)
termination_by cs => s.weight cs
decreasing_by exact State.weight_step_lt s c cs

/-- A run walks to the end of the source and closes there what is open. -/
theorem run_eq_walk (s : State) (cs : List Char) :
    run s cs = (walk s cs).1 ++ (walk s cs).2.finish := by
  fun_induction walk s cs with
  | case1 s => rw [run, List.nil_append]
  | case2 s c cs later ih => rw [run, ih, List.append_assoc]

end Lexer

/-- The text is made of lines, each with its end. -/
def WholeLines (cs : List Char) : Prop := cs = [] ∨ EndsLine cs

instance (cs : List Char) : Decidable (WholeLines cs) := inferInstanceAs (Decidable (_ ∨ _))

theorem WholeLines.right {as bs : List Char} (h : EndsLine (as ++ bs)) : WholeLines bs := by
  by_cases hb : bs = []
  · exact .inl hb
  · exact .inr (h.right hb)

theorem Lookbehind.past_of_endsLine {cs : List Char} (h : EndsLine cs) (b : Lookbehind) :
    b.past cs = {} := by
  obtain ⟨init, rfl⟩ := List.getLast?_eq_some_iff.1 h
  rw [past_append]
  rfl

namespace Lexer

/-- What follows whole lines is walked through from the state behind them. -/
theorem walk_append (s : State) {cs : List Char} (h : WholeLines cs) (ds : List Char) :
    (walk s (cs ++ ds)).1.map Piece.alone =
        ((walk s cs).1 ++ (walk (walk s cs).2 ds).1).map Piece.alone ∧
      (walk s (cs ++ ds)).2 = (walk (walk s cs).2 ds).2 := by
  fun_induction walk s cs with
  | case1 s => exact ⟨rfl, rfl⟩
  | case2 s c cs later ih =>
    have hline : EndsLine (c :: cs) := h.resolve_left (List.cons_ne_nil _ _)
    have hrest : WholeLines (s.step c cs).rest :=
      WholeLines.right ((s.splits_step c cs).texts_append.symm ▸ hline)
    obtain ⟨hp, hs, hr⟩ := s.extends_step ds hline
    obtain ⟨hpieces, hstate⟩ := ih hrest
    rw [List.cons_append, walk, hs, hr]
    refine ⟨?_, hstate⟩
    rw [List.map_append, hp, hpieces, ← List.map_append, ← List.append_assoc]

/-- So is a run. -/
theorem run_append (s : State) {cs : List Char} (h : WholeLines cs) (ds : List Char) :
    (run s (cs ++ ds)).map Piece.alone =
      ((walk s cs).1 ++ run (walk s cs).2 ds).map Piece.alone := by
  obtain ⟨hpieces, hstate⟩ := walk_append s h ds
  rw [run_eq_walk, run_eq_walk, hstate, ← List.append_assoc, List.map_append, hpieces,
    ← List.map_append]

theorem texts_walk (s : State) (cs : List Char) : Piece.texts (walk s cs).1 = cs := by
  fun_induction walk s cs with
  | case1 s => rfl
  | case2 s c cs later ih => rw [Piece.texts_append, ih, (s.splits_step c cs).texts_append]

/-- Marks that are settled behind a text leave its places what they are. -/
theorem texts_settle_walk (s : State) (cs : List Char) {marks : List Piece}
    (h : Piece.texts marks = []) : Piece.texts (Piece.settle ((walk s cs).1 ++ marks)) = cs := by
  rw [Piece.texts_settle, Piece.texts_append, texts_walk, h, List.append_nil]

theorem readsAll_walk (s : State) (cs : List Char) :
    s.context.ReadsAll (walk s cs).1 (walk s cs).2.context := by
  fun_induction walk s cs with
  | case1 s => exact .nil _
  | case2 s c cs later ih => exact (s.readsFrom_step c cs).append ih

theorem behind_walk (s : State) (cs : List Char) : (walk s cs).2.behind = s.behind.past cs := by
  fun_induction walk s cs with
  | case1 s => rfl
  | case2 s c cs later ih =>
    rw [ih, s.passes_step c cs, ← Lookbehind.past_append, (s.splits_step c cs).texts_append]

/-- The last step over whole lines is at a line end. -/
theorem freshLine_walk {s : State} {cs : List Char} (hs : s.freshLine = true ∨ cs ≠ [])
    (h : WholeLines cs) : (walk s cs).2.freshLine = true := by
  fun_induction walk s cs with
  | case1 s => exact hs.resolve_right fun hne => hne rfl
  | case2 s c cs later ih =>
    have hline : EndsLine (c :: cs) := h.resolve_left (List.cons_ne_nil _ _)
    by_cases hn : atNewline (c :: cs) = true
    · have hfresh : (s.step c cs).state.freshLine = true := by
        rw [State.step, if_pos hn]
        rfl
      exact ih (.inl hfresh) (WholeLines.right ((s.splits_step c cs).texts_append.symm ▸ hline))
    · have hends := (s.continues_step [] hn hline).ends
      exact ih (.inr hends.ne_nil) (.inr hends)

/-- The last piece of a line is its end. -/
theorem exists_lineEnd_walk (s : State) {cs : List Char} (h : EndsLine cs) :
    ∃ pieces ending, (walk s cs).1 = pieces ++ [.token .newline ending] := by
  fun_induction walk s cs with
  | case1 s => exact absurd rfl h.ne_nil
  | case2 s c cs later ih =>
    by_cases hn : atNewline (c :: cs) = true
    · -- this line end is the last piece if nothing is left behind it
      rcases WholeLines.right ((s.splits_step c cs).texts_append.symm ▸ h) with hnil | hends
      · have hlater : later.1 = [] := by
          change (walk (s.step c cs).state (s.step c cs).rest).1 = []
          rw [hnil, walk]
        have hpieces : ∃ ending, (s.step c cs).pieces = [.token .newline ending] := by
          rw [State.step, if_pos hn]
          exact ⟨_, rfl⟩
        obtain ⟨ending, hpieces⟩ := hpieces
        exact ⟨[], ending, by rw [hpieces, hlater]; rfl⟩
      · obtain ⟨pieces, ending, hlater⟩ := ih hends
        exact ⟨(s.step c cs).pieces ++ pieces, ending, by rw [hlater, List.append_assoc]⟩
    · obtain ⟨pieces, ending, hlater⟩ := ih (s.continues_step [] hn h).ends
      exact ⟨(s.step c cs).pieces ++ pieces, ending, by rw [hlater, List.append_assoc]⟩

/-- Behind whole lines a line is about to begin. -/
theorem fresh_walk {s : State} {cs : List Char} (hs : s.Fresh) (h : WholeLines cs) :
    (walk s cs).2.Fresh := by
  refine ⟨freshLine_walk (.inl hs.freshLine) h, ?_⟩
  rw [behind_walk]
  rcases h with rfl | h
  · exact hs.behind
  · exact Lookbehind.past_of_endsLine h _

end Lexer

/-! ## Tokens -/

namespace Piece

theorem holdsReplica_alone (piece : Piece) : piece.alone.holdsReplica = piece.holdsReplica := by
  cases piece <;> rfl

theorem alone_eq_mark {piece : Piece} : piece.alone = .mark .replicaEnd ↔ piece = .mark .replicaEnd := by
  cases piece with
  | covered text kinds => rfl
  | arguments list => simp [alone, mark]

theorem place_map_alone (p : Position) (pieces : List Piece) :
    place p (pieces.map alone) = place p pieces := by
  induction pieces generalizing p with
  | nil => rfl
  | cons piece pieces ih =>
    have htext : piece.alone.text = piece.text := by cases piece <;> rfl
    have htokens : piece.alone.tokens p = piece.tokens p := by cases piece <;> rfl
    rw [List.map_cons, place, place, htext, htokens, ih]

/-- The text behind an argument list is not seen in the tokens. -/
theorem place_settle_congr {as bs : List Piece} (h : as.map alone = bs.map alone) (p : Position) :
    place p (settle as) = place p (settle bs) := by
  rw [← place_map_alone, ← settle_map holdsReplica_alone alone_eq_mark, h,
    settle_map holdsReplica_alone alone_eq_mark, place_map_alone]

end Piece

/-- The tokens of whole lines and what follows them. -/
theorem tokenize_append {before : String} (h : WholeLines before.toList) (after : String) :
    tokenize (before ++ after) = Piece.place Position.origin (Piece.settle
      ((Lexer.walk {} before.toList).1 ++ Lexer.run (Lexer.walk {} before.toList).2 after.toList)) := by
  rw [tokenize, String.toList_append]
  exact Piece.place_settle_congr (Lexer.run_append {} h after.toList) _

end StoryScript

import StoryScript.Token.Lexer
/-!
# The marks of a script

What a mark is made of, and where two texts have the same marks. A relation of texts keeps marks
(`KeepsMarks`) if related texts begin with the same marks and are related again behind each of them.
Every mark is then recognised in both or in neither (`KeepsMarks.alike`), and the scanner reads
the same kind of thing in both (`structural_both`).
-/

namespace StoryScript

/-! ## What a mark begins with -/

theorem newline_of_atNewline {cs : List Char} (h : atNewline cs = true) :
    (∃ ds, cs = '\n' :: ds) ∨ ∃ ds, cs = '\r' :: '\n' :: ds := by
  unfold atNewline at h
  split at h
  · exact .inl ⟨_, rfl⟩
  · exact .inr ⟨_, rfl⟩
  · cases h

namespace Lookbehind

theorem cons_of_atReplica {b : Lookbehind} {cs : List Char} (h : b.atReplica cs = true) :
    ∃ ds, cs = '"' :: ' ' :: ds := by
  unfold atReplica at h
  split at h
  · exact ⟨_, rfl⟩
  · cases h

theorem cons_of_atTag {b : Lookbehind} {cs : List Char} (h : b.atTag cs = true) :
    ∃ ds, cs = '@' :: ds := by
  unfold atTag at h
  split at h
  · exact ⟨_, rfl⟩
  · cases h

theorem cons_of_atChoiceTag {b : Lookbehind} {cs : List Char} (h : b.atChoiceTag cs = true) :
    ∃ ds, cs = '@' :: '@' :: ds := by
  unfold atChoiceTag at h
  split at h
  · exact ⟨_, rfl⟩
  · cases h

theorem append_of_atCall {b : Lookbehind} {cs : List Char} (h : b.atCall cs = true) :
    ∃ ds, cs = callMark ++ ds := by
  simp only [atCall, Bool.and_eq_true, List.isPrefixOf_iff_prefix] at h
  obtain ⟨-, ds, rfl⟩ := h
  exact ⟨ds, rfl⟩

theorem append_of_atBound {b : Lookbehind} {cs : List Char} (h : b.atBound cs = true) :
    ∃ ds, cs = boundMark ++ ds := by
  simp only [atBound, Bool.and_eq_true, List.isPrefixOf_iff_prefix] at h
  obtain ⟨-, ds, rfl⟩ := h
  exact ⟨ds, rfl⟩

theorem cons_of_atHeader {b : Lookbehind} {cs : List Char} (h : b.atHeader cs = true) :
    ∃ ds, cs = '=' :: '=' :: ds := by
  unfold atHeader at h
  split at h
  · exact ⟨_, rfl⟩
  · cases h

theorem cons_of_atGoto {b : Lookbehind} {cs : List Char} (h : b.atGoto cs = true) :
    ∃ c ds, (c = '-' ∨ c = '=') ∧ cs = c :: '>' :: ds := by
  unfold atGoto at h
  split at h
  · exact ⟨_, _, .inl rfl, rfl⟩
  · exact ⟨_, _, .inr rfl, rfl⟩
  · cases h

theorem cons_of_atChoice {b : Lookbehind} {cs : List Char} (h : b.atChoice cs = true) :
    ∃ ds, cs = '+' :: ds := by
  unfold atChoice at h
  split at h
  · exact ⟨_, rfl⟩
  · cases h

theorem cons_of_atParenthesis {b : Lookbehind} {cs : List Char} (h : b.atParenthesis cs = true) :
    ∃ ds, cs = '(' :: ds := by
  unfold atParenthesis at h
  split at h
  · exact ⟨_, rfl⟩
  · cases h

theorem cons_of_atLineComment {b : Lookbehind} {cs : List Char} (h : b.atLineComment cs = true) :
    ∃ ds, cs = '#' :: ds := by
  unfold atLineComment at h
  split at h
  · exact ⟨_, rfl⟩
  · cases h

theorem cons_of_atCommentOpen {b : Lookbehind} {cs : List Char} (h : b.atCommentOpen cs = true) :
    ∃ ds, cs = '/' :: '*' :: ds := by
  unfold atCommentOpen at h
  split at h
  · exact ⟨_, rfl⟩
  · cases h

theorem cons_of_atCommentClose {b : Lookbehind} {cs : List Char} (h : b.atCommentClose cs = true) :
    ∃ ds, cs = '*' :: '/' :: ds := by
  unfold atCommentClose at h
  split at h
  · exact ⟨_, rfl⟩
  · cases h

end Lookbehind

/-! ## Two texts with the same marks -/

/-- Whatever stands before two texts, the same marks stand at their beginnings. -/
structure Alike (cs ds : List Char) : Prop where
  atReplica : ∀ b : Lookbehind, b.atReplica ds = b.atReplica cs
  atTag : ∀ b : Lookbehind, b.atTag ds = b.atTag cs
  atChoiceTag : ∀ b : Lookbehind, b.atChoiceTag ds = b.atChoiceTag cs
  atCall : ∀ b : Lookbehind, b.atCall ds = b.atCall cs
  atInlineCall : ∀ b : Lookbehind, b.atInlineCall ds = b.atInlineCall cs
  atHeader : ∀ b : Lookbehind, b.atHeader ds = b.atHeader cs
  atGoto : ∀ b : Lookbehind, b.atGoto ds = b.atGoto cs
  atChoice : ∀ b : Lookbehind, b.atChoice ds = b.atChoice cs
  atBound : ∀ b : Lookbehind, b.atBound ds = b.atBound cs
  atParenthesis : ∀ b : Lookbehind, b.atParenthesis ds = b.atParenthesis cs
  atLineComment : ∀ b : Lookbehind, b.atLineComment ds = b.atLineComment cs
  atCommentOpen : ∀ b : Lookbehind, b.atCommentOpen ds = b.atCommentOpen cs
  atCommentClose : ∀ b : Lookbehind, b.atCommentClose ds = b.atCommentClose cs

namespace Alike

variable {cs ds : List Char} (h : Alike cs ds) (b : Lookbehind)
include h

theorem atComment : b.atComment ds = b.atComment cs := by
  rw [Lookbehind.atComment, Lookbehind.atComment, h.atCommentOpen, h.atLineComment]

theorem endsReplica : b.endsReplica ds = b.endsReplica cs := by
  rw [Lookbehind.endsReplica, Lookbehind.endsReplica, h.atReplica, h.atTag, h.atHeader, h.atGoto,
    h.atChoice]

theorem startsToken : b.startsToken ds = b.startsToken cs := by
  rw [Lookbehind.startsToken, Lookbehind.startsToken, h.atComment, h.endsReplica, h.atBound]

end Alike

/-- Behind each mark of the one text stands the same mark of the other, and related texts follow.
Marks are made of characters that end no line. -/
structure KeepsMarks (R : List Char → List Char → Prop) : Prop where
  left : ∀ {cs ds es} mark, R cs ds → '\n' ∉ mark ∧ '\r' ∉ mark → cs = mark ++ es →
    ∃ fs, ds = mark ++ fs ∧ R es fs
  right : ∀ {cs ds fs} mark, R cs ds → '\n' ∉ mark ∧ '\r' ∉ mark → ds = mark ++ fs →
    ∃ es, cs = mark ++ es ∧ R es fs
  atSeparator : ∀ {cs ds}, R cs ds → atSeparator ds = atSeparator cs

namespace KeepsMarks

variable {R : List Char → List Char → Prop} (h : KeepsMarks R) {cs ds : List Char}
include h

theorem behind (mark : List Char) (hm : '\n' ∉ mark ∧ '\r' ∉ mark) (hr : R cs ds)
    (hcs : ∃ es, cs = mark ++ es) : ∃ es fs, cs = mark ++ es ∧ ds = mark ++ fs ∧ R es fs := by
  obtain ⟨es, rfl⟩ := hcs
  obtain ⟨fs, rfl, hrest⟩ := h.left mark hr hm rfl
  exact ⟨es, fs, rfl, rfl, hrest⟩

/-- What needs a mark is found in both texts if what follows the mark looks the same. -/
theorem recognised {p : List Char → Bool} (marks : List (List Char))
    (hm : ∀ mark ∈ marks, '\n' ∉ mark ∧ '\r' ∉ mark)
    (hp : ∀ cs, p cs = true → ∃ mark ∈ marks, ∃ es, cs = mark ++ es)
    (hs : ∀ mark ∈ marks, ∀ es fs, R es fs → p (mark ++ fs) = p (mark ++ es)) (hr : R cs ds) :
    p ds = p cs := by
  rw [Bool.eq_iff_iff]
  constructor
  · intro hds
    obtain ⟨mark, hmem, fs, rfl⟩ := hp _ hds
    obtain ⟨es, rfl, hrest⟩ := h.right mark hr (hm mark hmem) rfl
    rwa [hs mark hmem es fs hrest] at hds
  · intro hcs
    obtain ⟨mark, hmem, es, rfl⟩ := hp _ hcs
    obtain ⟨fs, rfl, hrest⟩ := h.left mark hr (hm mark hmem) rfl
    rwa [hs mark hmem es fs hrest]

/-- The same for one mark. -/
theorem marked {p : List Char → Bool} (mark : List Char) (hm : '\n' ∉ mark ∧ '\r' ∉ mark)
    (hp : ∀ cs, p cs = true → ∃ es, cs = mark ++ es)
    (hs : ∀ es fs, R es fs → p (mark ++ fs) = p (mark ++ es)) (hr : R cs ds) : p ds = p cs := by
  refine h.recognised [mark] ?_ ?_ ?_ hr
  · simpa using hm
  · intro cs hcs
    exact ⟨mark, by simp, hp cs hcs⟩
  · simpa using hs

theorem isPrefixOf (mark : List Char) (hm : '\n' ∉ mark ∧ '\r' ∉ mark) (hr : R cs ds) :
    mark.isPrefixOf ds = mark.isPrefixOf cs := by
  have hself : ∀ es, mark.isPrefixOf (mark ++ es) = true := fun es =>
    List.isPrefixOf_iff_prefix.2 (List.prefix_append mark es)
  refine h.marked (p := mark.isPrefixOf) mark hm ?_ ?_ hr
  · intro cs hcs
    obtain ⟨es, rfl⟩ := List.isPrefixOf_iff_prefix.1 hcs
    exact ⟨es, rfl⟩
  · intro es fs _
    rw [hself, hself]

open Lookbehind in
theorem alike (hr : R cs ds) : Alike cs ds where
  atReplica _ := h.marked ['"', ' '] (by decide) (fun _ => cons_of_atReplica) (fun _ _ _ => rfl) hr
  atTag _ := h.marked ['@'] (by decide) (fun _ => cons_of_atTag) (fun _ _ _ => rfl) hr
  atChoiceTag _ :=
    h.marked ['@', '@'] (by decide) (fun _ => cons_of_atChoiceTag) (fun _ _ _ => rfl) hr
  atCall b := congrArg (!b.escaped && ·) (h.isPrefixOf callMark (by decide) hr)
  atInlineCall b := congrArg (!b.escaped && ·) (h.isPrefixOf inlineCallMark (by decide) hr)
  atHeader b := by
    refine h.marked ['=', '='] (by decide) (fun _ => cons_of_atHeader) (fun es fs hr => ?_) hr
    exact congrArg (!b.escaped && ·) (h.atSeparator hr)
  atGoto b := by
    refine h.recognised [['-', '>'], ['=', '>']] (by decide) ?_ ?_ hr
    · intro cs hcs
      obtain ⟨c, es, rfl | rfl, rfl⟩ := cons_of_atGoto hcs
      · exact ⟨['-', '>'], by simp, es, rfl⟩
      · exact ⟨['=', '>'], by simp, es, rfl⟩
    · intro mark hmem es fs hr
      have hsep := congrArg (!b.escaped && ·) (h.atSeparator hr)
      simp only [List.mem_cons, List.not_mem_nil, or_false] at hmem
      rcases hmem with rfl | rfl
      · exact hsep
      · exact hsep
  atChoice _ := h.marked ['+'] (by decide) (fun _ => cons_of_atChoice) (fun _ _ _ => rfl) hr
  atBound b := congrArg (!b.escaped && ·) (h.isPrefixOf boundMark (by decide) hr)
  atParenthesis _ :=
    h.marked ['('] (by decide) (fun _ => cons_of_atParenthesis) (fun _ _ _ => rfl) hr
  atLineComment _ :=
    h.marked ['#'] (by decide) (fun _ => cons_of_atLineComment) (fun _ _ _ => rfl) hr
  atCommentOpen _ :=
    h.marked ['/', '*'] (by decide) (fun _ => cons_of_atCommentOpen) (fun _ _ _ => rfl) hr
  atCommentClose _ :=
    h.marked ['*', '/'] (by decide) (fun _ => cons_of_atCommentClose) (fun _ _ _ => rfl) hr

end KeepsMarks

theorem keepsMarks_eq : KeepsMarks Eq where
  left _ hr _ hcs := ⟨_, hr ▸ hcs, rfl⟩
  right _ hr _ hds := ⟨_, hr ▸ hds, rfl⟩
  atSeparator hr := congrArg _ hr.symm

/-! ## What the scanner reads between the texts -/

namespace Lexer.State

variable {s : State} {c : Char} {cs ds : List Char}

theorem both_ite {motive : Step → Step → Prop} {p : Prop} [Decidable p] {a b a' b' : Step}
    (ha : p → motive a a') (hb : motive b b') :
    motive (if p then a else b) (if p then a' else b') := by
  split
  · next h => exact ha h
  · exact hb

open Lookbehind in
/-- Case analysis over what is read of two texts with the same marks, outside of replicas and choice
texts. Each case but those of spaces, comments and strays knows the mark that both begin with. -/
theorem structural_both {R : List Char → List Char → Prop} (h : KeepsMarks R)
    (hr : R (c :: cs) (c :: ds)) {motive : List Char → Step → Step → Prop}
    (space : isSpacer c ∨ c = '\r' →
      motive (c :: cs) (s.read [.gap [c]] cs) (s.read [.gap [c]] ds))
    (openComment : s.behind.atCommentOpen (c :: cs) = true →
      motive (c :: cs) (s.openComment (c :: cs)) (s.openComment (c :: ds)))
    (lineComment : motive (c :: cs) (s.lineComment (c :: cs)) (s.lineComment (c :: ds)))
    (call : ∀ {es fs}, R es fs →
      motive (callMark ++ es) (s.call (callMark ++ es)) (s.call (callMark ++ fs)))
    (choiceTag : ∀ {es fs}, R es fs →
      motive ('@' :: es) (s.tag .choiceTag ('@' :: es)) (s.tag .choiceTag ('@' :: fs)))
    (tag : ∀ {es fs}, R es fs →
      motive ('@' :: es) (s.tag .tag ('@' :: es)) (s.tag .tag ('@' :: fs)))
    (header : ∀ {es fs}, R es fs →
      motive ('=' :: '=' :: es) (s.header ('=' :: '=' :: es)) (s.header ('=' :: '=' :: fs)))
    (goto : ∀ {d es fs}, d = '-' ∨ d = '=' → R es fs →
      motive (d :: '>' :: es) (s.goto (d :: '>' :: es)) (s.goto (d :: '>' :: fs)))
    (choice : ∀ {es fs}, R es fs →
      motive ('+' :: es) (s.choice ('+' :: es)) (s.choice ('+' :: fs)))
    (replica : ∀ {es fs}, R es fs →
      motive ('"' :: ' ' :: es) (s.openReplica ('"' :: ' ' :: es))
        (s.openReplica ('"' :: ' ' :: fs)))
    (bound : ∀ {es fs}, R es fs →
      motive (boundMark ++ es) (s.openBound [] (boundMark ++ es)) (s.openBound [] (boundMark ++ fs)))
    (stray : motive (c :: cs) (s.stray c cs) (s.stray c ds)) :
    motive (c :: cs) (s.structural c cs) (s.structural c ds) := by
  have ha := h.alike hr
  unfold structural
  rw [ha.atCommentOpen, ha.atLineComment, ha.atCall, ha.atChoiceTag, ha.atTag, ha.atHeader,
    ha.atGoto, ha.atChoice, ha.atReplica, ha.atBound]
  -- one test after the other, each with the same outcome for both texts
  refine both_ite (fun hc => space (by simpa using hc)) ?_
  refine both_ite openComment ?_
  refine both_ite (fun _ => lineComment) ?_
  refine both_ite (fun hm => ?_) ?_
  · obtain ⟨es, fs, hes, hfs, hrest⟩ := h.behind callMark (by decide) hr (append_of_atCall hm)
    rw [hes, hfs]
    exact call hrest
  refine both_ite (fun hm => ?_) ?_
  · obtain ⟨es, hes⟩ := cons_of_atChoiceTag hm
    obtain ⟨fs, hfs, hrest⟩ := h.left ['@'] hr (by decide) hes
    rw [hes, hfs]
    exact choiceTag hrest
  refine both_ite (fun hm => ?_) ?_
  · obtain ⟨es, fs, hes, hfs, hrest⟩ := h.behind ['@'] (by decide) hr (cons_of_atTag hm)
    rw [hes, hfs]
    exact tag hrest
  refine both_ite (fun hm => ?_) ?_
  · obtain ⟨es, fs, hes, hfs, hrest⟩ := h.behind ['=', '='] (by decide) hr (cons_of_atHeader hm)
    rw [hes, hfs]
    exact header hrest
  refine both_ite (fun hm => ?_) ?_
  · obtain ⟨d, es, hd, hes⟩ := cons_of_atGoto hm
    have harrow : '\n' ∉ [d, '>'] ∧ '\r' ∉ [d, '>'] := by
      rcases hd with rfl | rfl <;> decide
    obtain ⟨fs, hfs, hrest⟩ := h.left [d, '>'] hr harrow hes
    rw [hes, hfs]
    exact goto hd hrest
  refine both_ite (fun hm => ?_) ?_
  · obtain ⟨es, fs, hes, hfs, hrest⟩ := h.behind ['+'] (by decide) hr (cons_of_atChoice hm)
    rw [hes, hfs]
    exact choice hrest
  refine both_ite (fun hm => ?_) ?_
  · obtain ⟨es, fs, hes, hfs, hrest⟩ := h.behind ['"', ' '] (by decide) hr (cons_of_atReplica hm)
    rw [hes, hfs]
    exact replica hrest
  refine both_ite (fun hm => ?_) stray
  obtain ⟨es, fs, hes, hfs, hrest⟩ := h.behind boundMark (by decide) hr (append_of_atBound hm)
  rw [hes, hfs]
  exact bound hrest

/-- The same case analysis over one text. -/
theorem structural_cases {motive : List Char → Step → Prop}
    (space : isSpacer c ∨ c = '\r' → motive (c :: cs) (s.read [.gap [c]] cs))
    (openComment : s.behind.atCommentOpen (c :: cs) = true →
      motive (c :: cs) (s.openComment (c :: cs)))
    (lineComment : motive (c :: cs) (s.lineComment (c :: cs)))
    (call : ∀ ds, motive (callMark ++ ds) (s.call (callMark ++ ds)))
    (choiceTag : ∀ ds, motive ('@' :: ds) (s.tag .choiceTag ('@' :: ds)))
    (tag : ∀ ds, motive ('@' :: ds) (s.tag .tag ('@' :: ds)))
    (header : ∀ ds, motive ('=' :: '=' :: ds) (s.header ('=' :: '=' :: ds)))
    (goto : ∀ d ds, d = '-' ∨ d = '=' → motive (d :: '>' :: ds) (s.goto (d :: '>' :: ds)))
    (choice : ∀ ds, motive ('+' :: ds) (s.choice ('+' :: ds)))
    (replica : ∀ ds, motive ('"' :: ' ' :: ds) (s.openReplica ('"' :: ' ' :: ds)))
    (bound : ∀ ds, motive (boundMark ++ ds) (s.openBound [] (boundMark ++ ds)))
    (stray : motive (c :: cs) (s.stray c cs)) : motive (c :: cs) (s.structural c cs) :=
  structural_both (motive := fun text r _ => motive text r) keepsMarks_eq rfl space openComment
    lineComment (fun _ => call _) (fun _ => choiceTag _) (fun _ => tag _)
    (fun _ => header _) (fun hd _ => goto _ _ hd) (fun _ => choice _) (fun _ => replica _)
    (fun _ => bound _) stray

end Lexer.State

end StoryScript

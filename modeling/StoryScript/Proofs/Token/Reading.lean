import StoryScript.Proofs.Token.Marks
/-!
# What a step reads

Each scanner splits the text ahead into pieces and the text it leaves, and the text of a piece is the
lexeme of each of its tokens. `splits_step` says so for one step, whatever the mode; `texts_run` and
`faithful_run` carry it over the whole source.
-/

namespace StoryScript

open Token (Kind)

/-! ## Lexemes -/

/-- What the source shows where a token of this kind stands. -/
def Token.Kind.Lexeme (text : List Char) : Kind → Prop
  | .comment t | .commentText t | .speech t | .goto t | .tagValue t | .identifier t
  | .choiceText t | .argument t | .error t => text = t.toList
  | .tag name | .choiceTag name => text = '@' :: name.toList
  | .call name => text = callMark ++ name.toList
  | .header => text = ['=', '=']
  | .choice => text = ['+']
  | .replicaBegin => text = ['"', ' ']
  | .choiceBound false => text = boundMark
  | .commentOpen => text = ['/', '*']
  | .commentClose => text = ['*', '/']
  | .newline => text = ['\n'] ∨ text = ['\r', '\n']
  | .indent | .dedent => ∀ c ∈ text, isSpacer c
  | .replicaEnd | .choiceBound true | .eof => text = []

namespace Piece

/-- The text of the piece is the lexeme of each of its tokens. -/
def Faithful : Piece → Prop
  | covered text kinds => ∀ k ∈ kinds, k.Lexeme text
  | arguments _ => True

@[simp] theorem faithful_gap (text : List Char) : (gap text).Faithful := by
  simp [gap, Faithful]

@[simp] theorem faithful_token (kind : Kind) (text : List Char) :
    (token kind text).Faithful ↔ kind.Lexeme text := by
  simp [token, Faithful]

@[simp] theorem faithful_mark (kind : Kind) : (mark kind).Faithful ↔ kind.Lexeme [] := by
  simp [mark, Faithful]

@[simp] theorem faithful_arguments (list : ArgumentList) : (arguments list).Faithful := trivial

/-! ## Texts of pieces in a row -/

@[simp] theorem text_gap (text : List Char) : (gap text).text = text := rfl

@[simp] theorem text_token (kind : Kind) (text : List Char) : (token kind text).text = text := rfl

@[simp] theorem text_mark (kind : Kind) : (mark kind).text = [] := rfl

@[simp] theorem text_covered (text : List Char) (kinds : List Kind) :
    (covered text kinds).text = text := rfl

@[simp] theorem text_arguments (list : ArgumentList) : (arguments list).text = '(' :: list.text :=
  rfl

@[simp] theorem texts_nil : texts [] = [] := rfl

@[simp] theorem texts_cons (piece : Piece) (pieces : List Piece) :
    texts (piece :: pieces) = piece.text ++ texts pieces := rfl

@[simp] theorem texts_append (as bs : List Piece) : texts (as ++ bs) = texts as ++ texts bs :=
  List.flatMap_append

@[simp] theorem texts_replicate_mark (n : Nat) (kind : Kind) :
    texts (List.replicate n (mark kind)) = [] := by
  induction n with
  | zero => rfl
  | succ n ih => simp [List.replicate_succ, ih]

@[simp] theorem texts_trimmed (kind : String → Kind) (text : List Char) :
    texts (trimmed kind text) = text := by
  have h := Text.margins_append text
  simpa [trimmed] using h

@[simp] theorem texts_trimmedEnd (kind : String → Kind) (text : List Char) :
    texts (trimmedEnd kind text) = text := by
  simp [trimmedEnd, Text.trimEnd_append_trailing]

theorem faithful_of_mem_trimmed {kind : String → Kind} {text : List Char} {piece : Piece}
    (hk : ∀ t, (kind (String.ofList t)).Lexeme t) (h : piece ∈ trimmed kind text) :
    piece.Faithful := by
  simp only [trimmed, List.mem_cons, List.not_mem_nil, or_false] at h
  rcases h with rfl | rfl | rfl
  · exact faithful_gap _
  · exact (faithful_token _ _).2 (hk _)
  · exact faithful_gap _

theorem faithful_of_mem_trimmedEnd {kind : String → Kind} {text : List Char} {piece : Piece}
    (hk : ∀ t, (kind (String.ofList t)).Lexeme t) (h : piece ∈ trimmedEnd kind text) :
    piece.Faithful := by
  simp only [trimmedEnd, List.mem_cons, List.not_mem_nil, or_false] at h
  rcases h with rfl | rfl
  · exact (faithful_token _ _).2 (hk _)
  · exact faithful_gap _

end Piece

namespace Lexer

/-- The pieces and the text left are the text there was, and the pieces are faithful. -/
structure Step.Splits (r : Step) (cs : List Char) : Prop where
  texts_append : Piece.texts r.pieces ++ r.rest = cs
  faithful : ∀ piece ∈ r.pieces, piece.Faithful

namespace State

/-! ## Scanners -/

theorem splits_openComment (s : State) {b : Lookbehind} {cs : List Char}
    (h : b.atCommentOpen cs = true) : (s.openComment cs).Splits cs := by
  obtain ⟨ds, rfl⟩ := Lookbehind.cons_of_atCommentOpen h
  constructor
  · simp [openComment, read]
  · simp [openComment, read, Kind.Lexeme]

theorem splits_lineComment (s : State) (cs : List Char) : (s.lineComment cs).Splits cs := by
  constructor
  · simp [lineComment, read, readUntil_append]
  · simp [lineComment, read, Kind.Lexeme]

theorem splits_commentLine (s : State) (cs : List Char) : (s.commentLine cs).Splits cs := by
  unfold commentLine
  have happ := readUntil_append (fun b cs => atLineEnd cs || b.atCommentClose cs) s.behind cs
  generalize readUntil (fun b cs => atLineEnd cs || b.atCommentClose cs) s.behind cs = r at happ ⊢
  -- an empty stretch of comment has no token of its own
  have htext : Piece.texts (if r.1.isEmpty then [] else
      [Piece.token (.commentText (String.ofList r.1)) r.1]) = r.1 := by
    split <;> simp_all
  have hf : ∀ piece ∈ (if r.1.isEmpty then [] else
      [Piece.token (.commentText (String.ofList r.1)) r.1]), piece.Faithful := by
    split <;> simp [Kind.Lexeme]
  dsimp only
  split
  · next hc =>
    obtain ⟨ds, hds⟩ := Lookbehind.cons_of_atCommentClose hc
    constructor
    · simp only [read, Piece.texts_append, htext, hds]
      simpa [hds] using happ
    · simp only [read, hds]
      intro piece hp
      rcases List.mem_append.1 hp with hp | hp
      · exact hf piece hp
      · simp_all [Kind.Lexeme]
  · constructor
    · rw [read, htext]
      exact happ
    · exact hf

theorem splits_tag (s : State) {kind : String → Kind} (ds : List Char)
    (hk : ∀ name, (kind name).Lexeme ('@' :: name.toList)) :
    (s.tag kind ('@' :: ds)).Splits ('@' :: ds) := by
  have hhead : ∀ name : List Char, (kind (String.ofList name)).Lexeme ('@' :: name) := by
    intro name
    simpa using hk (String.ofList name)
  unfold tag
  dsimp only
  split
  · constructor
    · simp [read]
    · simp [read, Kind.Lexeme]
  · split
    · constructor
      · simp [read, readUntil_append]
      · simp [read, hhead]
    · constructor
      · simp [read, readUntil_append]
      · intro piece hp
        rcases List.mem_cons.1 hp with rfl | hp
        · simpa using hhead _
        · exact Piece.faithful_of_mem_trimmedEnd (by simp [Kind.Lexeme]) hp

theorem splits_call (s : State) (ds : List Char) :
    (s.call (callMark ++ ds)).Splits (callMark ++ ds) := by
  unfold call
  rw [List.take_left, List.drop_left]
  dsimp only
  split
  · next hp =>
    obtain ⟨es, hes⟩ := Lookbehind.cons_of_atParenthesis hp
    have hname := readUntil_append (fun b cs => endsName cs || b.atParenthesis cs)
      (s.behind.past callMark) ds
    rw [hes] at hname ⊢
    constructor
    · simp [read, readArguments_append, hname]
    · simp [read, Kind.Lexeme]
  · constructor
    · simp [read, readUntil_append]
    · simp [read, Kind.Lexeme]

theorem splits_header (s : State) (ds : List Char) :
    (s.header ('=' :: '=' :: ds)).Splits ('=' :: '=' :: ds) := by
  have happ := readUntil_append (fun b cs => endsName cs || b.atComment cs)
    (s.behind.past (['=', '='] ++ ds.takeWhile isSpacer)) (ds.dropWhile isSpacer)
  unfold header
  dsimp only [List.take, List.drop]
  split
  · next he =>
    rw [List.isEmpty_iff] at he
    constructor
    · rw [he, List.nil_append] at happ
      rw [read, happ]
      simp
    · simp [read, Kind.Lexeme]
  · constructor
    · simp [read, readUntil_append]
    · simp [read, Kind.Lexeme]

theorem splits_goto (s : State) (c d : Char) (ds : List Char) :
    (s.goto (c :: d :: ds)).Splits (c :: d :: ds) := by
  unfold goto
  dsimp only
  split
  · constructor
    · simp [read, readUntil_append]
    · simp [read, Kind.Lexeme]
  · constructor
    · simp [read, readUntil_append]
    · intro piece hp
      rcases List.mem_append.1 hp with hp | hp
      · simp only [List.mem_cons, List.not_mem_nil, or_false] at hp
        rcases hp with rfl | rfl <;> simp [Kind.Lexeme]
      · exact Piece.faithful_of_mem_trimmed (by simp [Kind.Lexeme]) hp

theorem splits_stray (s : State) (c : Char) (cs : List Char) : (s.stray c cs).Splits (c :: cs) := by
  constructor
  · simp [stray, read, readUntil_append]
  · intro piece hp
    exact Piece.faithful_of_mem_trimmed (by simp [Kind.Lexeme]) hp

theorem splits_openBound (s : State) {before : List Piece} (hf : ∀ piece ∈ before, piece.Faithful)
    (ds : List Char) :
    (s.openBound before (boundMark ++ ds)).Splits (Piece.texts before ++ boundMark ++ ds) := by
  unfold openBound
  rw [List.take_left, List.drop_left]
  constructor
  · simp [read]
  · intro piece hp
    rcases List.mem_append.1 hp with hp | hp
    · exact hf piece hp
    · simp_all [Kind.Lexeme]

theorem splits_choice (s : State) (ds : List Char) : (s.choice ('+' :: ds)).Splits ('+' :: ds) := by
  unfold choice
  dsimp only [List.take, List.drop]
  split
  · next hb =>
    -- the bound stands behind the spaces
    obtain ⟨es, hes⟩ := List.isPrefixOf_iff_prefix.1 hb
    have hspace := List.takeWhile_append_dropWhile (p := isSpacer) (l := ds)
    rw [← hes] at hspace ⊢
    have hf : ∀ piece ∈ [Piece.token .choice ['+'], .gap (ds.takeWhile isSpacer)],
        piece.Faithful := by simp [Kind.Lexeme]
    simpa [hspace] using splits_openBound s hf es
  · split
    · constructor
      · simp [read, readText_append]
      · simp [read, Kind.Lexeme]
    · constructor
      · have ht := Text.trimEnd_append_trailing
          (readText (fun b cs => b.atComment cs) none (s.behind.past ['+']) ds).1
        have happ := readText_append (fun b cs => b.atComment cs) none (s.behind.past ['+']) ds
        rw [← ht, List.append_assoc] at happ
        simpa [read] using happ
      · simp [read, Kind.Lexeme]

theorem splits_choiceText (s : State) (cs : List Char) : (s.choiceText cs).Splits cs := by
  unfold choiceText
  split
  · next hb =>
    obtain ⟨ds, rfl⟩ := Lookbehind.append_of_atBound hb
    rw [List.take_left, List.drop_left]
    constructor
    · simp [read]
    · simp [read, Kind.Lexeme]
  · split
    · next hc => exact splits_openComment s hc
    · split
      · exact splits_lineComment s cs
      · constructor
        · simp [read, readText_append]
        · simp [read, Kind.Lexeme]

theorem faithful_replicaEnd (s : State) : ∀ piece ∈ s.replicaEnd, piece.Faithful := by
  unfold replicaEnd
  split <;> simp [Kind.Lexeme]

@[simp] theorem texts_replicaEnd (s : State) : Piece.texts s.replicaEnd = [] := by
  unfold replicaEnd
  split <;> rfl

theorem splits_openReplica (s : State) (ds : List Char) :
    (s.openReplica ('"' :: ' ' :: ds)).Splits ('"' :: ' ' :: ds) := by
  constructor
  · simp [openReplica, read]
  · simp [openReplica, read, Kind.Lexeme]

theorem splits_replica (s : State) (cs : List Char) : (s.replica cs).Splits cs := by
  unfold replica
  split
  · constructor
    · simp [read]
    · exact faithful_replicaEnd s
  · split
    · next hc => exact splits_openComment s hc
    · split
      · exact splits_lineComment s cs
      · dsimp only
        split
        · constructor
          · simp [read, readText_append]
          · simp [read]
        · constructor
          · simp [read, readText_append]
          · simp [read, Kind.Lexeme]

/-! ## Steps -/

theorem splits_structural (s : State) (c : Char) (cs : List Char) :
    (s.structural c cs).Splits (c :: cs) := by
  apply structural_cases (motive := fun text r => r.Splits text)
  case space => exact fun _ => ⟨rfl, by simp [read]⟩
  case openComment => exact splits_openComment s
  case lineComment => exact splits_lineComment s (c :: cs)
  case call => exact splits_call s
  case choiceTag => exact fun ds => splits_tag s ds fun _ => rfl
  case tag => exact fun ds => splits_tag s ds fun _ => rfl
  case header => exact splits_header s
  case goto => exact fun d ds _ => splits_goto s d '>' ds
  case choice => exact splits_choice s
  case replica => exact splits_openReplica s
  case bound => exact splits_openBound s (List.forall_mem_nil _)
  case stray => exact splits_stray s c cs

theorem splits_scan (s : State) (c : Char) (cs : List Char) : (s.scan c cs).Splits (c :: cs) := by
  unfold scan
  split
  · exact splits_commentLine s (c :: cs)
  · split
    · exact splits_structural s c cs
    · exact splits_replica s (c :: cs)
    · exact splits_choiceText s (c :: cs)

theorem splits_newline (s : State) {cs : List Char} (h : atNewline cs = true) :
    (s.newline cs).Splits cs := by
  rcases newline_of_atNewline h with ⟨ds, rfl⟩ | ⟨ds, rfl⟩
  · exact ⟨rfl, by simp [newline, read, Kind.Lexeme]⟩
  · exact ⟨rfl, by simp [newline, read, Kind.Lexeme]⟩

/-- The indentation of a line reads its spaces and tabs. -/
theorem splits_indentation (s : State) {spacers : List Char} (hs : ∀ c ∈ spacers, isSpacer c)
    (rest : List Char) : Piece.texts (s.indentation spacers rest).1 = spacers ∧
      ∀ piece ∈ (s.indentation spacers rest).1, piece.Faithful := by
  unfold indentation
  dsimp only
  split
  · simp
  · refine ⟨by simp, ?_⟩
    intro piece hp
    rcases List.mem_append.1 hp with hp | hp
    · exact faithful_replicaEnd s piece hp
    · rw [List.mem_singleton.1 hp]
      intro k hk
      rcases List.mem_append.1 hk with hk | hk
      all_goals rw [List.eq_of_mem_replicate hk]; exact hs

theorem splits_step (s : State) (c : Char) (cs : List Char) : (s.step c cs).Splits (c :: cs) := by
  unfold step
  split
  · next h => exact splits_newline s h
  · dsimp only
    split
    · have hsp : (c :: cs).takeWhile isSpacer ++ (c :: cs).dropWhile isSpacer = c :: cs :=
        List.takeWhile_append_dropWhile
      split
      · next hd =>
        rw [hd] at hsp
        exact ⟨by simpa [read] using hsp, by simp [read]⟩
      · next d ds hd =>
        rw [hd] at hsp
        split
        · exact ⟨by simpa [read] using hsp, by simp [read]⟩
        · have hall : ∀ x ∈ (c :: cs).takeWhile isSpacer, isSpacer x :=
            List.all_eq_true.1 List.all_takeWhile
          obtain ⟨ht, hf⟩ := splits_indentation { s with freshLine := false } hall (d :: ds)
          have hscan := splits_scan
            (({ s with freshLine := false }.indentation ((c :: cs).takeWhile isSpacer) (d :: ds)).2.past
              ({ s with freshLine := false }.indentation ((c :: cs).takeWhile isSpacer) (d :: ds)).1) d ds
          constructor
          · rw [Piece.texts_append, ht, List.append_assoc, hscan.texts_append, hsp]
          · intro piece hp
            rcases List.mem_append.1 hp with hp | hp
            · exact hf piece hp
            · exact hscan.faithful piece hp
    · exact splits_scan _ c cs

theorem texts_finish (s : State) : Piece.texts s.finish = [] := by
  simp [finish]

theorem faithful_finish (s : State) : ∀ piece ∈ s.finish, piece.Faithful := by
  intro piece hp
  simp only [finish, List.mem_append, List.mem_singleton] at hp
  rcases hp with (hp | hp) | rfl
  · exact faithful_replicaEnd s piece hp
  · rw [List.eq_of_mem_replicate hp]
    simp [Kind.Lexeme]
  · simp [Kind.Lexeme]

end State

/-! ## The whole source -/

/-- The pieces of a source put together are the source. -/
theorem texts_run (s : State) (cs : List Char) : Piece.texts (run s cs) = cs := by
  fun_induction run s cs with
  | case1 s => exact s.texts_finish
  | case2 s c cs ih => rw [Piece.texts_append, ih, (s.splits_step c cs).texts_append]

theorem faithful_run (s : State) (cs : List Char) : ∀ piece ∈ run s cs, piece.Faithful := by
  fun_induction run s cs with
  | case1 s => exact s.faithful_finish
  | case2 s c cs ih =>
    intro piece hp
    rcases List.mem_append.1 hp with hp | hp
    · exact (s.splits_step c cs).faithful piece hp
    · exact ih piece hp

end Lexer

namespace Piece

/-! ## Moving the ends of replicas -/

@[simp] theorem texts_pushSettled (piece : Piece) (pieces : List Piece) :
    texts (pushSettled piece pieces) = piece.text ++ texts pieces := by
  unfold pushSettled
  split
  · split <;> simp
  · rfl

@[simp] theorem texts_settle (pieces : List Piece) : texts (settle pieces) = texts pieces := by
  induction pieces with
  | nil => rfl
  | cons piece pieces ih =>
    rw [settle, List.foldr_cons, texts_pushSettled, texts_cons]
    exact congrArg (piece.text ++ ·) ih

variable {piece : Piece} {pieces : List Piece}

theorem pushSettled_eq (h : pieces.head? ≠ some (.mark .replicaEnd)) :
    pushSettled piece pieces = piece :: pieces := by
  unfold pushSettled
  split
  · exact absurd rfl h
  · rfl

theorem pushSettled_mark (h : piece.holdsReplica = false) :
    pushSettled piece (.mark .replicaEnd :: pieces) =
      .mark .replicaEnd :: piece :: pieces := by
  change (if piece.holdsReplica then _ else _) = _
  rw [if_neg (by simp [h])]

theorem pushSettled_holds (h : piece.holdsReplica = true) :
    pushSettled piece (.mark .replicaEnd :: pieces) =
      piece :: .mark .replicaEnd :: pieces := by
  change (if piece.holdsReplica then _ else _) = _
  rw [if_pos h]

theorem settle_cons (piece : Piece) (pieces : List Piece) :
    settle (piece :: pieces) = pushSettled piece (settle pieces) := rfl

section
variable {f : Piece → Piece} (hold : ∀ piece, (f piece).holdsReplica = piece.holdsReplica)
  (hend : ∀ {piece}, f piece = .mark .replicaEnd ↔ piece = .mark .replicaEnd)
include hold hend

theorem pushSettled_map (piece : Piece) (pieces : List Piece) :
    pushSettled (f piece) (pieces.map f) = (pushSettled piece pieces).map f := by
  have hmark : f (.mark .replicaEnd) = .mark .replicaEnd := hend.2 rfl
  by_cases hm : pieces.head? = some (.mark .replicaEnd)
  · obtain ⟨rest, rfl⟩ := List.head?_eq_some_iff.1 hm
    rw [List.map_cons, hmark]
    by_cases h : piece.holdsReplica = true
    · rw [pushSettled_holds h, pushSettled_holds ((hold piece).trans h)]
      simp [hmark]
    · rw [Bool.not_eq_true] at h
      rw [pushSettled_mark h, pushSettled_mark ((hold piece).trans h)]
      simp [hmark]
  · rw [pushSettled_eq hm]
    refine pushSettled_eq ?_
    rw [List.head?_map]
    intro he
    obtain ⟨first, hf, hr⟩ := Option.map_eq_some_iff.1 he
    rw [hend.1 hr] at hf
    exact hm hf

/-- What changes neither the ends of replicas nor what they stand behind can be done first. -/
theorem settle_map (pieces : List Piece) : settle (pieces.map f) = (settle pieces).map f := by
  induction pieces with
  | nil => rfl
  | cons piece pieces ih =>
    rw [List.map_cons, settle_cons, settle_cons, ih, pushSettled_map hold hend]

end

/-- Pieces that neither end a replica nor stand before the end of one keep their order. -/
theorem foldr_pushSettled {as : List Piece} (has : .mark .replicaEnd ∉ as)
    (h : pieces.head? ≠ some (.mark .replicaEnd)) :
    as.foldr pushSettled pieces = as ++ pieces := by
  induction as with
  | nil => rfl
  | cons a as ih =>
    rw [List.foldr_cons, ih fun h => has (by simp [h])]
    refine pushSettled_eq ?_
    cases as with
    | nil => exact h
    | cons a' as => exact fun h => has (by simp [← Option.some.inj h])

/-- The pieces stay what they are. -/
theorem perm_pushSettled (piece : Piece) (pieces : List Piece) :
    (pushSettled piece pieces).Perm (piece :: pieces) := by
  unfold pushSettled
  split
  · split
    · exact .refl _
    · exact .swap ..
  · exact .refl _

theorem perm_settle (pieces : List Piece) : (settle pieces).Perm pieces := by
  induction pieces with
  | nil => exact .refl _
  | cons piece pieces ih => exact (perm_pushSettled piece _).trans (ih.cons piece)

end Piece

end StoryScript

import StoryScript.Proofs.Canonical.Rows
import StoryScript.Proofs.Token.Order
/-!
# The tokens of a canonical story

The kinds of tokens are those of the rows, with the changes of level between them. Over a whole tree
the changes of level are brackets around the bodies of choices: `kinds_tokenize_render` says so. Of
the places of tokens only one thing is needed later: those with a line end between them stand on
different lines (`ordered_tokenize_render`).
-/

namespace StoryScript

open Token (Kind)

namespace Piece

/-! ## Kinds of tokens -/

/-- The kind of an argument. A blank field has none. -/
def fieldKinds (field : List Char) : List Kind :=
  if Text.allBlank field then [] else [.argument (String.ofList (Text.trim field))]

/-- The kinds of a piece's tokens, wherever it stands. -/
def kinds : Piece → List Kind
  | covered _ kinds => kinds
  | arguments list =>
    fieldKinds list.first ++ list.others.flatMap fieldKinds ++
      if list.closed then [] else [.error (String.ofList (Text.trimEnd ('(' :: list.text)))]

theorem kinds_fieldToken (p : Position) (field : List Char) :
    (fieldToken p field).map Token.kind = fieldKinds field := by
  unfold fieldToken fieldKinds
  split <;> rfl

theorem kinds_fieldTokens (p : Position) (fields : List (List Char)) :
    (fieldTokens p fields).map Token.kind = fields.flatMap fieldKinds := by
  induction fields generalizing p with
  | nil => rfl
  | cons field fields ih => simp [fieldTokens, kinds_fieldToken, ih]

theorem kinds_tokens (p : Position) (piece : Piece) :
    (piece.tokens p).map Token.kind = piece.kinds := by
  cases piece with
  | covered text kinds =>
    change List.map Token.kind (List.map _ kinds) = kinds
    rw [List.map_map]
    exact List.map_id kinds
  | arguments list =>
    simp only [tokens, kinds, List.map_append, kinds_fieldToken, kinds_fieldTokens]
    split <;> rfl

theorem kinds_place (p : Position) (pieces : List Piece) :
    (place p pieces).map Token.kind = pieces.flatMap kinds := by
  induction pieces generalizing p with
  | nil => rfl
  | cons piece pieces ih => simp [place, kinds_tokens, ih]

end Piece

/-! ## Lines of tokens -/

/-- Nothing goes over a line end from either side, and a line end leads to the next line. -/
structure Token.Ordered (ts : List Token) : Prop where
  pairwise : ts.Pairwise fun t u =>
    t.kind = .newline ∨ u.kind = .newline → t.span.stop.line ≤ u.span.start.line
  newline : ∀ t ∈ ts, t.kind = .newline → t.span.start.line < t.span.stop.line

theorem Token.Ordered.sublist {ts us : List Token} (h : Token.Ordered us) (hs : ts.Sublist us) :
    Token.Ordered ts :=
  ⟨h.pairwise.sublist hs, fun t ht => h.newline t (hs.subset ht)⟩

theorem Token.Ordered.left {ts us : List Token} (h : Token.Ordered (ts ++ us)) : Token.Ordered ts :=
  h.sublist (List.sublist_append_left ts us)

theorem Token.Ordered.right {ts us : List Token} (h : Token.Ordered (ts ++ us)) :
    Token.Ordered us :=
  h.sublist (List.sublist_append_right ts us)

theorem Token.Ordered.tail {t : Token} {ts : List Token} (h : Token.Ordered (t :: ts)) :
    Token.Ordered ts :=
  h.sublist (List.sublist_cons_self t ts)

/-- A line end is the only token of its piece. -/
def Piece.NewlineAlone (piece : Piece) : Prop := .newline ∈ piece.kinds → piece.kinds = [.newline]

@[simp] theorem Piece.newlineAlone_gap (text : List Char) : (gap text).NewlineAlone := by
  simp [NewlineAlone, gap, kinds]

@[simp] theorem Piece.newlineAlone_token (kind : Kind) (text : List Char) :
    (token kind text).NewlineAlone := by
  simp [NewlineAlone, token, kinds, eq_comm]

@[simp] theorem Piece.newlineAlone_mark (kind : Kind) : (mark kind).NewlineAlone :=
  newlineAlone_token kind []

theorem Piece.not_newline_of_mem_fieldKinds {field : List Char} {k : Kind}
    (h : k ∈ fieldKinds field) : k ≠ .newline := by
  rintro rfl
  unfold fieldKinds at h
  split at h <;> simp at h

@[simp] theorem Piece.newlineAlone_arguments (list : ArgumentList) :
    (arguments list).NewlineAlone := by
  intro h
  simp only [kinds, List.mem_append, List.mem_flatMap] at h
  rcases h with (h | ⟨field, -, h⟩) | h
  · exact absurd rfl (not_newline_of_mem_fieldKinds h)
  · exact absurd rfl (not_newline_of_mem_fieldKinds h)
  · split at h <;> simp at h

theorem Piece.pairwise_place {pieces : List Piece} (hf : ∀ piece ∈ pieces, piece.Faithful)
    (ha : ∀ piece ∈ pieces, piece.NewlineAlone) (p : Position) :
    (place p pieces).Pairwise fun t u =>
      t.kind = .newline ∨ u.kind = .newline → t.span.stop.line ≤ u.span.start.line := by
  induction pieces generalizing p with
  | nil => exact .nil
  | cons piece pieces ih =>
    have hf' : ∀ q ∈ pieces, q.Faithful := fun q hq => hf q (by simp [hq])
    rw [place, List.pairwise_append]
    refine ⟨?_, ih hf' (fun q hq => ha q (by simp [hq])) _, ?_⟩
    · by_cases hn : .newline ∈ piece.kinds
      · have hlen : (piece.tokens p).length = 1 := by
          rw [← List.length_map Token.kind, kinds_tokens, ha piece (by simp) hn]
          rfl
        obtain ⟨t, ht⟩ := List.length_eq_one_iff.1 hlen
        rw [ht]
        exact List.pairwise_singleton _ t
      · -- no token of this piece is a line end
        have hne : ∀ t ∈ piece.tokens p, t.kind ≠ .newline := by
          intro t ht hk
          rw [← kinds_tokens p piece] at hn
          exact hn (hk ▸ List.mem_map_of_mem ht)
        have hall : (piece.tokens p).Pairwise fun _ _ => True :=
          List.pairwise_of_forall fun _ _ => trivial
        refine hall.imp_of_mem fun ht hu _ hk => ?_
        rcases hk with hk | hk
        · exact absurd hk (hne _ ht)
        · exact absurd hk (hne _ hu)
    · intro t ht u hu _
      exact Nat.le_trans (lies_of_mem_tokens (hf piece (by simp)) ht).stop_le_line
        (lies_of_mem_place hf' hu).line_le_start

namespace Canonical

/-! ## Kinds of rows -/

/-- The kind of a value, if there is one. -/
def Mark.valueKinds (m : Mark) : List Kind := m.value?.toList.map .tagValue

/-- The kinds of a label, its line end aside. -/
def Label.kinds : Label → List Kind
  | tag m => .tag m.name.text :: m.valueKinds
  | choiceTag m => .choiceTag (String.ofList ('@' :: m.name.chars)) :: m.valueKinds

/-- The kinds of a replica's lines, one of which stands behind each line end but the last. -/
def speechKinds (first : Phrase) (others : List Phrase) : List Kind :=
  .speech (String.ofList first.chars) ::
    others.flatMap fun p => [.newline, .speech (String.ofList p.chars)]

/-- The kinds of a leaf, its last line end aside. -/
def Leaf.kinds : Leaf → List Kind
  | goto target => [.goto "->", .identifier target.text]
  | call name first others => .call name.text :: (first :: others).map (.argument ·.text)
  | replica first others => .replicaBegin :: speechKinds first others ++ [.replicaEnd]

/-- The kinds of the text on the line of a choice. -/
def choiceTextKinds : Option Phrase → List Kind
  | none => []
  | some p =>
    [.choiceBound true, .choiceText (String.ofList (' ' :: p.chars)), .choiceBound true]

/-- The kinds of a choice without its body. -/
def choiceKinds (text : Option Phrase) : List Kind := .choice :: choiceTextKinds text

/-- The kinds of a row, its last line end aside. -/
def Row.kinds : Row → List Kind
  | label l => l.kinds
  | header name => [.header, .identifier name.text]
  | leaf l => l.kinds
  | choice text => choiceKinds text

theorem kinds_speeches (n : Nat) (p : Phrase) (ps : List Phrase) :
    (speeches n p ps).flatMap Piece.kinds = speechKinds p ps := by
  induction ps generalizing p with
  | nil => rfl
  | cons q qs ih =>
    simp [speeches, ih]
    rfl

theorem fieldKinds_word (w : Word) {blanks : List Char} (h : ∀ c ∈ blanks, Text.isBlank c = true) :
    Piece.fieldKinds (blanks ++ w.chars) = [.argument w.text] := by
  have htrim : Text.trim (blanks ++ w.chars) = w.chars := by
    rw [Text.trim, Text.trimStart, List.dropWhile_append_of_pos h]
    exact w.trim_eq
  rw [Piece.fieldKinds, if_neg (by simp [w.not_allBlank]), htrim]
  rfl

theorem kinds_arguments (first : Word) (others : List Word) (rest : List Char) :
    (Piece.arguments ⟨first.chars, others.map (' ' :: ·.chars), true, rest⟩).kinds =
      (first :: others).map (.argument ·.text) := by
  have hfirst : Piece.fieldKinds first.chars = [.argument first.text] :=
    @fieldKinds_word first [] nofun
  have hothers : ∀ w : Word, Piece.fieldKinds (' ' :: w.chars) = [.argument w.text] :=
    fun w => @fieldKinds_word w [' '] (List.forall_mem_singleton.2 rfl)
  simp only [Piece.kinds, hfirst, List.flatMap_map, hothers, if_true, List.append_nil]
  rw [← List.map_eq_flatMap]
  rfl

/-- The kinds of a row, the end of a replica and the line end behind it. -/
theorem kinds_row (n : Nat) (rest : List Char) (row : Row) (pieces : List Piece) :
    (row.pieces n rest ++ closing row.opens (lineFeed :: pieces)).flatMap Piece.kinds =
      row.kinds ++ .newline :: pieces.flatMap Piece.kinds := by
  rcases row with (m | m) | name | (target | ⟨name, first, others⟩ | ⟨first, others⟩) | (- | p)
  · obtain ⟨name, - | w⟩ := m <;> rfl
  · obtain ⟨name, - | w⟩ := m <;> rfl
  · rfl
  · rfl
  · simp [Row.pieces, Leaf.pieces, kinds_arguments]
    rfl
  · simp [Row.pieces, Leaf.pieces, Row.kinds, Leaf.kinds, Row.opens, closing, lineFeed, Piece.token,
      Piece.mark, Piece.kinds, kinds_speeches]
  · rfl
  · rfl

/-- The kinds of rows behind a line at `level`. -/
def rowsKinds : Nat → List (Nat × Row) → List Kind
  | level, [] => List.replicate level .dedent ++ [.eof]
  | level, (n, row) :: rows =>
    List.replicate (n - level) .indent ++ List.replicate (level - n) .dedent ++ row.kinds ++
      .newline :: rowsKinds n rows

theorem kinds_settledPieces (level : Nat) (rows : List (Nat × Row)) :
    (settledPieces level rows).flatMap Piece.kinds = rowsKinds level rows := by
  induction rows generalizing level with
  | nil =>
    simp [settledPieces, rowsKinds, Piece.mark, Piece.kinds, List.flatMap_replicate]
  | cons r rows ih =>
    obtain ⟨n, row⟩ := r
    rw [settledPieces, rowsKinds, List.cons_append, List.flatMap_cons, kinds_row, ih]
    simp [layout, Piece.kinds]

/-! ## Kinds of trees -/

/-- Labels, each on its line. -/
def labelsKinds (labels : List Label) : List Kind := labels.flatMap fun l => l.kinds ++ [.newline]

mutual

/-- The kinds of a statement, in which levels are brackets around bodies. -/
def Statement.kinds : Statement → List Kind
  | leaf tags l => labelsKinds (tags.map .tag) ++ l.kinds ++ [.newline]
  | choice labels text body =>
    labelsKinds labels ++ choiceKinds text ++ [.newline] ++
      if body.isEmpty then [] else .indent :: kindsOf body ++ [.dedent]

/-- The kinds of statements one after the other. -/
def Statement.kindsOf : List Statement → List Kind
  | [] => []
  | s :: ss => s.kinds ++ kindsOf ss

end

/-- The kinds of a section. -/
def Section.kinds (s : Section) : List Kind :=
  labelsKinds (s.tags.map .tag) ++ [.header, .identifier s.name.text, .newline] ++
    Statement.kindsOf s.statements

/-- Induction over statements in a row and over the bodies they hold. -/
theorem Statement.induction {motive : List Statement → Prop} (nil : motive [])
    (leaf : ∀ tags l ss, motive ss → motive (.leaf tags l :: ss))
    (choice : ∀ labels text body ss, motive body → motive ss →
      motive (.choice labels text body :: ss)) (ss : List Statement) : motive ss := by
  match ss with
  | [] => exact nil
  | .leaf tags l :: ss => exact leaf tags l ss (Statement.induction nil leaf choice ss)
  | .choice labels text body :: ss =>
    exact choice labels text body ss (Statement.induction nil leaf choice body)
      (Statement.induction nil leaf choice ss)

/-- The first of the rows stands at `level` or further out. -/
def Within (level : Nat) (rows : List (Nat × Row)) : Prop := ∀ r ∈ rows.head?, r.1 ≤ level

/-- The rows of a statement begin at its own level. -/
theorem rows_cons (level : Nat) (s : Statement) :
    ∃ row rows, s.rows level = (level, row) :: rows := by
  rcases s with ⟨- | ⟨m, tags⟩, l⟩ | ⟨- | ⟨l, labels⟩, text, body⟩
  all_goals exact ⟨_, _, rfl⟩

theorem within_rowsOf {level : Nat} {later : List (Nat × Row)} (h : Within level later)
    (ss : List Statement) : Within level (Statement.rowsOf level ss ++ later) := by
  cases ss with
  | nil => exact h
  | cons s ss =>
    obtain ⟨row, rows, hs⟩ := rows_cons level s
    intro r hr
    rw [Statement.rowsOf, hs] at hr
    obtain rfl : (level, row) = r := Option.some.inj hr
    exact Nat.le_refl level

theorem rowsKinds_same (level : Nat) (row : Row) (rows : List (Nat × Row)) :
    rowsKinds level ((level, row) :: rows) = row.kinds ++ .newline :: rowsKinds level rows := by
  simp [rowsKinds]

theorem rowsKinds_labels (level : Nat) (labels : List Label) (rows : List (Nat × Row)) :
    rowsKinds level (labelRows level labels ++ rows) =
      labelsKinds labels ++ rowsKinds level rows := by
  induction labels with
  | nil => rfl
  | cons l labels ih =>
    rw [labelRows, List.map_cons, ← labelRows, List.cons_append, rowsKinds_same, ih]
    simp [labelsKinds, Row.kinds]

/-- Leaving a level is one dedent more. -/
theorem rowsKinds_leave {level : Nat} {rows : List (Nat × Row)} (h : Within level rows) :
    rowsKinds (level + 1) rows = .dedent :: rowsKinds level rows := by
  cases rows with
  | nil => rfl
  | cons r rows =>
    obtain ⟨n, row⟩ := r
    have hn : n ≤ level := h (n, row) rfl
    have h1 : n - (level + 1) = 0 := by omega
    have h2 : n - level = 0 := by omega
    have h3 : level + 1 - n = level - n + 1 := by omega
    simp [rowsKinds, h1, h2, h3, List.replicate_succ]

/-- Entering a level is one indent more. -/
theorem rowsKinds_enter {level : Nat} {ss : List Statement} (h : ss ≠ [])
    (rows : List (Nat × Row)) :
    rowsKinds level (Statement.rowsOf (level + 1) ss ++ rows) =
      .indent :: rowsKinds (level + 1) (Statement.rowsOf (level + 1) ss ++ rows) := by
  obtain ⟨s, ss, rfl⟩ := List.exists_cons_of_ne_nil h
  obtain ⟨row, srows, hs⟩ := rows_cons (level + 1) s
  have h1 : level + 1 - level = 1 := by omega
  have h2 : level - (level + 1) = 0 := by omega
  simp [Statement.rowsOf, hs, rowsKinds, h1, h2]

/-- Statements are read between the levels around them, whatever comes later. -/
theorem rowsKinds_statements (ss : List Statement) {level : Nat} {later : List (Nat × Row)}
    (h : Within level later) :
    rowsKinds level (Statement.rowsOf level ss ++ later) =
      Statement.kindsOf ss ++ rowsKinds level later := by
  induction ss using Statement.induction generalizing level later with
  | nil => rfl
  | leaf tags l ss ih =>
    rw [Statement.rowsOf, Statement.rows, List.append_assoc, List.append_assoc, rowsKinds_labels,
      List.singleton_append, rowsKinds_same, ih h]
    simp [Statement.kindsOf, Statement.kinds, Row.kinds]
  | choice labels text body ss ihbody ih =>
    have hlater := within_rowsOf h ss
    rw [Statement.rowsOf, Statement.rows, List.append_assoc, List.append_assoc, rowsKinds_labels,
      List.cons_append, rowsKinds_same]
    by_cases hbody : body = []
    · subst hbody
      rw [Statement.rowsOf, List.nil_append, ih h]
      simp [Statement.kindsOf, Statement.kinds, Row.kinds]
    · -- the body is read at its own level, up to rows that are further out
      have hinner : Within (level + 1) (Statement.rowsOf level ss ++ later) :=
        fun r hr => Nat.le_succ_of_le (hlater r hr)
      rw [rowsKinds_enter hbody, ihbody hinner, rowsKinds_leave hlater, ih h]
      simp [Statement.kindsOf, Statement.kinds, Row.kinds, hbody]

theorem within_sections (sections : List Section) :
    Within 0 (sections.flatMap Section.rows) := by
  rcases sections with - | ⟨⟨- | ⟨m, tags⟩, name, statements⟩, sections⟩
  · exact nofun
  all_goals
    intro r hr
    obtain rfl := Option.some.inj hr
    exact Nat.le_refl 0

theorem rowsKinds_sections (sections : List Section) :
    rowsKinds 0 (sections.flatMap Section.rows) = sections.flatMap Section.kinds ++ [.eof] := by
  induction sections with
  | nil => rfl
  | cons s sections ih =>
    rw [List.flatMap_cons, Section.rows, List.append_assoc, rowsKinds_labels, List.cons_append,
      rowsKinds_same, rowsKinds_statements _ (within_sections sections), ih]
    simp [Section.kinds, Row.kinds]

theorem settle_render (story : Story) :
    Piece.settle (Lexer.run {} story.render.toList) =
      settledPieces 0 (story.sections.flatMap Section.rows) := by
  rw [Story.render, String.toList_ofList]
  exact settle_run_written false 0 _

/-- What a canonical story is read into. -/
theorem kinds_tokenize_render (story : Story) :
    (tokenize story.render).map Token.kind = story.sections.flatMap Section.kinds ++ [.eof] := by
  rw [tokenize, Piece.kinds_place, settle_render, kinds_settledPieces, rowsKinds_sections]

theorem newlineAlone_speeches (n : Nat) (p : Phrase) (ps : List Phrase) :
    ∀ piece ∈ speeches n p ps, piece.NewlineAlone := by
  induction ps generalizing p with
  | nil => simp [speeches, speech]
  | cons q qs ih => simpa [speeches, speech, lineFeed] using ih q

theorem newlineAlone_row (n : Nat) (rest : List Char) (row : Row) :
    ∀ piece ∈ row.pieces n rest, piece.NewlineAlone := by
  rcases row with (⟨name, - | w⟩ | ⟨name, - | w⟩) | name |
    (target | ⟨name, first, others⟩ | ⟨first, others⟩) | (- | p)
  case leaf.replica => simpa [Row.pieces, Leaf.pieces] using newlineAlone_speeches n first others
  all_goals simp [Row.pieces, Label.pieces, Mark.valuePieces, Leaf.pieces]

theorem newlineAlone_settledPieces (level : Nat) (rows : List (Nat × Row)) :
    ∀ piece ∈ settledPieces level rows, piece.NewlineAlone := by
  induction rows generalizing level with
  | nil =>
    intro piece hp
    rcases List.mem_append.1 hp with hp | hp
    · rw [(List.mem_replicate.1 hp).2]
      exact Piece.newlineAlone_mark .dedent
    · rw [List.mem_singleton.1 hp]
      exact Piece.newlineAlone_mark .eof
  | cons r rows ih =>
    obtain ⟨n, row⟩ := r
    intro piece hp
    rw [settledPieces, List.cons_append, List.mem_cons, List.mem_append] at hp
    rcases hp with rfl | hp | hp
    · simp [Piece.NewlineAlone, Piece.kinds, layout]
    · exact newlineAlone_row n _ row piece hp
    · have hclosing : piece = .mark .replicaEnd ∨ piece ∈ lineFeed :: settledPieces n rows := by
        unfold closing at hp
        split at hp
        · exact List.mem_cons.1 hp
        · exact .inr hp
      rcases hclosing with rfl | hp
      · exact Piece.newlineAlone_mark .replicaEnd
      rcases List.mem_cons.1 hp with rfl | hp
      · exact Piece.newlineAlone_token .newline ['\n']
      · exact ih n piece hp

/-- Tokens with a line end between them stand on different lines. -/
theorem ordered_tokenize_render (story : Story) : Token.Ordered (tokenize story.render) := by
  refine ⟨?_, fun t ht hk => (lies_of_mem_tokenize ht).start_lt_stop hk⟩
  refine Piece.pairwise_place ?_ ?_ Position.origin
  · intro piece hp
    exact Lexer.faithful_run _ _ piece ((Piece.perm_settle _).mem_iff.1 hp)
  · rw [settle_render]
    exact newlineAlone_settledPieces 0 _

end Canonical

end StoryScript

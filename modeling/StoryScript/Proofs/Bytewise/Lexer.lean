import StoryScript.Proofs.Bytewise.Scanners
/-!
# The lexer by bytes

The main loop steps through the source up to its end and is allowed four turns for each byte and 64
more. Every turn moves the cursor or closes a replica, so it stays below: the turns that do not move
the cursor are no more than the replicas that are opened. What the loop has emitted when it gets to
the end are the tokens of the source (`progress_tokenize`).
-/

namespace StoryScript

open Token (Kind)

/-! ## Replicas opened and closed -/

/-- How many replicas pieces open. -/
def Piece.opened (pieces : List Piece) : Nat :=
  pieces.countP (· = .token .replicaBegin ['"', ' '])

theorem Piece.opened_append (as bs : List Piece) : opened (as ++ bs) = opened as + opened bs :=
  List.countP_append

/-- How many replicas are open in a mode. -/
def Lexer.Mode.open (m : Lexer.Mode) : Nat := if m = .replica then 1 else 0

/-- A replica is open only if it was or if it is opened. -/
theorem Lexer.Context.ReadsAll.open_le {f g : Context} {pieces : List Piece}
    (h : f.ReadsAll pieces g) : g.mode.open ≤ f.mode.open + Piece.opened pieces := by
  induction h with
  | nil => exact Nat.le_add_right _ _
  | @cons f g h unit pieces hu _ ih =>
    have hunit : g.mode.open ≤ f.mode.open + Piece.opened unit := by
      by_cases hf : f.mode = .replica
      · rw [Mode.open, Mode.open, if_pos hf]
        split <;> omega
      · rcases hu.of_not_replica hf with hg | ⟨rfl, -, hg, -⟩
        · rw [Mode.open, if_neg hg]
          exact Nat.zero_le _
        · rw [Mode.open, if_pos hg]
          exact Nat.le_add_left 1 _
    rw [Piece.opened_append]
    omega

/-- Each replica that pieces open has a token. -/
theorem Piece.opened_le (p : Position) (pieces : List Piece) :
    opened pieces ≤ (place p pieces).countP (·.kind = .replicaBegin) := by
  induction pieces generalizing p with
  | nil => exact Nat.le_refl _
  | cons piece pieces ih =>
    have hlater := ih (p.advance piece.text)
    rw [opened, List.countP_cons, ← opened, place, List.countP_append]
    split
    · next hp =>
      rw [of_decide_eq_true hp] at hlater ⊢
      exact (Nat.add_le_add_right hlater 1).trans_eq (Nat.add_comm _ _)
    · omega

theorem opened_run_le (source : String) :
    Piece.opened (Lexer.run {} source.toList) ≤
      (tokenize source).countP (·.kind = .replicaBegin) := by
  have hsettle : Piece.opened (Lexer.run {} source.toList) =
      Piece.opened (Piece.settle (Lexer.run {} source.toList)) :=
    ((Piece.perm_settle _).countP_eq _).symm
  rw [hsettle]
  exact Piece.opened_le _ _

/-! ## Steps that read nothing -/

namespace Lexer.State

variable {s : State} {c : Char} {cs : List Char}

theorem length_scan_le (s : State) (h : atLineEnd (c :: cs) = false) :
    (s.scan c cs).rest.length ≤ (c :: cs).length := by
  have hlt := s.weight_scan_lt h
  unfold weight at hlt
  split at hlt <;> split at hlt <;> omega

/-- A scanner that reads nothing closes the open replica. -/
theorem scan_idle (h : atLineEnd (c :: cs) = false) (hr : (s.scan c cs).rest = c :: cs) :
    s.mode = .replica ∧
      s.scan c cs = { s with mode := .structural }.read [.mark .replicaEnd] (c :: cs) := by
  have hlength : ¬(s.scan c cs).rest.length < (c :: cs).length := by simp [hr]
  unfold scan at hlength ⊢
  by_cases hc : s.inComment = true
  · rw [if_pos hc] at hlength
    exact absurd (length_commentLine_lt s h) hlength
  rw [if_neg hc] at hlength ⊢
  split at hlength
  · exact absurd (length_structural_lt s h) hlength
  · next hm =>
    have hends : s.behind.endsReplica (c :: cs) = true := by
      by_contra hends
      exact hlength (length_replica_lt s h (by simpa using hends))
    refine ⟨hm, ?_⟩
    rw [replica, if_pos hends, leaveReplica, replicaEnd, if_pos hm, if_pos hm]
  · exact absurd (length_choiceText_lt s h) hlength

/-- A replica is still open behind the indentation of a line only if the level is kept. -/
theorem indentation_idle {spacers rest : List Char}
    (h : (s.indentation spacers rest).2.mode = .replica) :
    s.indentation spacers rest = ([.gap spacers], s) := by
  unfold indentation at h ⊢
  dsimp only at h ⊢
  split at h
  · next hkeep => rw [if_pos hkeep]
  · unfold leaveReplica at h
    split at h
    · cases h
    · next hs => exact absurd h hs

/-- Where the indentation of a line is measured, a step reads its spaces and tabs. -/
theorem length_step_of_spacer (hn : atNewline (c :: cs) = false) (hm : s.measures = true)
    (hc : isSpacer c = true) : (s.step c cs).rest.length < (c :: cs).length := by
  have hlt : ((c :: cs).dropWhile isSpacer).length < (c :: cs).length := by
    rw [List.dropWhile_cons_of_pos hc]
    exact Nat.lt_succ_of_le (List.dropWhile_sublist isSpacer).length_le
  unfold step
  rw [if_neg (by simp [hn]), if_pos hm]
  dsimp only
  split
  · exact Nat.succ_pos _
  · next d ds hd =>
    rw [hd] at hlt
    split
    · exact hlt
    · next hdn => exact Nat.lt_of_le_of_lt (length_scan_le _ (by simpa [atLineEnd] using hdn)) hlt

/-- A step that reads nothing closes the open replica, and nothing else. -/
theorem step_idle (hr : (s.step c cs).rest = c :: cs) :
    s.mode = .replica ∧
      (s.step c cs).state = { s with mode := .structural, freshLine := false } ∧
      ((s.step c cs).pieces = [.mark .replicaEnd] ∨
        (s.step c cs).pieces = [.gap [], .mark .replicaEnd]) := by
  have hlength : ¬(s.step c cs).rest.length < (c :: cs).length := by simp [hr]
  by_cases hn : atNewline (c :: cs) = true
  · rw [step, if_pos hn] at hlength
    exact absurd (length_newline_lt s c cs) hlength
  have hl : atLineEnd (c :: cs) = false := by simpa [atLineEnd] using hn
  by_cases hm : s.measures = true
  · have hc : ¬isSpacer c = true := fun hc =>
      hlength (length_step_of_spacer (by simpa using hn) hm hc)
    rw [step, if_neg hn, if_pos hm, List.takeWhile_cons_of_neg hc,
      List.dropWhile_cons_of_neg hc] at hr ⊢
    dsimp only at hr ⊢
    rw [if_neg hn] at hr ⊢
    obtain ⟨hmode, hscan⟩ := scan_idle hl hr
    have hlead := indentation_idle hmode
    rw [hscan, hlead]
    rw [hlead] at hmode
    exact ⟨hmode, rfl, .inr rfl⟩
  · rw [step, if_neg hn, if_neg hm] at hr ⊢
    obtain ⟨hmode, hscan⟩ := scan_idle hl hr
    rw [hscan]
    exact ⟨hmode, rfl, .inl rfl⟩

end Lexer.State

namespace Bytewise

open Indexed (Guarded)
open Lexer (State)

/-! ## Turns of the main loop -/

/-- A turn of the main loop: the cursor before it and behind it. -/
structure Turn where
  before : Cursor
  after : Cursor

namespace Turn

/-- The turn reads no character. -/
def Idle (t : Turn) : Prop := t.after.position = t.before.position

instance (t : Turn) : Decidable t.Idle := inferInstanceAs (Decidable (_ = _))

/-- A replica is open before the turn, and what the turn does is to close it: its end is emitted,
and then what has waited for it. -/
structure ClosesReplica (t : Turn) : Prop where
  before : t.before.mode = .replica
  after : t.after = { t.before with
    mode := .structural, freshLine := false, emission := t.before.emission.close }

end Turn

/-- The turns of the main loop up to the end of the source, and the cursor there. The loop has to
get there in a number of turns. -/
def turnsWithin (text : List Char) : (turns : Nat) → Cursor → Guarded (List Turn × Cursor)
  | 0, l => do
    if (← peek text l.position).isNone then return ([], l) else throw .ceiling
  | turns + 1, l => do
    if (← peek text l.position).isNone then return ([], l)
    else
      let l' ← step text l
      let later ← turnsWithin text turns l'
      return (⟨l, l'⟩ :: later.1, later.2)

/-- How many turns the main loop is allowed. -/
def ceiling (source : String) : Nat := source.utf8ByteSize * 4 + 64

/-- The turns of the main loop through a source and the cursor at its end. -/
def turns (source : String) : Guarded (List Turn × Cursor) :=
  turnsWithin source.toList (ceiling source) {}

/-- The tokens that have been emitted when all that is open at the end of the source is closed. -/
def Cursor.tokens (l : Cursor) : List Token := l.finish.emission.tokens

/-- What is still open at the end is closed as the pieces at the end say. -/
theorem tokens_cursor {text cs : List Char} {s : State} {o : Output} (h : Reached text s o cs) :
    (cursor s o).tokens = (o.passAll s.finish).emission.tokens := by
  obtain ⟨e, hclosed⟩ := h.passAll_replicaEnd
  have hfinish : s.finish = s.replicaEnd ++ Lexer.closing s.level := List.append_assoc ..
  rw [hfinish, Output.passAll_append, hclosed,
    Output.passAll_free (Lexer.free_closing rfl rfl s.level), Piece.place_closing, Cursor.tokens,
    Cursor.finish, Reached.closeReplica_cursor, hclosed, State.leaveReplica]
  split <;> rfl

/-- What the turns from a place on come to. -/
structure TurnsFrom (s : State) (o : Output) (cs : List Char) (ts : List Turn) (l : Cursor) :
    Prop where
  tokens : l.tokens = (o.passAll (Lexer.run s cs)).emission.tokens
  closes : ∀ t ∈ ts, t.Idle → t.ClosesReplica
  idle_le : ts.countP (·.Idle) ≤ s.mode.open + Piece.opened (Lexer.run s cs)

section
variable {text cs : List Char} {s : State} {o : Output} {c : Char} {ts : List Turn} {l : Cursor}

theorem turnsFrom_nil (h : Reached text s o []) : TurnsFrom s o [] [] (cursor s o) where
  tokens := by rw [tokens_cursor h, Lexer.run]
  closes := nofun
  idle_le := Nat.zero_le _

/-- The place that a step leads to. -/
theorem Reached.step (h : Reached text s o (c :: cs)) :
    Reached text (s.step c cs).state (o.passAll (s.step c cs).pieces) (s.step c cs).rest where
  stands := by
    rw [Output.position_passAll, s.passes_step c cs]
    exact Stands.move (by rw [(s.splits_step c cs).texts_append]; exact h.stands)
  output := h.output.passAll (s.readsFrom_step c cs)

/-- The turn that takes a step. -/
def turnAt (s : State) (o : Output) (c : Char) (cs : List Char) : Turn :=
  ⟨cursor s o, after (s.step c cs) o⟩

theorem closesReplica_turnAt (h : (turnAt s o c cs).Idle) : (turnAt s o c cs).ClosesReplica := by
  have hnil : Piece.texts (s.step c cs).pieces = [] := by
    by_contra hne
    have hpos := Indexed.utf8Len_pos hne
    have hsame : (o.passAll (s.step c cs).pieces).position = o.position := h
    have hoffset := congrArg Position.offset hsame
    rw [Output.position_passAll, Position.offset_advance] at hoffset
    omega
  have hrest := (s.splits_step c cs).texts_append
  rw [hnil, List.nil_append] at hrest
  obtain ⟨hmode, hstate, hpieces⟩ := State.step_idle hrest
  refine ⟨hmode, ?_⟩
  rw [turnAt, after, hstate]
  rcases hpieces with hpieces | hpieces
  · rw [hpieces]
    rfl
  · rw [hpieces]
    rfl

theorem turnsFrom_cons
    (h : TurnsFrom (s.step c cs).state (o.passAll (s.step c cs).pieces) (s.step c cs).rest ts l) :
    TurnsFrom s o (c :: cs) (turnAt s o c cs :: ts) l where
  tokens := by rw [h.tokens, Lexer.run, Output.passAll_append]
  closes := by
    intro t ht
    rcases List.mem_cons.1 ht with rfl | ht
    · exact closesReplica_turnAt
    · exact h.closes t ht
  idle_le := by
    have hopen : (s.step c cs).state.mode.open ≤ s.mode.open + Piece.opened (s.step c cs).pieces :=
      (s.readsFrom_step c cs).open_le
    have hle := h.idle_le
    rw [List.countP_cons, Lexer.run, Piece.opened_append]
    split
    · next hidle =>
      -- the replica that the turn closes pays for it
      have hcloses := closesReplica_turnAt (of_decide_eq_true hidle)
      have hbefore : s.mode.open = 1 := if_pos hcloses.before
      have hafter : (s.step c cs).state.mode.open = 0 :=
        congrArg (fun l : Cursor => l.mode.open) hcloses.after
      omega
    · omega

/-- The loop comes to the end of the source if it is allowed as many turns as the place weighs. -/
theorem Reached.turnsWithin_eq {turns : Nat} (h : Reached text s o cs) (ht : s.weight cs ≤ turns) :
    ∃ ts l, turnsWithin text turns (cursor s o) = pure (ts, l) ∧ TurnsFrom s o cs ts l ∧
      ts.length ≤ turns := by
  induction turns generalizing s o cs with
  | zero =>
    cases cs with
    | nil =>
      refine ⟨[], cursor s o, ?_, turnsFrom_nil h, Nat.zero_le _⟩
      rw [turnsWithin, h.stands.peek_eq]
      rfl
    | cons c cs =>
      rw [State.weight, List.length_cons] at ht
      omega
  | succ turns ih =>
    rw [turnsWithin, h.stands.peek_eq, pure_bind]
    cases cs with
    | nil => exact ⟨[], cursor s o, rfl, turnsFrom_nil h, Nat.zero_le _⟩
    | cons c cs =>
      have hlt := s.weight_step_lt c cs
      obtain ⟨ts, l, hturns, hall, hlength⟩ := ih h.step (by omega)
      refine ⟨turnAt s o c cs :: ts, l, ?_, turnsFrom_cons hall, Nat.succ_le_succ hlength⟩
      rw [if_neg (by simp), h.step_eq, pure_bind, after, hturns]
      rfl

end

/-- No guard of the lexer fires on a source: the main loop takes no more turns than it is allowed,
each loop reads something in each of its turns, the depth of an argument list does not fall below
zero, and all that is cut out of the source is there. What is emitted are the tokens of the source.
A turn of the main loop that reads nothing closes a replica, and there are no more such turns than
replicas. -/
theorem progress_tokenize (source : String) :
    ∃ ts l, turns source = .ok (ts, l) ∧ l.tokens = tokenize source ∧
      ts.length ≤ source.utf8ByteSize * 4 + 64 ∧
      (∀ t ∈ ts, t.Idle → t.ClosesReplica) ∧
      ts.countP (·.Idle) ≤ (tokenize source).countP (·.kind = .replicaBegin) := by
  have hstart : Reached source.toList {} {} source.toList :=
    ⟨stands_start source.toList, rfl, fun _ => rfl⟩
  have hweight : ({} : State).weight source.toList ≤ ceiling source := by
    have hlength := Indexed.length_le_utf8Len source.toList
    rw [String.utf8Len_toList] at hlength
    rw [State.weight, if_neg (by decide), ceiling]
    omega
  obtain ⟨ts, l, hturns, hall, hlength⟩ := hstart.turnsWithin_eq hweight
  refine ⟨ts, l, hturns, hall.tokens.trans (tokens_passAll_run source), hlength, hall.closes, ?_⟩
  calc ts.countP (·.Idle)
      ≤ ({} : State).mode.open + Piece.opened (Lexer.run {} source.toList) := hall.idle_le
    _ = Piece.opened (Lexer.run {} source.toList) := Nat.zero_add _
    _ ≤ (tokenize source).countP (·.kind = .replicaBegin) := opened_run_le source

/-- A replica that another one ends is closed in a turn that reads nothing. -/
example : (turns "\" a \" b").map (·.1.map fun t => decide t.Idle) =
    .ok [false, false, true, false, false] := rfl

end Bytewise

end StoryScript

import StoryScript.Proofs.Token.Replicas
/-!
# Emitting tokens

Tokens can be emitted while the source is read. In an open replica they wait until more is said or
the replica closes, and its end is emitted ahead of those that wait. `Output.pass` emits the tokens
of a piece in this way. What it comes to over the pieces of a source are the tokens of the source,
whose replicas are settled only when all pieces are known (`tokens_passAll_run`).
-/

namespace StoryScript.Bytewise

open Lexer (Context State)
open Token (Kind)
open Piece (settle pushSettled place texts)

/-! ## Tokens that wait -/

/-- The tokens that have been emitted and those that wait in an open replica. -/
structure Emission where
  tokens : List Token := []
  /-- What was read in the open replica behind its last speech. -/
  trailing : List Token := []
  /-- Where the last speech of the open replica ends, or its beginning if nothing is said yet. -/
  lastEnd : Position := .origin
deriving DecidableEq, Repr

namespace Emission

/-- Emit a token. In a replica speech takes along what waits, and all else waits. -/
def push (inReplica : Bool) (e : Emission) (t : Token) : Emission :=
  if inReplica then
    match t.kind with
    | .speech _ => ⟨e.tokens ++ e.trailing ++ [t], [], t.span.stop⟩
    | _ => { e with trailing := e.trailing ++ [t] }
  else { e with tokens := e.tokens ++ [t] }

/-- The end of the open replica, and what has waited for it. -/
def close (e : Emission) : Emission :=
  { e with tokens := e.tokens ++ ⟨.replicaEnd, .point e.lastEnd⟩ :: e.trailing, trailing := [] }

/-- Emit tokens as they are. -/
def append (e : Emission) (ts : List Token) : Emission := { e with tokens := e.tokens ++ ts }

end Emission

/-! ## Emitting pieces -/

/-- What has been emitted, and up to where. -/
structure Output where
  inReplica : Bool := false
  position : Position := .origin
  emission : Emission := {}

namespace Output

/-- Emit a piece. -/
def pass (o : Output) : Piece → Output
  | .covered text [.replicaEnd] =>
    { inReplica := false, position := o.position.advance text, emission := o.emission.close }
  | .covered text [.replicaBegin] =>
    let stop := o.position.advance text
    let e := o.emission.push o.inReplica ⟨.replicaBegin, .ofText o.position text⟩
    { inReplica := true, position := stop, emission := { e with lastEnd := stop } }
  | piece =>
    { o with
      position := o.position.advance piece.text
      emission := (piece.tokens o.position).foldl (.push o.inReplica) o.emission }

/-- Emit pieces in a row. -/
def passAll (o : Output) (pieces : List Piece) : Output := pieces.foldl pass o

variable {o : Output}

@[simp] theorem passAll_nil : o.passAll [] = o := rfl

@[simp] theorem passAll_cons (piece : Piece) (pieces : List Piece) :
    o.passAll (piece :: pieces) = (o.pass piece).passAll pieces := rfl

theorem passAll_append (as bs : List Piece) :
    o.passAll (as ++ bs) = (o.passAll as).passAll bs := List.foldl_append

theorem position_pass (piece : Piece) :
    (o.pass piece).position = o.position.advance piece.text := by
  unfold pass
  split <;> rfl

theorem position_passAll (pieces : List Piece) :
    (o.passAll pieces).position = o.position.advance (texts pieces) := by
  induction pieces generalizing o with
  | nil => rfl
  | cons piece pieces ih =>
    rw [passAll_cons, ih, position_pass, Piece.texts_cons, Position.advance_append]

/-- A piece that neither opens nor closes a replica leaves it at that. -/
theorem pass_free {piece : Piece} (h : piece.Free Kind.isOfReplica) :
    o.pass piece =
      { o with
        position := o.position.advance piece.text
        emission := (piece.tokens o.position).foldl (.push o.inReplica) o.emission } := by
  unfold pass
  split
  · cases h .replicaEnd (List.mem_singleton_self _)
  · cases h .replicaBegin (List.mem_singleton_self _)
  · rfl

end Output

/-! ## Outside of replicas -/

theorem foldl_push_false (e : Emission) (ts : List Token) :
    ts.foldl (.push false) e = e.append ts := by
  induction ts generalizing e with
  | nil => simp [Emission.append]
  | cons t ts ih => simp [ih, Emission.append, Emission.push]

section
variable {p : Position} {e : Emission}

namespace Output

theorem passAll_free {pieces : List Piece} (h : ∀ piece ∈ pieces, piece.Free Kind.isOfReplica) :
    (⟨false, p, e⟩ : Output).passAll pieces =
      ⟨false, p.advance (texts pieces), e.append (place p pieces)⟩ := by
  induction pieces generalizing p e with
  | nil => simp [Emission.append]
  | cons piece pieces ih =>
    obtain ⟨hpiece, hpieces⟩ := List.forall_mem_cons.1 h
    rw [passAll_cons, pass_free hpiece, ih hpieces, foldl_push_false]
    simp [Emission.append, place, Position.advance_append]

end Output

/-! ## In a replica -/

/-- The tokens of pieces that follow what has been emitted. What waits goes in front of them, but
behind the end of the open replica if that comes first. -/
def Emission.settled (e : Emission) (p : Position) : List Piece → List Token
  | .covered [] [.replicaEnd] :: pieces => e.close.tokens ++ place p pieces
  | pieces => e.tokens ++ (e.trailing ++ place p pieces)

theorem settled_mark (pieces : List Piece) :
    e.settled p (.mark .replicaEnd :: pieces) = e.close.tokens ++ place p pieces := rfl

theorem settled_eq {pieces : List Piece} (h : pieces.head? ≠ some (.mark .replicaEnd)) :
    e.settled p pieces = e.tokens ++ (e.trailing ++ place p pieces) := by
  unfold Emission.settled
  split
  · exact absurd rfl h
  · rfl

/-- Space and trivia wait. -/
theorem settled_wait {piece : Piece} {e' : Emission}
    (he : e' = { e with trailing := e.trailing ++ piece.tokens p })
    (hold : piece.holdsReplica = false) (hm : piece ≠ .mark .replicaEnd) (pieces : List Piece) :
    e'.settled (p.advance piece.text) pieces = e.settled p (pushSettled piece pieces) := by
  by_cases hp : pieces.head? = some (.mark .replicaEnd)
  · obtain ⟨rest, rfl⟩ := List.head?_eq_some_iff.1 hp
    rw [Piece.pushSettled_mark hold, settled_mark, settled_mark, he]
    simp [Emission.close, place]
  · rw [Piece.pushSettled_eq hp, settled_eq hp, settled_eq (by simpa using hm), he]
    simp [place]

/-- What holds a replica goes to the tokens, and the replica can end behind it. -/
theorem settled_hold {piece : Piece} {t : Token} {e' : Emission}
    (he : e' = ⟨e.tokens ++ e.trailing ++ [t], [], p.advance piece.text⟩)
    (ht : piece.tokens p = [t]) (hold : piece.holdsReplica = true) (hm : piece ≠ .mark .replicaEnd)
    (pieces : List Piece) :
    e'.settled (p.advance piece.text) pieces = e.settled p (pushSettled piece pieces) := by
  by_cases hp : pieces.head? = some (.mark .replicaEnd)
  · obtain ⟨rest, rfl⟩ := List.head?_eq_some_iff.1 hp
    rw [Piece.pushSettled_holds hold, settled_mark, settled_eq (by simpa using hm), place, ht,
      Piece.place_mark, he]
    simp [Emission.close]
  · rw [Piece.pushSettled_eq hp, settled_eq hp, settled_eq (by simpa using hm), he]
    simp [place, ht]

theorem pass_inReplica {piece : Piece} (h : piece.InReplica) :
    ∃ e', (⟨true, p, e⟩ : Output).pass piece = ⟨true, p.advance piece.text, e'⟩ ∧
      ∀ pieces, e'.settled (p.advance piece.text) pieces =
        e.settled p (pushSettled piece pieces) := by
  have hm := h.ne_mark
  obtain ⟨f, g, h, hf, hg⟩ := h
  cases h with
  | newline | comment | commentOpen | commentText | commentClose =>
    exact ⟨_, rfl, settled_wait rfl rfl hm⟩
  | space => exact ⟨_, rfl, settled_wait (by simp [Piece.gap, Piece.tokens]) rfl hm⟩
  | speech => exact ⟨_, rfl, settled_hold rfl rfl rfl hm⟩
  | replicaEnd => cases hg
  | _ => cases hf

end

/-! ## The pieces of a source -/

/-- An output knows whether a replica is open, and outside of replicas nothing waits. -/
structure Output.In (o : Output) (f : Context) : Prop where
  inReplica : o.inReplica = decide (f.mode = .replica)
  trailing : f.mode ≠ .replica → o.emission.trailing = []

section
variable {f g : Context} {o : Output} {unit pieces : List Piece}

/-- A unit is emitted as it is settled. -/
theorem passAll_unit (h : f.Reads unit g) (ho : o.In f) :
    (o.passAll unit).In g ∧
      ∀ pieces : List Piece, (g.mode ≠ .replica → pieces.head? ≠ some (.mark .replicaEnd)) →
        (o.passAll unit).emission.settled (o.passAll unit).position pieces =
          o.emission.settled o.position (unit.foldr pushSettled pieces) := by
  obtain ⟨inReplica, p, e⟩ := o
  obtain ⟨hflag, htrailing⟩ := ho
  obtain rfl : inReplica = decide (f.mode = .replica) := hflag
  by_cases hf : f.mode = .replica
  · rw [decide_eq_true hf]
    rcases h.of_replica hf with ⟨rfl, hg⟩ | ⟨piece, rfl, hp, hg⟩
    · refine ⟨⟨by rw [hg]; rfl, fun _ => rfl⟩, fun pieces hhead => ?_⟩
      have hnone := hhead (by rw [hg]; nofun)
      rw [List.foldr_cons, List.foldr_nil, Piece.pushSettled_eq hnone, settled_mark,
        settled_eq hnone]
      rfl
    · obtain ⟨e', hpass, hsettled⟩ := pass_inReplica (p := p) (e := e) hp
      rw [Output.passAll_cons, Output.passAll_nil, hpass]
      exact ⟨⟨by rw [hg]; rfl, fun h => absurd hg h⟩, fun pieces _ => hsettled pieces⟩
  · have hempty : e.trailing = [] := htrailing hf
    rw [decide_eq_false hf]
    rcases h.of_not_replica hf with hg | ⟨rfl, -, hg, -⟩
    · rw [Output.passAll_free (Piece.free_replica_of_reads h hf hg)]
      refine ⟨⟨(decide_eq_false hg).symm, fun _ => hempty⟩, fun pieces hhead => ?_⟩
      have hnone := hhead hg
      have hunit : (unit ++ pieces).head? ≠ some (.mark .replicaEnd) := by
        rw [List.head?_append_of_ne_nil _ h.ne_nil]
        exact fun hm => h.mark_not_mem hf (List.mem_of_mem_head? hm)
      rw [Piece.foldr_pushSettled (h.mark_not_mem hf) hnone, settled_eq hnone, settled_eq hunit]
      simp [Emission.append, hempty, Piece.place_append]
    · refine ⟨⟨by rw [hg]; rfl, fun h => absurd hg h⟩, fun pieces _ => ?_⟩
      obtain ⟨tokens, trailing, lastEnd⟩ := e
      obtain rfl : trailing = [] := hempty
      have hmark : Piece.token .replicaBegin ['"', ' '] ≠ .mark .replicaEnd := by
        simp [Piece.token, Piece.mark]
      refine settled_hold ?_ rfl rfl hmark pieces
      rw [List.append_nil]
      rfl

theorem Output.In.passAll (h : f.ReadsAll pieces g) (ho : o.In f) : (o.passAll pieces).In g := by
  induction h generalizing o with
  | nil => exact ho
  | cons hu _ ih =>
    rw [Output.passAll_append]
    exact ih (passAll_unit hu ho).1

/-- Where no replica is left open, all that pieces come to has been emitted. -/
theorem tokens_passAll (h : f.ReadsAll pieces g) (hg : g.mode ≠ .replica) (ho : o.In f) :
    (o.passAll pieces).emission.tokens = o.emission.settled o.position (settle pieces) := by
  induction h generalizing o with
  | nil =>
    have hnil : settle [] = [] := rfl
    rw [hnil, settled_eq (by simp), ho.trailing hg]
    simp
  | cons hu hp ih =>
    obtain ⟨hin, hsettled⟩ := passAll_unit hu ho
    have hhead := fun hm => ((Piece.settled_settle hp hg).1 hm).head?
    rw [Output.passAll_append, ih hg hin, hsettled _ hhead, settle, settle, List.foldr_append]

end

/-- All tokens of a source have been emitted when its pieces have. -/
theorem tokens_passAll_run (source : String) :
    (({} : Output).passAll (Lexer.run {} source.toList)).emission.tokens = tokenize source := by
  obtain ⟨body, f, hrun, hbody, hf⟩ := Lexer.readsAll_run {} source.toList
  have hin : ({} : Output).In ({} : State).context := ⟨rfl, fun _ => rfl⟩
  have htokens := tokens_passAll hbody hf hin
  have hafter := hin.passAll hbody
  have hbehind := Output.position_passAll (o := {}) body
  have hhead := ((Piece.settled_settle hbody hf).1 nofun).head?
  rw [tokenize, hrun, Output.passAll_append]
  -- the marks at the end are emitted outside of all replicas
  generalize ({} : Output).passAll body = o at *
  obtain ⟨inReplica, p, e⟩ := o
  obtain rfl : inReplica = false := hafter.inReplica.trans (decide_eq_false hf)
  obtain rfl : p = Position.origin.advance (texts body) := hbehind
  rw [Output.passAll_free (Lexer.free_closing rfl rfl f.level),
    Piece.settle_append (Lexer.mark_not_mem_closing f.level), Piece.place_append,
    Piece.texts_settle]
  rw [settled_eq hhead] at htokens
  exact congrArg (· ++ _) htokens

end StoryScript.Bytewise

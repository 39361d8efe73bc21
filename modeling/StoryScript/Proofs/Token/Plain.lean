import StoryScript.Proofs.Token.Replicas
/-!
# What scanners give

Most scanners give tokens of kinds that have no part in a replica, in a choice or in the indentation
(`Step.Plain`). What is proved of all pieces from their kinds is so proved of these scanners at once
(`Step.Plain.free`).
-/

namespace StoryScript

open Token (Kind)

/-- The kinds of statements, tags, headers and trivia, the kinds of choices aside. -/
@[simp] def Token.Kind.isPlain : Kind → Bool
  | .newline | .comment _ | .commentText _ | .commentOpen | .commentClose => true
  | .goto _ | .tag _ | .choiceTag _ | .tagValue _ | .header | .identifier _ | .call _ => true
  | .error _ => true
  | _ => false

namespace Lexer

/-- The step reads plain tokens and lists of arguments, and all else stays as it is in a state. -/
structure Step.Plain (r : Step) (s : State) : Prop where
  plain : ∀ piece ∈ r.pieces, piece.Free fun k => !k.isPlain
  state : r.state = s.past r.pieces

theorem Step.Plain.free {r : Step} {s : State} (h : r.Plain s) {p : Kind → Bool}
    (hp : ∀ k : Kind, k.isPlain → p k = false) : ∀ piece ∈ r.pieces, piece.Free p := by
  intro piece hpiece
  have hfree := h.plain piece hpiece
  cases piece with
  | covered text kinds => exact fun k hk => hp k (by simpa using hfree k hk)
  | arguments list => trivial

namespace State

variable (s : State)

theorem plain_read {pieces : List Piece} (h : ∀ piece ∈ pieces, piece.Free fun k => !k.isPlain)
    (rest : List Char) : (s.read pieces rest).Plain s := ⟨h, rfl⟩

theorem plain_openComment (cs : List Char) : (s.openComment cs).Plain { s with inComment := true } :=
  plain_read _ (by simp) _

theorem plain_lineComment (cs : List Char) : (s.lineComment cs).Plain s :=
  plain_read s (by simp) _

theorem plain_commentLine (cs : List Char) :
    ∃ inComment, (s.commentLine cs).Plain { s with inComment } := by
  have htext : ∀ text : List Char, ∀ piece ∈ if text.isEmpty then [] else
      [Piece.token (.commentText (String.ofList text)) text],
      piece.Free fun k => !k.isPlain := by
    intro text
    split <;> simp
  unfold commentLine
  dsimp only
  split
  · exact ⟨false, plain_read _ (List.forall_mem_append.2 ⟨htext _, by simp⟩) _⟩
  · exact ⟨s.inComment, plain_read s (htext _) _⟩

theorem plain_newline (cs : List Char) : (s.newline cs).Plain { s with freshLine := true } :=
  plain_read _ (by simp) _

theorem plain_tag {kind : String → Kind} (hk : ∀ name, (kind name).isPlain) (cs : List Char) :
    (s.tag kind cs).Plain s := by
  unfold tag
  dsimp only
  split
  · exact plain_read s (by simp) _
  · refine plain_read s (List.forall_mem_cons.2 ⟨by simpa using hk _, ?_⟩) _
    split <;> simp [Piece.trimmedEnd]

theorem plain_call (cs : List Char) : (s.call cs).Plain s := by
  unfold call
  dsimp only
  split <;> exact plain_read s (by simp) _

theorem plain_header (cs : List Char) : (s.header cs).Plain s := by
  refine plain_read s ?_ _
  split <;> simp

theorem plain_goto (cs : List Char) : (s.goto cs).Plain s := by
  refine plain_read s ?_ _
  split <;> simp [Piece.trimmed]

theorem plain_stray (c : Char) (cs : List Char) : (s.stray c cs).Plain s :=
  plain_read s (by simp [Piece.trimmed]) _

/-- The end of a replica is nothing but its mark. -/
theorem free_replicaEnd {p : Kind → Bool} (hp : p .replicaEnd = false) :
    ∀ piece ∈ s.replicaEnd, piece.Free p := by
  unfold replicaEnd
  split <;> simp [hp]

/-- Indentation is levels, and the end of a replica before them. -/
theorem free_indentation {p : Kind → Bool} (hi : p .indent = false) (hd : p .dedent = false)
    (hr : p .replicaEnd = false) (spacers rest : List Char) :
    ∀ piece ∈ (s.indentation spacers rest).1, piece.Free p := by
  unfold indentation
  dsimp only
  split
  · simp
  · refine List.forall_mem_append.2 ⟨s.free_replicaEnd hr, ?_⟩
    exact List.forall_mem_singleton.2 (Piece.free_levels hi hd _ _ _)

theorem freshLine_leaveReplica : s.leaveReplica.freshLine = s.freshLine := by
  unfold leaveReplica
  split <;> rfl

theorem freshLine_indentation (spacers rest : List Char) :
    (s.indentation spacers rest).2.freshLine = s.freshLine := by
  unfold indentation
  dsimp only
  split
  · rfl
  · exact s.freshLine_leaveReplica

end State

end Lexer

end StoryScript

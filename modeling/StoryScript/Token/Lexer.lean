import StoryScript.Token.Scanner
/-!
# From source to tokens

The lexer repeats steps up to the end of the source, settles the ends of replicas and gives the
tokens their places. It ends because a step that reads nothing closes a replica (`weight_step_lt`).
-/

namespace StoryScript

namespace Lexer

namespace State

@[simp] theorem rest_read (s : State) (pieces : List Piece) (rest : List Char) :
    (s.read pieces rest).rest = rest := rfl

@[simp] theorem mode_read (s : State) (pieces : List Piece) (rest : List Char) :
    (s.read pieces rest).state.mode = s.mode := rfl

/-! ## Progress -/

theorem length_drop_lt {n : Nat} (hn : 0 < n) (c : Char) (cs : List Char) :
    ((c :: cs).drop n).length < (c :: cs).length := by
  simp only [List.length_drop, List.length_cons]
  omega

theorem length_openComment_lt (s : State) (c : Char) (cs : List Char) :
    (s.openComment (c :: cs)).rest.length < (c :: cs).length :=
  length_drop_lt (by decide) c cs

theorem length_commentLine_lt (s : State) {c : Char} {cs : List Char}
    (h : atLineEnd (c :: cs) = false) :
    (s.commentLine (c :: cs)).rest.length < (c :: cs).length := by
  unfold commentLine
  by_cases hc : s.behind.atCommentClose (c :: cs)
  · have hr : readUntil (fun b cs => atLineEnd cs || b.atCommentClose cs) s.behind (c :: cs) =
        ([], c :: cs) := by rw [readUntil, if_pos (by simp [hc])]
    simp only [hr, Lookbehind.past_nil, hc, if_true, rest_read]
    exact length_drop_lt (by decide) c cs
  · have hlt := @length_readUntil_lt (fun b cs => atLineEnd cs || b.atCommentClose cs) s.behind
      c cs (by simp [h, hc])
    dsimp only
    split
    · simp only [rest_read, List.length_drop]
      omega
    · exact hlt

theorem length_lineComment_lt (s : State) {c : Char} {cs : List Char}
    (h : atLineEnd (c :: cs) = false) :
    (s.lineComment (c :: cs)).rest.length < (c :: cs).length :=
  length_readUntil_lt h

theorem length_tag_lt (s : State) (kind : String → Token.Kind) (c : Char) (cs : List Char) :
    (s.tag kind (c :: cs)).rest.length < (c :: cs).length := by
  unfold tag
  dsimp only
  split
  · exact length_drop_lt (by decide) c cs
  · refine Nat.lt_of_le_of_lt (length_readUntil_le ..) ?_
    exact Nat.lt_of_le_of_lt (length_readUntil_le ..) (length_drop_lt (by decide) c cs)

theorem length_call_lt (s : State) (c : Char) (cs : List Char) :
    (s.call (c :: cs)).rest.length < (c :: cs).length := by
  have h : ∀ b, (readUntil (fun b cs => endsName cs || b.atParenthesis cs) b
      ((c :: cs).drop callMark.length)).2.length < (c :: cs).length := fun b =>
    Nat.lt_of_le_of_lt (length_readUntil_le ..) (length_drop_lt (by decide) c cs)
  unfold call
  dsimp only
  split
  · refine Nat.lt_of_le_of_lt (length_readArguments_le ..) ?_
    rw [List.length_drop]
    exact Nat.lt_of_le_of_lt (Nat.sub_le ..) (h _)
  · exact h _

theorem length_header_lt (s : State) (c : Char) (cs : List Char) :
    (s.header (c :: cs)).rest.length < (c :: cs).length :=
  Nat.lt_of_le_of_lt (length_readUntil_le ..)
    (Nat.lt_of_le_of_lt (List.dropWhile_sublist _).length_le (length_drop_lt (by decide) c cs))

theorem length_goto_lt (s : State) (c : Char) (cs : List Char) :
    (s.goto (c :: cs)).rest.length < (c :: cs).length :=
  Nat.lt_of_le_of_lt (length_readUntil_le ..)
    (Nat.lt_of_le_of_lt (List.dropWhile_sublist _).length_le (length_drop_lt (by decide) c cs))

theorem length_stray_lt (s : State) (c : Char) (cs : List Char) :
    (s.stray c cs).rest.length < (c :: cs).length :=
  Nat.lt_succ_of_le (length_readUntil_le ..)

theorem length_openBound_lt (s : State) (before : List Piece) (c : Char) (cs : List Char) :
    (s.openBound before (c :: cs)).rest.length < (c :: cs).length :=
  length_drop_lt (by decide) c cs

theorem length_choice_lt (s : State) (c : Char) (cs : List Char) :
    (s.choice (c :: cs)).rest.length < (c :: cs).length := by
  unfold choice
  dsimp only
  split
  · rw [openBound, rest_read, List.length_drop]
    refine Nat.lt_of_le_of_lt (Nat.sub_le ..) ?_
    exact Nat.lt_of_le_of_lt (List.dropWhile_sublist _).length_le (length_drop_lt (by decide) c cs)
  · exact Nat.lt_of_le_of_lt (length_readText_le ..) (length_drop_lt (by decide) c cs)

theorem length_choiceText_lt (s : State) {c : Char} {cs : List Char}
    (h : atLineEnd (c :: cs) = false) :
    (s.choiceText (c :: cs)).rest.length < (c :: cs).length := by
  unfold choiceText
  split
  · exact length_drop_lt (by decide) c cs
  · split
    · exact length_openComment_lt s c cs
    · split
      · exact length_lineComment_lt s h
      · exact length_readText_lt h (by simp_all [Lookbehind.atComment])

theorem length_openReplica_lt (s : State) (c : Char) (cs : List Char) :
    (s.openReplica (c :: cs)).rest.length < (c :: cs).length :=
  length_drop_lt (by decide) c cs

/-- Where an open replica is not over, a step in it reads something. -/
theorem length_replica_lt (s : State) {c : Char} {cs : List Char}
    (h : atLineEnd (c :: cs) = false) (he : s.behind.endsReplica (c :: cs) = false) :
    (s.replica (c :: cs)).rest.length < (c :: cs).length := by
  unfold replica
  rw [if_neg (by simp [he])]
  split
  · exact length_openComment_lt s c cs
  · split
    · exact length_lineComment_lt s h
    · exact length_readText_lt h (by simp_all [Lookbehind.atComment])

theorem length_ite_lt {p : Prop} [Decidable p] {a b : Step} {n : Nat} (ha : a.rest.length < n)
    (hb : b.rest.length < n) : (if p then a else b).rest.length < n := by
  split
  · exact ha
  · exact hb

theorem length_structural_lt (s : State) {c : Char} {cs : List Char}
    (h : atLineEnd (c :: cs) = false) :
    (s.structural c cs).rest.length < (c :: cs).length := by
  unfold structural
  apply length_ite_lt (Nat.lt_succ_self _)
  apply length_ite_lt (length_openComment_lt s c cs)
  apply length_ite_lt (length_lineComment_lt s h)
  apply length_ite_lt (length_call_lt s c cs)
  apply length_ite_lt (length_tag_lt s _ c cs)
  apply length_ite_lt (length_tag_lt s _ c cs)
  apply length_ite_lt (length_header_lt s c cs)
  apply length_ite_lt (length_goto_lt s c cs)
  apply length_ite_lt (length_choice_lt s c cs)
  apply length_ite_lt (length_openReplica_lt s c cs)
  apply length_ite_lt (length_openBound_lt s _ c cs)
  exact length_stray_lt s c cs

theorem length_newline_lt (s : State) (c : Char) (cs : List Char) :
    (s.newline (c :: cs)).rest.length < (c :: cs).length := by
  unfold newline
  dsimp only
  split <;> exact length_drop_lt (by decide) c cs

/-- Twice the text left, and one for an open replica: what every step lessens. -/
def weight (s : State) (cs : List Char) : Nat :=
  2 * cs.length + if s.mode = .replica then 1 else 0

theorem weight_lt_of_length_lt {s t : State} {as bs : List Char} (h : as.length < bs.length) :
    s.weight as < t.weight bs := by
  simp only [weight]
  split <;> split <;> omega

theorem weight_le_of_length_le {s t : State} {as bs : List Char}
    (hm : s.mode = .replica → t.mode = .replica) (h : as.length ≤ bs.length) :
    s.weight as ≤ t.weight bs := by
  simp only [weight]
  by_cases hs : s.mode = .replica
  · rw [if_pos hs, if_pos (hm hs)]
    omega
  · rw [if_neg hs]
    split <;> omega

theorem weight_scan_lt (s : State) {c : Char} {cs : List Char} (h : atLineEnd (c :: cs) = false) :
    (s.scan c cs).state.weight (s.scan c cs).rest < s.weight (c :: cs) := by
  unfold scan
  split
  · exact weight_lt_of_length_lt (length_commentLine_lt s h)
  · split
    · exact weight_lt_of_length_lt (length_structural_lt s h)
    · next hm =>
      by_cases he : s.behind.endsReplica (c :: cs)
      · simp only [replica, if_pos he, weight, mode_read, rest_read, leaveReplica, hm, if_true]
        simp
      · exact weight_lt_of_length_lt (length_replica_lt s h (by simpa using he))
    · exact weight_lt_of_length_lt (length_choiceText_lt s h)

theorem mode_indentation (s : State) (spacers rest : List Char) :
    (s.indentation spacers rest).2.mode = .replica → s.mode = .replica := by
  unfold indentation leaveReplica
  dsimp only
  repeat' split
  all_goals simp_all

/-- Every step reads some of the text or closes a replica. -/
theorem weight_step_lt (s : State) (c : Char) (cs : List Char) :
    (s.step c cs).state.weight (s.step c cs).rest < s.weight (c :: cs) := by
  unfold step
  split
  · exact weight_lt_of_length_lt (length_newline_lt s c cs)
  · next hn =>
    have hl : atLineEnd (c :: cs) = false := by simpa [atLineEnd] using hn
    dsimp only
    split
    · have hle : ((c :: cs).dropWhile isSpacer).length ≤ (c :: cs).length :=
        (List.dropWhile_sublist isSpacer).length_le
      split
      · exact weight_lt_of_length_lt (by simp)
      · next d ds hd =>
        rw [hd] at hle
        split
        · next hd' =>
          refine weight_lt_of_length_lt (Nat.lt_of_le_of_ne hle fun he => ?_)
          have hsub : (d :: ds).Sublist (c :: cs) := hd ▸ List.dropWhile_sublist isSpacer
          exact hn (hsub.eq_of_length he ▸ hd')
        · next hd' =>
          refine Nat.lt_of_lt_of_le (weight_scan_lt _ (by simpa [atLineEnd] using hd')) ?_
          exact weight_le_of_length_le (mode_indentation { s with freshLine := false } _ _) hle
    · exact weight_scan_lt { s with freshLine := false } hl

end State

/-! ## The whole source -/

/-- The pieces from a place to the end of the source. -/
def run (s : State) : List Char → List Piece
  | [] => s.finish
  | c :: cs => (s.step c cs).pieces ++ run (s.step c cs).state (s.step c cs).rest
termination_by cs => s.weight cs
decreasing_by exact State.weight_step_lt s c cs

end Lexer

/-- The tokens of a source, the last of which is its end. -/
def tokenize (source : String) : List Token :=
  Piece.place Position.origin (Piece.settle (Lexer.run {} source.toList))

end StoryScript

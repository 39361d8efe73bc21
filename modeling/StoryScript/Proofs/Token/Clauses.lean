import StoryScript.Proofs.Token.Names
/-!
# Tokens that belong together

What a source tells is in its speeches and choice texts, its names, calls and arguments, and its
tags. None of these stands alone. Each is in a clause: a token that begins something, and right
behind it those that belong to it (`inClause_of_mem_tokenize`).
-/

namespace StoryScript

open Token (Kind)
open Lexer (Context)

/-- The kinds of tokens that carry what a source tells. -/
def Token.Kind.tells : Kind → Bool
  | .speech _ | .choiceText _ | .goto _ | .identifier _ | .call _ | .argument _ | .tag _
  | .choiceTag _ | .tagValue _ => true
  | _ => false

/-- A token and those right behind it that belong to it. -/
inductive Clause : Token → List Token → Prop where
  | tag {kind : String → Kind} {name : String} {span : Span}
      (hk : kind = .tag ∨ kind = .choiceTag) :
    Clause ⟨kind name, span⟩ []
  | tagValue {kind : String → Kind} {name text : String} {span span' : Span}
      (hk : kind = .tag ∨ kind = .choiceTag) :
    Clause ⟨kind name, span⟩ [⟨.tagValue text, span'⟩]
  | call {name : String} {span : Span} {args : List Token} (ha : ∀ u ∈ args, u.argument?.isSome) :
    Clause ⟨.call name, span⟩ args
  | header {name : String} {span span' : Span} : Clause ⟨.header, span⟩ [⟨.identifier name, span'⟩]
  | arrow {text : String} {span : Span} : Clause ⟨.goto text, span⟩ []
  | target {text name : String} {span span' : Span} (hb : Text.isBlankText name = false) :
    Clause ⟨.goto text, span⟩ [⟨.identifier name, span'⟩]
  /-- A choice and the text on its line. -/
  | line {text : String} {span bound span' : Span} :
    Clause ⟨.choice, span⟩ [⟨.choiceBound true, bound⟩, ⟨.choiceText text, span'⟩]
  /-- A bound and the text behind it, whether a choice stands before them or not. -/
  | block {span : Span} {runs : List Token} (hr : ∀ u ∈ runs, u.blockRun?.isSome) :
    Clause ⟨.choiceBound false, span⟩ runs
  | replica {span : Span} {inside : List Token}
      (hi : ∀ u ∈ inside, (u.speech?.isSome || u.isTrivia) = true) :
    Clause ⟨.replicaBegin, span⟩ inside

/-- A token of `ts` that is in a clause of `ts`. -/
def InClause (t : Token) (ts : List Token) : Prop :=
  ∃ o mid, Clause o mid ∧ o :: mid <:+: ts ∧ t ∈ o :: mid

namespace InClause

variable {t : Token} {ts us : List Token}

theorem at_head {o : Token} {mid : List Token} (h : Clause o mid) (hp : o :: mid <+: ts)
    (ht : t ∈ o :: mid) : InClause t ts :=
  ⟨o, mid, h, hp.isInfix, ht⟩

theorem mono (h : InClause t ts) (hs : ts <:+: us) : InClause t us := by
  obtain ⟨o, mid, hp, hi, ht⟩ := h
  exact ⟨o, mid, hp, hi.trans hs, ht⟩

end InClause

namespace Piece

variable {f g : Context} {unit : List Piece} {p : Position} {t : Token}

/-- Outside of replicas, what a unit tells is in a clause of its own, or in an open choice text. -/
theorem inClause_of_reads (h : f.Reads unit g) (hf : f.mode ≠ .replica) (ht : t ∈ place p unit)
    (hk : t.kind.tells) :
    InClause t (place p unit) ∨
      f.mode = .choiceText ∧ place p unit = [t] ∧ t.blockRun?.isSome := by
  have hself : ∀ ts : List Token, ts <+: ts := List.prefix_refl
  cases h with
  | newline | comment | commentOpen | commentText | commentClose | stray | header | choice
  | openBound | closeBound | openReplica =>
    rw [List.mem_singleton.1 ht] at hk
    cases hk
  | space => cases ht
  | @levels n spacers =>
    obtain ⟨piece, hpiece, q, hq⟩ := exists_of_mem_place ht
    rw [List.mem_singleton.1 hpiece] at hq
    obtain ⟨k, hmem, rfl⟩ := List.mem_map.1 hq
    rw [free_levels (p := Kind.tells) rfl rfl _ _ spacers k hmem] at hk
    cases hk
  | tag hkind => exact .inl (.at_head (.tag hkind) (hself _) ht)
  | tagValue hkind => exact .inl (.at_head (.tagValue hkind) (hself _) ht)
  | call => exact .inl (.at_head (.call (List.forall_mem_nil _)) (hself _) ht)
  | @callList n name list hl ha =>
    rw [place_token, place, place_nil, List.append_nil, tokens_arguments] at ht ⊢
    rw [← List.cons_append] at ht ⊢
    refine .inl (.at_head (.call fun u hu => ?_) (List.prefix_append _ _) ?_)
    · obtain ⟨field, -, hfield⟩ := argument_of_mem_argumentTokens hu
      simp [Token.argument?, hfield]
    · -- the error of a list that does not close tells nothing
      refine (List.mem_append.1 ht).resolve_right fun herror => ?_
      split at herror
      · cases herror
      · rw [List.mem_singleton.1 herror] at hk
        cases hk
  | namedHeader => exact .inl (.at_head .header (hself _) ht)
  | goto => exact .inl (.at_head .arrow (hself _) ht)
  | gotoTarget _ _ _ _ hb =>
    refine .inl (.at_head (.target ?_) (hself _) ht)
    rwa [Text.isBlankText, String.toList_ofList]
  | choiceLine =>
    simp only [place_token, place_mark, place_nil] at ht ⊢
    refine .inl (.at_head .line ⟨[_], rfl⟩ ?_)
    simp only [List.mem_cons, List.not_mem_nil, or_false] at ht ⊢
    rcases ht with ht | ht | ht | rfl
    · exact .inl ht
    · exact .inr (.inl ht)
    · exact .inr (.inr ht)
    · cases hk
  | choiceText =>
    rw [List.mem_singleton.1 ht]
    exact .inr ⟨rfl, rfl, rfl⟩
  | speech | replicaEnd => exact absurd rfl hf

/-- A choice text is open behind the bound that opens it, and behind what it goes on with. -/
theorem runs_of_reads (h : f.Reads unit g) (hg : g.mode = .choiceText) (p : Position) :
    (f.mode = .choiceText ∧ ∀ u ∈ place p unit, u.blockRun?.isSome) ∨
      ∃ span, place p unit = [⟨.choiceBound false, span⟩] := by
  cases h with
  | newline | space | comment | commentOpen | commentText | commentClose | choiceText =>
    exact .inl ⟨hg, by simp [place, tokens, token, gap, Token.blockRun?, Kind.isTrivia, Kind.value]⟩
  | openBound => exact .inr ⟨_, rfl⟩
  | _ => cases hg

theorem InReplica.speech_or_trivia {piece : Piece} (h : piece.InReplica) (ht : t ∈ piece.tokens p) :
    (t.speech?.isSome || t.isTrivia) = true := by
  rcases h.of_mem_tokens ht with ht | ⟨text, ht, -⟩
  · rw [ht, Bool.or_true]
  · simp [Token.speech?, ht]

/-- What settled pieces tell is in clauses, but for the choice text that is open before them. -/
theorem Settled.inClause_place {m : Lexer.Mode} {pieces : List Piece} (h : Settled m pieces)
    (ht : t ∈ place p pieces) (hk : t.kind.tells) :
    InClause t (place p pieces) ∨
      m = .choiceText ∧ t ∈ (place p pieces).takeWhile (·.blockRun?.isSome) := by
  induction h generalizing p with
  | nil => cases ht
  | @outside f g unit pieces hu hf hg _ ih =>
    rw [place_append] at ht ⊢
    rcases List.mem_append.1 ht with ht | ht
    · rcases inClause_of_reads hu hf ht hk with hclause | ⟨htext, hunit, hrun⟩
      · exact .inl (hclause.mono (List.prefix_append _ _).isInfix)
      · refine .inr ⟨htext, ?_⟩
        simp [hunit, hrun]
    · rcases ih ht with hclause | ⟨htext, hrun⟩
      · exact .inl (hclause.mono (List.suffix_append _ _).isInfix)
      · rcases runs_of_reads hu htext p with ⟨hopen, hall⟩ | ⟨span, hbound⟩
        · rw [List.takeWhile_append_of_pos hall]
          exact .inr ⟨hopen, List.mem_append_right _ hrun⟩
        · rw [hbound, List.singleton_append]
          refine .inl (.at_head (.block fun u hu => ?_)
            ((List.prefix_cons_inj _).2 (List.takeWhile_prefix _)) (List.mem_cons_of_mem _ hrun))
          exact List.all_eq_true.1 List.all_takeWhile u hu
  | @replica inside pieces hi _ _ ih =>
    rw [List.cons_append, place_token, place_append, place_mark, ← List.cons_append] at ht ⊢
    rcases List.mem_append.1 ht with ht | ht
    · refine .inl (.at_head (.replica fun u hu => ?_) (List.prefix_append _ _) ht)
      obtain ⟨piece, hpiece, q, hq⟩ := exists_of_mem_place hu
      exact (hi piece hpiece).speech_or_trivia hq
    · rcases List.mem_cons.1 ht with rfl | ht
      · cases hk
      · refine .inl (((ih ht).resolve_right fun h => absurd h.1 nofun).mono ?_)
        exact ((List.suffix_cons _ _).trans (List.suffix_append _ _)).isInfix

end Piece

/-- Whatever a source tells is in a clause. -/
theorem inClause_of_mem_tokenize {source : String} {t : Token} (ht : t ∈ tokenize source)
    (hk : t.kind.tells) : InClause t (tokenize source) := by
  obtain ⟨pieces, n, htokens, hsettled, -, -⟩ := settled_tokenize source
  rw [htokens, Piece.place_append] at ht ⊢
  rcases List.mem_append.1 ht with ht | ht
  · have hclause := (hsettled.inClause_place ht hk).resolve_right fun h => absurd h.1 nofun
    exact hclause.mono (List.prefix_append _ _).isInfix
  · -- the marks at the end tell nothing
    rw [Piece.place_closing] at ht
    rcases List.mem_append.1 ht with ht | ht
    · rw [List.eq_of_mem_replicate ht] at hk
      cases hk
    · rw [List.mem_singleton.1 ht] at hk
      cases hk

end StoryScript

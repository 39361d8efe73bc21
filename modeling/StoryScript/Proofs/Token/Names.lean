import Mathlib.Data.List.Chain
import StoryScript.Proofs.Story.Blocks
import StoryScript.Proofs.Token.Replicas
/-!
# Names behind headers and arrows

The name behind an arrow is read together with it, and it is not blank. The end of the source is the
last token and no other (`aimed_tokenize`).
-/

namespace StoryScript

open Token (Kind)
open Lexer (Context)

/-- The kind of a name. -/
def Token.Kind.isName : Kind → Bool
  | .identifier _ => true
  | _ => false

/-- The kind of an arrow. -/
def Token.Kind.isArrow : Kind → Bool
  | .goto _ => true
  | _ => false

/-- If a name stands behind an arrow, it is not blank. -/
def Token.Aims (t u : Token) : Prop :=
  t.kind.isArrow → ∀ name, u.kind = .identifier name → Text.isBlankText name = false

/-- Tokens that do not begin with a name, and in which names behind arrows are not blank. -/
structure Aimed (ts : List Token) : Prop where
  chain : ts.IsChain Token.Aims
  head : ∀ t ∈ ts.head?, t.kind.isName = false

namespace Aimed

theorem of_nameless {ts : List Token} (h : ∀ t ∈ ts, t.kind.isName = false) : Aimed ts := by
  refine ⟨List.Pairwise.isChain (List.pairwise_of_forall_mem_list ?_), ?_⟩
  · intro t _ u hu _ name hk
    have hname := h u hu
    rw [hk] at hname
    cases hname
  · exact fun t ht => h t (List.mem_of_mem_head? ht)

theorem append {ts us : List Token} (ht : Aimed ts) (hu : Aimed us) : Aimed (ts ++ us) := by
  refine ⟨List.isChain_append.2 ⟨ht.chain, hu.chain, ?_⟩, ?_⟩
  · intro t _ u hmem _ name hk
    have hname := hu.head u hmem
    rw [hk] at hname
    cases hname
  · cases ts with
    | nil => exact hu.head
    | cons t ts => exact ht.head

theorem left {ts us : List Token} (h : Aimed (ts ++ us)) : Aimed ts := by
  refine ⟨(List.isChain_append.1 h.chain).1, fun t ht => h.head t ?_⟩
  cases ts with
  | nil => cases ht
  | cons u ts => exact ht

/-- A name right behind an arrow can be its target. -/
theorem isSome_targetName {before after : List Token} {t : Token} (h : Aimed (before ++ t :: after))
    (ht : t.kind.isArrow) : (targetName after).isSome = beginsWithName after := by
  cases after with
  | nil => rfl
  | cons u after =>
    obtain ⟨kind, span⟩ := u
    cases kind with
    | identifier name =>
      have haims := (List.isChain_append_cons_cons.1 h.chain).2.1
      rw [targetName, haims ht name rfl]
      rfl
    | _ => rfl

end Aimed

namespace Piece

theorem aimed_place {pieces : List Piece} (h : ∀ piece ∈ pieces, piece.Free Kind.isName)
    (p : Position) : Aimed (place p pieces) := by
  refine .of_nameless fun t ht => ?_
  obtain ⟨piece, hpiece, q, hq⟩ := exists_of_mem_place ht
  exact (h piece hpiece).of_mem_tokens (fun _ => rfl) (fun _ => rfl) hq

/-- Names stand in two units: behind a header, and behind an arrow. -/
theorem aimed_of_reads {f g : Context} {unit : List Piece} (h : f.Reads unit g) (p : Position) :
    Aimed (place p unit) := by
  cases h with
  | namedHeader =>
    refine ⟨List.isChain_pair.2 nofun, ?_⟩
    rintro t ⟨⟩
    rfl
  | gotoTarget _ _ _ _ hb =>
    refine ⟨List.isChain_pair.2 ?_, ?_⟩
    · intro _ name hk
      obtain rfl := Kind.identifier.inj hk
      rwa [Text.isBlankText, String.toList_ofList]
    · rintro t ⟨⟩
      rfl
  | levels => exact aimed_place (by simpa using free_levels rfl rfl _ _ _) p
  | tag hk | tagValue hk =>
    refine aimed_place ?_ p
    rcases hk with rfl | rfl <;> simp [Free, token, Kind.isName]
  | _ => exact aimed_place (by simp [Free, token, mark, gap, Kind.isName]) p

theorem InReplica.aimed_place {inside : List Piece} (h : ∀ piece ∈ inside, piece.InReplica)
    (p : Position) : Aimed (place p inside) := by
  induction inside generalizing p with
  | nil => exact .of_nameless nofun
  | cons piece inside ih =>
    obtain ⟨f, g, hu, -, -⟩ := h piece (by simp)
    have hone := aimed_of_reads hu p
    rw [place, place_nil, List.append_nil] at hone
    exact hone.append (ih (fun q hq => h q (by simp [hq])) _)

theorem Settled.aimed_place {m : Lexer.Mode} {pieces : List Piece} (h : Settled m pieces)
    (p : Position) : Aimed (place p pieces) := by
  have hone : ∀ k : Kind, k.isName = false → ∀ span, Aimed [⟨k, span⟩] := fun k hk span =>
    .of_nameless (by simpa using hk)
  induction h generalizing p with
  | nil => exact .of_nameless nofun
  | outside hu _ _ _ ih =>
    rw [place_append]
    exact (aimed_of_reads hu p).append (ih _)
  | replica hi _ _ ih =>
    rw [List.cons_append, place_token, place_append, place_mark]
    exact (hone .replicaBegin rfl _).append
      ((InReplica.aimed_place hi _).append ((hone .replicaEnd rfl _).append (ih _)))

/-! ## The end of the source -/

theorem free_eof_of_reads {f g : Context} {unit : List Piece} (h : f.Reads unit g) :
    ∀ piece ∈ unit, piece.Free (· == .eof) := by
  cases h with
  | levels => simpa using free_levels rfl rfl _ _ _
  | tag hk | tagValue hk =>
    rcases hk with rfl | rfl <;> simp [Free, token]
  | _ => simp [Free, token, mark, gap]

theorem Settled.free_eof {m : Lexer.Mode} {pieces : List Piece} (h : Settled m pieces) :
    ∀ piece ∈ pieces, piece.Free (· == .eof) := by
  induction h with
  | nil => exact nofun
  | outside hu _ _ _ ih =>
    intro piece hp
    rcases List.mem_append.1 hp with hp | hp
    · exact free_eof_of_reads hu piece hp
    · exact ih piece hp
  | replica hi _ _ ih =>
    intro piece hp
    simp only [List.cons_append, List.mem_cons, List.mem_append] at hp
    rcases hp with rfl | hp | rfl | hp
    · simp [Free, token]
    · obtain ⟨f, g, hu, -, -⟩ := hi piece hp
      exact free_eof_of_reads hu piece (by simp)
    · simp [Free, mark]
    · exact ih piece hp

end Piece

/-- Names behind arrows are not blank, and the end of the source is the last token only. -/
theorem aimed_tokenize (source : String) :
    Aimed (tokenize source) ∧
      ∃ eof, tokenize source = beforeEnd (tokenize source) ++ [eof] ∧ eof.kind = .eof := by
  obtain ⟨pieces, n, htokens, hsettled, -, -⟩ := settled_tokenize source
  rw [htokens, Piece.place_append, Piece.place_closing]
  generalize Position.origin.advance (Piece.texts pieces) = stop
  constructor
  · refine (hsettled.aimed_place _).append (.of_nameless ?_)
    intro t ht
    rcases List.mem_append.1 ht with h | h
    · rw [List.eq_of_mem_replicate h]
      rfl
    · rw [List.mem_singleton.1 h]
      rfl
  · refine ⟨⟨.eof, Span.point stop⟩, ?_, rfl⟩
    have hall : ∀ t ∈ Piece.place Position.origin pieces ++
        List.replicate n ⟨.dedent, Span.point stop⟩, t.kind ≠ .eof := by
      intro t ht
      rcases List.mem_append.1 ht with h | h
      · obtain ⟨piece, hpiece, q, hq⟩ := Piece.exists_of_mem_place h
        have hfree := (hsettled.free_eof piece hpiece).of_mem_tokens (fun _ => rfl) (fun _ => rfl) hq
        simpa using hfree
      · rw [List.eq_of_mem_replicate h]
        exact nofun
    rw [← List.append_assoc, beforeEnd, List.takeWhile_append_of_pos (by simpa using hall)]
    simp

end StoryScript

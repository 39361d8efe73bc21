import StoryScript.Proofs.Token.Order
/-!
# Replicas among the tokens

A replica is found to be over at some later place, and its end is moved back over what was read in
between (`settle`). Units are kept together by this (`settled_settle`), and so the tokens of every
source are told apart into replicas, each closed right behind its last speech, and other tokens
(`replicas_tokenize`).
-/

namespace StoryScript

open Token (Kind)
open Lexer (Context)

/-! ## Units in and around replicas -/

/-- A piece that an open replica can go on with. -/
def Piece.InReplica (piece : Piece) : Prop :=
  ∃ f g : Context, f.Reads [piece] g ∧ f.mode = .replica ∧ g.mode = .replica

namespace Lexer.Context.Reads

variable {f g : Context} {unit : List Piece}

theorem ne_nil (h : f.Reads unit g) : unit ≠ [] := by
  cases h <;> exact List.cons_ne_nil _ _

/-- Only an open replica ends. -/
theorem mark_not_mem (h : f.Reads unit g) (hf : f.mode ≠ .replica) : .mark .replicaEnd ∉ unit := by
  cases h with
  | replicaEnd => exact absurd rfl hf
  | levels hs hn =>
    intro hm
    obtain ⟨-, hk⟩ := Piece.covered.inj (List.mem_singleton.1 hm)
    have hmem : Kind.replicaEnd ∈ List.replicate _ Kind.indent ++ List.replicate _ Kind.dedent :=
      hk ▸ List.mem_singleton_self _
    rcases List.mem_append.1 hmem with h | h
    · cases List.eq_of_mem_replicate h
    · cases List.eq_of_mem_replicate h
  | tag hk | tagValue hk =>
    rcases hk with rfl | rfl <;> simp [Piece.token, Piece.mark]
  | _ => simp [Piece.token, Piece.mark, Piece.gap]

/-- In a replica, a unit ends it or goes on with it. -/
theorem of_replica (h : f.Reads unit g) (hf : f.mode = .replica) :
    (unit = [.mark .replicaEnd] ∧ g.mode = .structural) ∨
      ∃ piece, unit = [piece] ∧ piece.InReplica ∧ g.mode = .replica := by
  cases id h with
  | replicaEnd => exact .inl ⟨rfl, rfl⟩
  | newline | space | comment | commentOpen | commentText | commentClose | speech =>
    exact .inr ⟨_, rfl, ⟨_, _, h, hf, hf⟩, hf⟩
  | _ => cases hf

/-- Outside of replicas, a unit stays outside or opens one from the ground, where no comment is
open. -/
theorem of_not_replica (h : f.Reads unit g) (hf : f.mode ≠ .replica) :
    g.mode ≠ .replica ∨
      (unit = [.token .replicaBegin ['"', ' ']] ∧ f.mode = .structural ∧ g.mode = .replica ∧
        g.inComment = false) := by
  cases h with
  | openReplica => exact .inr ⟨rfl, rfl, rfl, rfl⟩
  | newline | space | comment | commentOpen | commentText | commentClose => exact .inl hf
  | replicaEnd | speech => exact absurd rfl hf
  | _ => exact .inl nofun

end Lexer.Context.Reads

namespace Piece

/-- What a replica goes on with behind its last speech can as well stand on the ground behind it. -/
theorem InReplica.outside {piece : Piece} (h : piece.InReplica) (hn : piece.holdsReplica = false) :
    ∃ f g : Context, f.Reads [piece] g ∧ f.mode = .structural ∧ g.mode = .structural := by
  obtain ⟨f, g, h, hf, hg⟩ := h
  cases h with
  | newline h => exact ⟨.ground 0, _, .newline h, rfl, rfl⟩
  | space hb hl => exact ⟨.ground 0, _, .space hb hl, rfl, rfl⟩
  | comment hl => exact ⟨⟨.structural, false, 0⟩, _, .comment hl, rfl, rfl⟩
  | commentOpen => exact ⟨⟨.structural, false, 0⟩, _, .commentOpen, rfl, rfl⟩
  | commentText hl => exact ⟨⟨.structural, true, 0⟩, _, .commentText hl, rfl, rfl⟩
  | commentClose => exact ⟨⟨.structural, true, 0⟩, _, .commentClose, rfl, rfl⟩
  | speech => cases hn
  | replicaEnd => cases hg
  | _ => cases hf

theorem InReplica.ne_mark {piece : Piece} (h : piece.InReplica) : piece ≠ .mark .replicaEnd := by
  obtain ⟨f, g, h, hf, hg⟩ := h
  intro he
  cases h with
  | replicaEnd => cases hg
  | newline | comment | commentOpen | commentText | commentClose | speech | space =>
    simp [token, mark, gap] at he
  | _ => cases hf

/-! ## Settled pieces -/

/-- Units one after the other from a mode on, with every replica ending right behind its last
speech. -/
inductive Settled : Lexer.Mode → List Piece → Prop where
  | nil (m : Lexer.Mode) : Settled m []
  | outside {f g : Context} {unit pieces : List Piece} (hu : f.Reads unit g)
      (hf : f.mode ≠ .replica) (hg : g.mode ≠ .replica) (hp : Settled g.mode pieces) :
    Settled f.mode (unit ++ pieces)
  | replica {inside pieces : List Piece} (hi : ∀ piece ∈ inside, piece.InReplica)
      (hl : ∀ piece ∈ inside.getLast?, piece.holdsReplica) (hp : Settled .structural pieces) :
    Settled .structural (.token .replicaBegin ['"', ' '] :: inside ++ .mark .replicaEnd :: pieces)

theorem Settled.head? {m : Lexer.Mode} {pieces : List Piece} (h : Settled m pieces) :
    pieces.head? ≠ some (.mark .replicaEnd) := by
  cases h with
  | nil => exact nofun
  | outside hu hf _ _ =>
    obtain ⟨piece, unit, rfl⟩ := List.exists_cons_of_ne_nil hu.ne_nil
    intro he
    exact hu.mark_not_mem hf (by simp [← Option.some.inj he])
  | replica => simp [token, mark]

/-- An open replica once its end has been moved back, and what stands behind it. -/
def SettledOpen (pieces : List Piece) : Prop :=
  ∃ inside after, pieces = inside ++ .mark .replicaEnd :: after ∧
    (∀ piece ∈ inside, piece.InReplica) ∧ (∀ piece ∈ inside.getLast?, piece.holdsReplica) ∧
    Settled .structural after

/-- A piece of an open replica stays in it if a speech is still to come, and else goes behind its
end. -/
theorem SettledOpen.push {piece : Piece} {pieces : List Piece} (hp : piece.InReplica)
    (h : SettledOpen pieces) : SettledOpen (pushSettled piece pieces) := by
  obtain ⟨inside, after, rfl, hi, hl, ha⟩ := h
  cases inside with
  | nil =>
    by_cases hold : piece.holdsReplica
    · refine ⟨[piece], after, pushSettled_holds hold, ?_, ?_, ha⟩
      · simpa using hp
      · simpa using hold
    · rw [Bool.not_eq_true] at hold
      obtain ⟨f, g, hu, hf, hg⟩ := hp.outside hold
      have hpush : Settled f.mode ([piece] ++ after) :=
        .outside hu (by rw [hf]; nofun) (by rw [hg]; nofun) (hg ▸ ha)
      exact ⟨[], piece :: after, pushSettled_mark hold, nofun, nofun, hf ▸ hpush⟩
  | cons first inside =>
    refine ⟨piece :: first :: inside, after, ?_, ?_, ?_, ha⟩
    · refine pushSettled_eq ?_
      intro he
      exact (hi first (by simp)).ne_mark (Option.some.inj he)
    · intro q hq
      rcases List.mem_cons.1 hq with rfl | hq
      · exact hp
      · exact hi q hq
    · rwa [List.getLast?_cons_cons]

/-- Moving the ends of replicas back settles what a run has read. -/
theorem settled_settle {f g : Context} {pieces : List Piece} (h : f.ReadsAll pieces g)
    (hg : g.mode ≠ .replica) :
    (f.mode ≠ .replica → Settled f.mode (settle pieces)) ∧
      (f.mode = .replica → SettledOpen (settle pieces)) := by
  induction h with
  | nil f => exact ⟨fun _ => .nil _, fun hf => absurd hf hg⟩
  | @cons f g' h unit pieces hu _ ih =>
    obtain ⟨ihout, ihopen⟩ := ih hg
    have happ : settle (unit ++ pieces) = unit.foldr pushSettled (settle pieces) := List.foldr_append
    rw [happ]
    constructor
    · intro hf
      rcases hu.of_not_replica hf with hg' | ⟨rfl, hground, hg', -⟩
      · have hp := ihout hg'
        rw [foldr_pushSettled (hu.mark_not_mem hf) hp.head?]
        exact .outside hu hf hg' hp
      · -- the replica that opens here ends behind its last speech, or right here
        obtain ⟨inside, after, he, hi, hl, ha⟩ := ihopen hg'
        have hpush : pushSettled (.token .replicaBegin ['"', ' ']) (settle pieces) =
            .token .replicaBegin ['"', ' '] :: inside ++ .mark .replicaEnd :: after := by
          rw [he]
          cases inside with
          | nil => exact pushSettled_holds rfl
          | cons first inside =>
            refine pushSettled_eq ?_
            intro he
            exact (hi first (by simp)).ne_mark (Option.some.inj he)
        rw [List.foldr_cons, List.foldr_nil, hpush, hground]
        exact .replica hi hl ha
    · intro hf
      rcases hu.of_replica hf with ⟨rfl, hg'⟩ | ⟨piece, rfl, hp, hg'⟩
      · have hp := ihout (by rw [hg']; nofun)
        rw [hg'] at hp
        exact ⟨[], settle pieces, pushSettled_eq hp.head?, nofun, nofun, hp⟩
      · exact (ihopen hg').push hp

/-! ## Pieces at the end -/

theorem pushSettled_append {piece : Piece} {tail : List Piece}
    (h : tail.head? ≠ some (.mark .replicaEnd)) (pieces : List Piece) :
    pushSettled piece (pieces ++ tail) = pushSettled piece pieces ++ tail := by
  cases pieces with
  | nil => exact pushSettled_eq h
  | cons first pieces =>
    by_cases hm : first = .mark .replicaEnd
    · subst hm
      by_cases hold : piece.holdsReplica
      · rw [pushSettled_holds hold]
        exact pushSettled_holds hold
      · rw [Bool.not_eq_true] at hold
        rw [pushSettled_mark hold]
        exact pushSettled_mark hold
    · have hne : ∀ qs : List Piece, (first :: qs).head? ≠ some (.mark .replicaEnd) :=
        fun qs he => hm (Option.some.inj he)
      rw [pushSettled_eq (hne pieces)]
      exact pushSettled_eq (hne (pieces ++ tail))

/-- What begins with no end of a replica stays at the end. -/
theorem foldr_pushSettled_append {tail : List Piece} (h : tail.head? ≠ some (.mark .replicaEnd))
    (pieces front : List Piece) :
    pieces.foldr pushSettled (front ++ tail) = pieces.foldr pushSettled front ++ tail := by
  induction pieces with
  | nil => rfl
  | cons piece pieces ih => rw [List.foldr_cons, ih, pushSettled_append h, List.foldr_cons]

/-- It is settled by itself. -/
theorem settle_split {tail : List Piece} (h : (settle tail).head? ≠ some (.mark .replicaEnd))
    (pieces : List Piece) : settle (pieces ++ tail) = settle pieces ++ settle tail := by
  have hfold := foldr_pushSettled_append h pieces []
  rw [List.nil_append] at hfold
  rw [settle, List.foldr_append]
  exact hfold

/-- What stands behind all replicas stays at the end. -/
theorem settle_append {tail : List Piece} (hm : .mark .replicaEnd ∉ tail) (pieces : List Piece) :
    settle (pieces ++ tail) = settle pieces ++ tail := by
  have hnil : ([] : List Piece).head? ≠ some (.mark .replicaEnd) := nofun
  have hsettle : settle tail = tail := by
    have hfold := foldr_pushSettled hm hnil
    rwa [List.append_nil] at hfold
  rw [settle_split (by rw [hsettle]; exact fun h => hm (List.mem_of_mem_head? h)), hsettle]

/-- Pieces that end no replica stay in front of what is settled by itself. -/
theorem settle_append_left {pieces tail : List Piece} (hm : .mark .replicaEnd ∉ pieces)
    (ht : (settle tail).head? ≠ some (.mark .replicaEnd)) :
    settle (pieces ++ tail) = pieces ++ settle tail :=
  List.foldr_append.trans (foldr_pushSettled hm ht)

/-- They stay where they are with others in front of them as well. -/
theorem settle_middle {pieces tail : List Piece} (hp : pieces ≠ [])
    (hm : .mark .replicaEnd ∉ pieces) (ht : (settle tail).head? ≠ some (.mark .replicaEnd))
    (front : List Piece) :
    settle (front ++ (pieces ++ tail)) = settle front ++ (pieces ++ settle tail) := by
  have hsettle := settle_append_left hm ht
  rw [settle_split, hsettle]
  rw [hsettle, List.head?_append_of_ne_nil _ hp]
  exact fun h => hm (List.mem_of_mem_head? h)

theorem place_append (p : Position) (as bs : List Piece) :
    place p (as ++ bs) = place p as ++ place (p.advance (texts as)) bs := by
  induction as generalizing p with
  | nil => rfl
  | cons a as ih =>
    rw [List.cons_append, place, place, ih, texts_cons, Position.advance_append, List.append_assoc]

@[simp] theorem place_nil (p : Position) : place p [] = [] := rfl

@[simp] theorem place_token (p : Position) (kind : Kind) (text : List Char) (pieces : List Piece) :
    place p (token kind text :: pieces) =
      ⟨kind, Span.ofText p text⟩ :: place (p.advance text) pieces := rfl

@[simp] theorem place_mark (p : Position) (kind : Kind) (pieces : List Piece) :
    place p (mark kind :: pieces) = ⟨kind, Span.point p⟩ :: place p pieces := rfl

theorem place_closing (p : Position) (n : Nat) :
    place p (Lexer.closing n) =
      List.replicate n ⟨.dedent, Span.point p⟩ ++ [⟨.eof, Span.point p⟩] := by
  induction n with
  | zero => rfl
  | succ n ih =>
    rw [Lexer.closing] at ih
    rw [Lexer.closing, List.replicate_succ, List.cons_append, place_mark, ih]
    rfl

end Piece

/-! ## Tokens -/

/-- The kinds that a replica alone is made of. -/
def Token.Kind.isOfReplica : Kind → Bool
  | .replicaBegin | .speech _ | .replicaEnd => true
  | _ => false

/-- Tokens in which speech stands in replicas only. A replica holds trivia and speech that is not
blank. It ends right behind its last speech, or behind its beginning if it has none, with the empty
span there, and the trivia behind its end keep the order of the source. -/
inductive Staged : List Token → Prop where
  | nil : Staged []
  | other {t : Token} {ts : List Token} (ht : t.kind.isOfReplica = false) (hs : Staged ts) :
    Staged (t :: ts)
  | replica {b e : Token} {inside ts : List Token} (hb : b.kind = .replicaBegin)
      (hi : ∀ t ∈ inside, t.isTrivia ∨ ∃ text, t.kind = .speech text ∧ !Text.isBlankText text)
      (hl : ∀ t ∈ inside.getLast?, ∃ text, t.kind = .speech text) (he : e.kind = .replicaEnd)
      (hspan : e.span = Span.point ((b :: inside).getLast (List.cons_ne_nil b inside)).span.stop)
      (ho : (e :: ts.takeWhile Token.isTrivia).Pairwise Token.Before) (hs : Staged ts) :
    Staged (b :: inside ++ e :: ts)

theorem Staged.append {ts us : List Token} (ht : ∀ t ∈ ts, t.kind.isOfReplica = false)
    (hu : Staged us) : Staged (ts ++ us) := by
  induction ts with
  | nil => exact hu
  | cons t ts ih => exact .other (ht t (by simp)) (ih fun v hv => ht v (by simp [hv]))

namespace Piece

/-- No token of the piece is of such a kind, arguments and their error aside. -/
def Free (p : Kind → Bool) : Piece → Prop
  | covered _ kinds => ∀ k ∈ kinds, p k = false
  | arguments _ => True

section
variable (p : Kind → Bool)

@[simp] theorem free_token (k : Kind) (text : List Char) :
    (token k text).Free p ↔ p k = false := by
  simp [Free, token]

@[simp] theorem free_gap (text : List Char) : (gap text).Free p := by
  simp [Free, gap]

@[simp] theorem free_mark (k : Kind) : (mark k).Free p ↔ p k = false := free_token p k []

@[simp] theorem free_arguments (list : ArgumentList) : (arguments list).Free p := trivial

end

theorem Free.of_mem_tokens {p : Kind → Bool} (ha : ∀ text, p (.argument text) = false)
    (he : ∀ text, p (.error text) = false) {piece : Piece} (h : piece.Free p) {q : Position}
    {t : Token} (ht : t ∈ piece.tokens q) : p t.kind = false := by
  cases piece with
  | covered text kinds =>
    obtain ⟨k, hk, rfl⟩ := List.mem_map.1 ht
    exact h k hk
  | arguments list =>
    rw [tokens_arguments] at ht
    rcases List.mem_append.1 ht with ht | ht
    · obtain ⟨field, -, hk⟩ := argument_of_mem_argumentTokens ht
      rw [hk]
      exact ha _
    · split at ht
      · cases ht
      · rw [List.mem_singleton.1 ht]
        exact he _

/-- Levels are only entered and left. -/
theorem free_levels {p : Kind → Bool} (hi : p .indent = false) (hd : p .dedent = false) (m n : Nat)
    (text : List Char) :
    (covered text (List.replicate m .indent ++ List.replicate n .dedent)).Free p := by
  intro k hk
  rcases List.mem_append.1 hk with h | h
  · rw [List.eq_of_mem_replicate h, hi]
  · rw [List.eq_of_mem_replicate h, hd]

theorem free_replica_of_reads {f g : Context} {unit : List Piece} (h : f.Reads unit g)
    (hf : f.mode ≠ .replica) (hg : g.mode ≠ .replica) :
    ∀ piece ∈ unit, piece.Free Kind.isOfReplica := by
  cases h with
  | replicaEnd | speech => exact absurd rfl hf
  | openReplica => exact absurd rfl hg
  | levels hs hn => simpa using free_levels rfl rfl _ _ _
  | tag hk | tagValue hk =>
    rcases hk with rfl | rfl <;> simp [Free, token, Kind.isOfReplica]
  | _ => simp [Free, token, mark, gap, Kind.isOfReplica]

theorem exists_of_mem_place {p : Position} {pieces : List Piece} {t : Token}
    (h : t ∈ place p pieces) : ∃ piece ∈ pieces, ∃ q, t ∈ piece.tokens q := by
  induction pieces generalizing p with
  | nil => cases h
  | cons piece pieces ih =>
    rcases List.mem_append.1 h with h | h
    · exact ⟨piece, by simp, p, h⟩
    · obtain ⟨q, hq, r, hr⟩ := ih h
      exact ⟨q, by simp [hq], r, hr⟩

theorem InReplica.of_mem_tokens {piece : Piece} (h : piece.InReplica) {p : Position} {t : Token}
    (ht : t ∈ piece.tokens p) :
    t.isTrivia ∨ ∃ text, t.kind = .speech text ∧ !Text.isBlankText text := by
  obtain ⟨f, g, h, hf, hg⟩ := h
  cases h with
  | space => cases ht
  | newline | comment | commentOpen | commentText | commentClose =>
    rw [List.mem_singleton.1 ht]
    exact .inl rfl
  | speech hb =>
    rw [List.mem_singleton.1 ht]
    exact .inr ⟨_, rfl, by simpa [Text.isBlankText] using hb⟩
  | replicaEnd => cases hg
  | _ => cases hf

theorem InReplica.eq_speech {piece : Piece} (h : piece.InReplica) (hold : piece.holdsReplica) :
    ∃ text, piece = token (.speech (String.ofList text)) text := by
  obtain ⟨f, g, h, hf, hg⟩ := h
  cases h with
  | speech => exact ⟨_, rfl⟩
  | replicaEnd => cases hg
  | newline | space | comment | commentOpen | commentText | commentClose => cases hold
  | _ => cases hf

/-- The tokens of an open replica end where its last speech does. -/
theorem getLast_place_inside {b : Token} {p : Position} {inside : List Piece}
    (hb : b.span.stop = p) (hi : ∀ piece ∈ inside, piece.InReplica)
    (hl : ∀ piece ∈ inside.getLast?, piece.holdsReplica) :
    (∀ t ∈ (place p inside).getLast?, ∃ text, t.kind = .speech text) ∧
      ((b :: place p inside).getLast (List.cons_ne_nil _ _)).span.stop =
        p.advance (texts inside) := by
  rcases List.eq_nil_or_concat inside with rfl | ⟨init, last, rfl⟩
  · exact ⟨nofun, hb⟩
  · rw [List.concat_eq_append] at hi hl ⊢
    obtain ⟨text, rfl⟩ := (hi last (by simp)).eq_speech (hl last (by simp))
    simp [place_append, Span.ofText, Position.advance_append]

/-- The trivia right behind a token keep the order of the source. -/
theorem pairwise_trivia {t : Token} {ts : List Token} (hl : t.kind.isLevel = false)
    (ha : t.kind.isArgument = false) (h : (t :: ts).Pairwise Token.Precedes) :
    (t :: ts.takeWhile Token.isTrivia).Pairwise Token.Before := by
  have hsub : (t :: ts.takeWhile Token.isTrivia).Sublist (t :: ts) :=
    (List.takeWhile_sublist _).cons_cons t
  refine (h.sublist hsub).imp_of_mem ?_
  intro u v hu _ huv
  rcases List.mem_cons.1 hu with rfl | hu
  · exact huv.before hl ha
  · have ht : u.kind.isTrivia = true := List.all_eq_true.1 List.all_takeWhile u hu
    refine huv.before ?_ ?_
    · cases hk : u.kind <;> simp_all [Kind.isTrivia, Kind.isLevel]
    · cases hk : u.kind <;> simp_all [Kind.isTrivia, Kind.isArgument]

theorem staged_place {m : Lexer.Mode} {pieces : List Piece} (h : Settled m pieces)
    (hf : ∀ piece ∈ pieces, piece.Faithful) (ht : ∀ piece ∈ pieces, piece.Tidy) (p : Position) :
    Staged (place p pieces) := by
  induction h generalizing p with
  | nil => exact .nil
  | @outside _ _ unit pieces hu hfm hgm _ ih =>
    rw [place_append]
    refine Staged.append ?_ (ih (fun q hq => hf q (by simp [hq])) (fun q hq => ht q (by simp [hq])) _)
    intro t hmem
    obtain ⟨piece, hpiece, q, hq⟩ := exists_of_mem_place hmem
    exact (free_replica_of_reads hu hfm hgm piece hpiece).of_mem_tokens (fun _ => rfl)
      (fun _ => rfl) hq
  | @replica inside pieces hi hl _ ih =>
    -- the trivia behind the end are in order because all tokens from the end on are
    have hrest : ∀ q ∈ mark .replicaEnd :: pieces,
        q ∈ token .replicaBegin ['"', ' '] :: inside ++ mark .replicaEnd :: pieces :=
      fun q hq => List.mem_append_right _ hq
    have hpw := pairwise_precedes_place (fun q hq => hf q (hrest q hq))
      (fun q hq => ht q (hrest q hq)) ((p.advance ['"', ' ']).advance (texts inside))
    obtain ⟨hlast, hstop⟩ := getLast_place_inside (p := p.advance ['"', ' '])
      (b := ⟨.replicaBegin, Span.ofText p ['"', ' ']⟩) rfl hi hl
    rw [List.cons_append, place_token, place_append, place_mark]
    rw [place_mark] at hpw
    refine .replica rfl ?_ hlast rfl (by rw [hstop]) (pairwise_trivia rfl rfl hpw)
      (ih (fun q hq => hf q (by simp [hq])) (fun q hq => ht q (by simp [hq])) _)
    intro t hmem
    obtain ⟨piece, hpiece, q, hq⟩ := exists_of_mem_place hmem
    exact (hi piece hpiece).of_mem_tokens hq

end Piece

namespace Lexer

@[simp] theorem texts_closing (n : Nat) : Piece.texts (closing n) = [] := by
  simp [closing]

theorem mark_not_mem_closing (n : Nat) : .mark .replicaEnd ∉ closing n := by
  simp [closing, Piece.mark]

theorem free_closing {p : Kind → Bool} (hd : p .dedent = false) (he : p .eof = false) (n : Nat) :
    ∀ piece ∈ closing n, piece.Free p := by
  intro piece hp
  rcases List.mem_append.1 hp with hp | hp
  · rw [List.eq_of_mem_replicate hp, Piece.free_mark, hd]
  · rw [List.mem_singleton.1 hp, Piece.free_mark, he]

theorem settle_closing (n : Nat) : Piece.settle (closing n) = closing n :=
  Piece.settle_append (mark_not_mem_closing n) []

/-- The end of an open replica comes first among what is settled, if nothing more is said in it, and
what follows begins with no other. -/
theorem settle_run (s : State) (cs : List Char) :
    ∃ front tail, Piece.settle (run s cs) = front ++ tail ∧
      (front = [] ∨ front = [.mark .replicaEnd] ∧ s.mode = .replica) ∧
      tail.head? ≠ some (.mark .replicaEnd) := by
  obtain ⟨body, f, hrun, hbody, hf⟩ := readsAll_run s cs
  have hclosing := mark_not_mem_closing f.level
  have hhead : ∀ pieces : List Piece, pieces.head? ≠ some (.mark .replicaEnd) →
      (pieces ++ closing f.level).head? ≠ some (.mark .replicaEnd) := by
    intro pieces hp
    cases pieces with
    | nil => exact fun h => hclosing (List.mem_of_mem_head? h)
    | cons piece pieces => exact hp
  obtain ⟨hout, hopen⟩ := Piece.settled_settle hbody hf
  rw [hrun, Piece.settle_append hclosing]
  by_cases hs : s.mode = .replica
  · obtain ⟨inside, after, hsettle, hi, -, ha⟩ := hopen hs
    rw [hsettle]
    cases inside with
    | nil =>
      exact ⟨[.mark .replicaEnd], after ++ closing f.level, rfl, .inr ⟨rfl, hs⟩, hhead _ ha.head?⟩
    | cons first inside =>
      refine ⟨[], first :: (inside ++ .mark .replicaEnd :: after ++ closing f.level), rfl, .inl rfl, ?_⟩
      intro he
      exact (hi first (by simp)).ne_mark (Option.some.inj he)
  · exact ⟨[], _, rfl, .inl rfl, hhead _ (hout hs).head?⟩

end Lexer

/-- A source is read into settled pieces and the marks at its end. -/
theorem settled_tokenize (source : String) :
    ∃ pieces n, tokenize source = Piece.place Position.origin (pieces ++ Lexer.closing n) ∧
      Piece.Settled .structural pieces ∧ Piece.texts pieces = source.toList ∧
      ∀ piece ∈ pieces ++ Lexer.closing n, piece.Faithful ∧ piece.Tidy := by
  obtain ⟨body, f, hrun, hbody, hf⟩ := Lexer.readsAll_run {} source.toList
  refine ⟨Piece.settle body, f.level, ?_, (Piece.settled_settle hbody hf).1 nofun, ?_, ?_⟩
  · rw [tokenize, hrun, Piece.settle_append (Lexer.mark_not_mem_closing f.level)]
  · have htext := Lexer.texts_run {} source.toList
    rw [hrun, Piece.texts_append] at htext
    simpa using htext
  · intro piece hp
    have hmem : piece ∈ Lexer.run {} source.toList := by
      rw [hrun]
      exact ((Piece.perm_settle body).append_right _).mem_iff.1 hp
    exact ⟨Lexer.faithful_run _ _ piece hmem, Lexer.tidy_run _ _ piece hmem⟩

/-- The tokens of every source are staged, and all replicas are closed before the marks at the end:
the dedents of the levels that are left there, and the end itself. -/
theorem replicas_tokenize (source : String) :
    ∃ tokens n, tokenize source =
        tokens ++ List.replicate n ⟨.dedent, .point (Position.origin.advance source.toList)⟩ ++
          [⟨.eof, .point (Position.origin.advance source.toList)⟩] ∧
      Staged tokens := by
  obtain ⟨pieces, n, htokens, hsettled, htext, hall⟩ := settled_tokenize source
  have hf : ∀ piece ∈ pieces, piece.Faithful := fun q hq => (hall q (by simp [hq])).1
  have ht : ∀ piece ∈ pieces, piece.Tidy := fun q hq => (hall q (by simp [hq])).2
  refine ⟨Piece.place Position.origin pieces, n, ?_, Piece.staged_place hsettled hf ht _⟩
  rw [htokens, Piece.place_append, htext, Piece.place_closing, List.append_assoc]

end StoryScript

import Mathlib.Data.List.Forall2
import StoryScript.Story.Parser
/-!
# Tokens with more lines between them

Lines without content add trivia behind a line end, and move what follows down. `Padded` says that
tokens are others with such lines put in. The trivia of a choice text are its own, so nothing is put in
between bounds. Cutting tokens by their kinds keeps the relation (`span_trivia`, `span_kept`).
-/

namespace StoryScript

open Token (Kind)

/-- What stands between two tokens, as far as lines can be put in there. -/
inductive Spot where
  | inLine
  /-- Behind a line end, or at the beginning. -/
  | lineStart
  /-- Between the bounds of a choice text. -/
  | inText
deriving DecidableEq

/-- The spot behind a token. A bound that is seen opens a text or closes it. -/
def Spot.next : Spot → Kind → Spot
  | .inText, .choiceBound false => .inLine
  | .inText, _ => .inText
  | _, .choiceBound false => .inText
  | _, .newline => .lineStart
  | _, _ => .inLine

/-- A place between two tokens: the line up to which tokens have been, and how many lines have been
put in so far. -/
structure Place where
  spot : Spot
  line : Nat
  shift : Nat

/-- The place behind a token. -/
def Place.past (p : Place) (t : Token) : Place :=
  ⟨p.spot.next t.kind, max p.line t.span.stop.line, p.shift⟩

/-- What a token at a place keeps to. -/
structure Fits (p : Place) (t : Token) : Prop where
  line : t.kind = .newline ∨ t.speech?.isSome = true → p.line ≤ t.span.start.line
  newline : t.kind = .newline → t.span.start.line < t.span.stop.line
  choice : t.kind = .choice → p.spot ≠ .inText

/-- One token is another, moved by the lines that have been put in before it. -/
structure Kept (p : Place) (t u : Token) : Prop extends Fits p t where
  kind : u.kind = t.kind
  start : u.span.start.line = t.span.start.line + p.shift
  stop : u.span.stop.line = t.span.stop.line + p.shift

/-- The second tokens are the first with trivia put in at starts of lines. -/
inductive Padded : Place → List Token → List Token → Prop where
  | nil (p : Place) : Padded p [] []
  | keep {p : Place} {t u : Token} {ts us : List Token} (hk : Kept p t u)
      (h : Padded (p.past t) ts us) : Padded p (t :: ts) (u :: us)
  | pad {p : Place} {u : Token} {ts us : List Token} (n : Nat) (hp : p.spot = .lineStart)
      (hu : u.isTrivia = true) (h : Padded { p with shift := p.shift + n } ts us) :
    Padded p ts (u :: us)

theorem Token.exists_speech {t : Token} (h : t.speech?.isSome = true) :
    ∃ text, t.kind = .speech text := by
  unfold Token.speech? at h
  split at h
  · next hk => exact ⟨_, hk⟩
  · cases h

theorem Spot.next_ne_lineStart {k : Kind} (h : k ≠ .newline) (spot : Spot) :
    spot.next k ≠ .lineStart := by
  cases spot <;> cases k with
  | newline => exact absurd rfl h
  | choiceBound silent => cases silent <;> exact nofun
  | _ => exact nofun

theorem Place.spot_past {t : Token} (h : t.kind ≠ .newline) (p : Place) :
    (p.past t).spot ≠ .lineStart := Spot.next_ne_lineStart h p.spot

theorem Spot.next_inText {k : Kind} (h : k ≠ .choiceBound false) : Spot.next .inText k = .inText := by
  cases k with
  | choiceBound silent =>
    cases silent
    · exact absurd rfl h
    · rfl
  | _ => rfl

/-- Nothing but a bound opens a text. -/
theorem Spot.next_eq_inLine {spot : Spot} {k : Kind} (hs : spot ≠ .inText) (hn : k ≠ .newline)
    (hb : k ≠ .choiceBound false) : spot.next k = .inLine := by
  cases spot with
  | inText => exact absurd rfl hs
  | inLine | lineStart =>
    cases k with
    | newline => exact absurd rfl hn
    | choiceBound silent =>
      cases silent
      · exact absurd rfl hb
      · rfl
    | _ => rfl

theorem Spot.next_lineStart (k : Kind) : Spot.next .lineStart k = Spot.next .inLine k := by
  cases k with
  | choiceBound silent => cases silent <;> rfl
  | _ => rfl

namespace Padded

variable {p : Place} {t u : Token} {ts us : List Token}

/-- At a place where nothing is put in, both lists begin with the same token. -/
theorem aligned (hp : p.spot ≠ .lineStart) (h : Padded p ts us) :
    (ts = [] ∧ us = []) ∨ ∃ t u ts' us', ts = t :: ts' ∧ us = u :: us' ∧ Kept p t u ∧
      Padded (p.past t) ts' us' := by
  cases h with
  | nil => exact .inl ⟨rfl, rfl⟩
  | keep hk h => exact .inr ⟨_, _, _, _, rfl, rfl, hk, h⟩
  | pad n hl hu h => exact absurd hl hp

/-- In front of a token that both have, it does not matter that a line begins. -/
theorem keep_inLine (hk : Kept p t u) (h : Padded (p.past t) ts us) :
    ∃ q : Place, q.spot ≠ .lineStart ∧ Padded q (t :: ts) (u :: us) := by
  by_cases hp : p.spot = .lineStart
  · refine ⟨{ p with spot := .inLine }, nofun, .keep ⟨⟨hk.line, hk.newline, fun _ => nofun⟩, hk.kind,
      hk.start, hk.stop⟩ ?_⟩
    have hpast : Place.past { p with spot := .inLine } t = p.past t := by
      rw [Place.past, Place.past, hp, Spot.next_lineStart]
    rwa [hpast]
  · exact ⟨p, hp, .keep hk h⟩

/-- What is put in before the first token of the one list. -/
theorem exists_front (h : Padded p (t :: ts) us) :
    ∃ front u us' q, us = front ++ u :: us' ∧ (∀ v ∈ front, v.isTrivia = true) ∧
      Kept q t u ∧ Padded (q.past t) ts us' := by
  generalize hts : t :: ts = ts' at h
  induction h with
  | nil => cases hts
  | @keep p _ u _ us hk h =>
    obtain ⟨rfl, rfl⟩ := List.cons.inj hts
    exact ⟨[], u, us, p, rfl, nofun, hk, h⟩
  | @pad p v _ us n hp hv h ih =>
    obtain ⟨front, u, us', q, rfl, hfront, hk, hrest⟩ := ih hts
    exact ⟨v :: front, u, us', q, rfl, List.forall_mem_cons.2 ⟨hv, hfront⟩, hk, hrest⟩

/-- Only trivia is put in behind the last token. -/
theorem isTrivia_of_nil (h : Padded p [] us) : ∀ u ∈ us, u.isTrivia = true := by
  generalize hts : ([] : List Token) = ts' at h
  induction h with
  | nil => exact nofun
  | keep => cases hts
  | pad n hp hu h ih => exact List.forall_mem_cons.2 ⟨hu, ih hts⟩

/-! ## Cutting by kind -/

section
variable {f : Token → Bool} (hf : ∀ t u : Token, u.kind = t.kind → f u = f t)
include hf

/-- A cut that trivia do not end. -/
theorem span_trivia (ht : ∀ t : Token, t.isTrivia = true → f t = true) (h : Padded p ts us) :
    Padded p (ts.takeWhile f) (us.takeWhile f) ∧
      ∃ q : Place, q.spot ≠ .lineStart ∧ Padded q (ts.dropWhile f) (us.dropWhile f) := by
  induction h with
  | nil p => exact ⟨.nil p, { p with spot := .inLine }, nofun, .nil _⟩
  | @keep p t u ts us hk h ih =>
    have hu := hf t u hk.kind
    by_cases hft : f t = true
    · rw [List.takeWhile_cons_of_pos hft, List.takeWhile_cons_of_pos (hu.trans hft),
        List.dropWhile_cons_of_pos hft, List.dropWhile_cons_of_pos (hu.trans hft)]
      exact ⟨.keep hk ih.1, ih.2⟩
    · rw [List.takeWhile_cons_of_neg hft, List.takeWhile_cons_of_neg (hu ▸ hft),
        List.dropWhile_cons_of_neg hft, List.dropWhile_cons_of_neg (hu ▸ hft)]
      exact ⟨.nil p, keep_inLine hk h⟩
  | @pad p u ts us n hp hu h ih =>
    rw [List.takeWhile_cons_of_pos (ht u hu), List.dropWhile_cons_of_pos (ht u hu)]
    exact ⟨.pad n hp hu ih.1, ih.2⟩

/-- A cut on the way of which nothing is put in. -/
theorem span_kept {P : Spot → Prop} (hP : ∀ spot, P spot → spot ≠ .lineStart)
    (hnext : ∀ spot (t : Token), P spot → f t = true → P (spot.next t.kind)) (hp : P p.spot)
    (h : Padded p ts us) :
    (us.takeWhile f).map Token.kind = (ts.takeWhile f).map Token.kind ∧
      ∃ q : Place, P q.spot ∧ Padded q (ts.dropWhile f) (us.dropWhile f) := by
  induction h with
  | nil p => exact ⟨rfl, p, hp, .nil p⟩
  | @keep p t u ts us hk h ih =>
    have hu := hf t u hk.kind
    by_cases hft : f t = true
    · obtain ⟨hkinds, hrest⟩ := ih (hnext p.spot t hp hft)
      rw [List.takeWhile_cons_of_pos hft, List.takeWhile_cons_of_pos (hu.trans hft),
        List.dropWhile_cons_of_pos hft, List.dropWhile_cons_of_pos (hu.trans hft), List.map_cons,
        List.map_cons, hkinds, hk.kind]
      exact ⟨rfl, hrest⟩
    · rw [List.takeWhile_cons_of_neg hft, List.takeWhile_cons_of_neg (hu ▸ hft),
        List.dropWhile_cons_of_neg hft, List.dropWhile_cons_of_neg (hu ▸ hft)]
      exact ⟨rfl, p, hp, .keep hk h⟩
  | pad n hl hu h ih => exact absurd hl (hP _ hp)

/-- What trivia do not count for is the same. -/
theorem any_eq (ht : ∀ t : Token, t.isTrivia = true → f t = false) (h : Padded p ts us) :
    us.any f = ts.any f := by
  induction h with
  | nil => rfl
  | keep hk h ih => rw [List.any_cons, List.any_cons, ih, hf _ _ hk.kind]
  | pad n hp hu h ih => rw [List.any_cons, ih, ht _ hu, Bool.false_or]

end

/-- The same for what is collected from tokens. -/
theorem filterMap_eq {α : Type} {f : Token → Option α} (hf : ∀ t u : Token, u.kind = t.kind → f u = f t)
    (ht : ∀ t : Token, t.isTrivia = true → f t = none) (h : Padded p ts us) :
    us.filterMap f = ts.filterMap f := by
  induction h with
  | nil => rfl
  | keep hk h ih => rw [List.filterMap_cons, List.filterMap_cons, ih, hf _ _ hk.kind]
  | pad n hp hu h ih => rw [List.filterMap_cons, ih, ht _ hu]

end Padded

/-! ## Bodies and windows -/

theorem padded_readBody {p : Place} {ts us : List Token} (h : Padded p ts us) (depth : Nat) :
    Padded p (readBody depth ts).1 (readBody depth us).1 ∧
      ∃ q, Padded q (readBody depth ts).2 (readBody depth us).2 := by
  induction h generalizing depth with
  | nil p => exact ⟨.nil p, p, .nil p⟩
  | @keep p t u ts us hk h ih =>
    rw [readBody, readBody, hk.kind]
    split
    · exact ⟨.keep hk (ih (depth + 1)).1, (ih (depth + 1)).2⟩
    · split
      · exact ⟨.nil p, _, h⟩
      · exact ⟨.keep hk (ih (depth - 1)).1, (ih (depth - 1)).2⟩
    · exact ⟨.keep hk (ih depth).1, (ih depth).2⟩
  | @pad p u ts us n hp hu h ih =>
    have hread : readBody depth (u :: us) = (u :: (readBody depth us).1, (readBody depth us).2) := by
      rw [readBody]
      unfold Token.isTrivia at hu
      split
      · next hk => simp [hk, Kind.isTrivia] at hu
      · next hk => simp [hk, Kind.isTrivia] at hu
      · rfl
    rw [hread]
    exact ⟨.pad n hp hu (ih depth).1, (ih depth).2⟩

/-- Windows of the same header with the same tokens, but for lines that are put in behind the header's
own. -/
def PaddedWindow (w v : Token × List Token) : Prop :=
  ∃ p : Place, p.spot ≠ .lineStart ∧ Padded p w.2 v.2

theorem padded_windows {p : Place} {ts us : List Token} (h : Padded p ts us) :
    Padded p (windows ts).1 (windows us).1 ∧
      List.Forall₂ PaddedWindow (windows ts).2 (windows us).2 := by
  induction h with
  | nil p => exact ⟨.nil p, .nil⟩
  | @keep p t u ts us hk h ih =>
    rw [windows, windows, hk.kind]
    split
    · next hheader =>
      exact ⟨.nil p, .cons ⟨_, p.spot_past (by rw [hheader]; exact nofun), ih.1⟩ ih.2⟩
    · exact ⟨.keep hk ih.1, ih.2⟩
  | @pad p u ts us n hp hu h ih =>
    have hheader : u.kind ≠ .header := by
      intro hk
      simp [Token.isTrivia, hk, Kind.isTrivia] at hu
    rw [windows, if_neg hheader]
    exact ⟨.pad n hp hu ih.1, ih.2⟩

end StoryScript

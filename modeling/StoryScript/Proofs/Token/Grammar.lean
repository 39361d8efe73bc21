import StoryScript.Proofs.Canonical.Tokens
import StoryScript.Proofs.Token.Names
/-!
# The grammar of tokens

What can stand behind what among the tokens of a source, by their kinds alone: comments and choice
texts open and close in turn, a silent bound is there only around the text on a choice's line, and a
name, a value or an argument stands right behind what it belongs to. Moving the ends of replicas back
takes them out of comments (`arranged_settle`), and every unit keeps to each of these rules
(`grammatical_tokenize`).
-/

namespace StoryScript

open Token (Kind)

/-! ## Rules -/

/-- What a source ends with: the levels that are left, and the end itself. -/
def endingKinds (n : Nat) : List Kind := List.replicate n .dedent ++ [.eof]

/-- The kinds that block comments are made of, line ends aside. -/
def Token.Kind.isOfComment : Kind → Bool
  | .commentOpen | .commentText _ | .commentClose => true
  | _ => false

/-- The kinds that stand inside a block comment. -/
def Token.Kind.isInComment : Kind → Bool
  | .commentText _ | .newline => true
  | _ => false

/-- Block comments open and close in turn, with nothing but their text and line ends in them. One
that does not close goes on up to the end. The flag says that a comment is open. -/
inductive Commented : Bool → List Kind → Prop where
  | nil : Commented false []
  | other {k : Kind} {ks : List Kind} (hk : k.isOfComment = false) (h : Commented false ks) :
    Commented false (k :: ks)
  | opens {ks : List Kind} (h : Commented true ks) : Commented false (.commentOpen :: ks)
  | inside {k : Kind} {ks : List Kind} (hk : k.isInComment) (h : Commented true ks) :
    Commented true (k :: ks)
  | closes {ks : List Kind} (h : Commented false ks) : Commented true (.commentClose :: ks)
  | ending (n : Nat) : Commented true (endingKinds n)

/-- The kinds that choice texts are made of, line ends and comments aside. -/
def Token.Kind.isOfChoiceText : Kind → Bool
  | .choiceText _ | .choiceBound _ => true
  | _ => false

/-- The kinds that stand between visible bounds. -/
def Token.Kind.isInChoiceText (k : Kind) : Bool :=
  match k with
  | .choiceText _ => true
  | _ => k.isTrivia

/-- Choice texts stand behind their choice between silent bounds, alone, or between visible bounds
that open and close in turn, with nothing else in there but line ends and comments. A text that does
not close goes on up to the end. The flag says that a visible bound is open. -/
inductive Worded : Bool → List Kind → Prop where
  | nil : Worded false []
  | other {k : Kind} {ks : List Kind} (hk : k.isOfChoiceText = false) (h : Worded false ks) :
    Worded false (k :: ks)
  | line {text : String} {ks : List Kind} (h : Worded false ks) :
    Worded false
      (.choice :: .choiceBound true :: .choiceText text :: .choiceBound true :: ks)
  | opens {ks : List Kind} (h : Worded true ks) : Worded false (.choiceBound false :: ks)
  | inside {k : Kind} {ks : List Kind} (hk : k.isInChoiceText) (h : Worded true ks) :
    Worded true (k :: ks)
  | closes {ks : List Kind} (h : Worded false ks) : Worded true (.choiceBound false :: ks)
  | ending (n : Nat) : Worded true (endingKinds n)

/-- The kinds that are not there for themselves: names, values and arguments. -/
def Token.Kind.isLed : Kind → Bool
  | .identifier _ | .tagValue _ | .argument _ => true
  | _ => false

/-- What such a kind stands right behind. -/
def Token.Kind.leads : Kind → Kind → Bool
  | .header, .identifier _ | .goto _, .identifier _ => true
  | .tag _, .tagValue _ | .choiceTag _, .tagValue _ => true
  | .call _, .argument _ | .argument _, .argument _ => true
  | _, _ => false

/-- Names stand right behind headers and arrows, values behind tags, and arguments behind a call or
another argument. -/
structure Led (ks : List Kind) : Prop where
  head : ∀ k ∈ ks.head?, k.isLed = false
  chain : ks.IsChain fun j k => k.isLed → j.leads k

/-- The grammar of tokens. -/
structure Grammatical (ks : List Kind) : Prop where
  /-- There is one end, and it is last. -/
  eof : ∃ before, ks = before ++ [.eof] ∧ .eof ∉ before
  comments : Commented false ks
  choiceTexts : Worded false ks
  led : Led ks

/-! ## Replicas end outside of comments -/

namespace Lexer.Context

variable {f g : Context} {unit pieces : List Piece}

/-- Units one after the other, with no replica ending inside a comment. -/
inductive Arranged : Context → List Piece → Context → Prop where
  | nil (f : Context) : Arranged f [] f
  | cons {f g h : Context} {unit pieces : List Piece} (hu : Reads f unit g)
      (hend : unit = [.mark .replicaEnd] → f.inComment = false) (hp : Arranged g pieces h) :
    Arranged f (unit ++ pieces) h

/-- The context once the open replica is over. -/
def left (f : Context) : Context := { f with mode := .structural }

/-- What follows in an open replica: first of all its end, or something else. -/
def ArrangedOpen (f : Context) (pieces : List Piece) (g : Context) : Prop :=
  (∃ rest, pieces = .mark .replicaEnd :: rest ∧ Arranged f.left rest g) ∨
    pieces.head? ≠ some (.mark .replicaEnd) ∧ Arranged f pieces g

/-- In an open replica, a unit ends it or goes on with it, and only a speech holds it. -/
theorem Reads.of_open (h : f.Reads unit g) (hf : f.mode = .replica) :
    (unit = [.mark .replicaEnd] ∧ g = f.left) ∨
      ∃ piece, unit = [piece] ∧ piece ≠ .mark .replicaEnd ∧ g.mode = .replica ∧
        (if piece.holdsReplica then g.inComment = false else f.left.Reads [piece] g.left) := by
  cases h with
  | replicaEnd => exact .inl ⟨rfl, rfl⟩
  | newline h => exact .inr ⟨_, rfl, by simp [Piece.token, Piece.mark], hf, .newline h⟩
  | space hb hl => exact .inr ⟨_, rfl, by simp [Piece.gap, Piece.mark], hf, .space hb hl⟩
  | comment hl => exact .inr ⟨_, rfl, by simp [Piece.token, Piece.mark], hf, .comment hl⟩
  | commentOpen => exact .inr ⟨_, rfl, by simp [Piece.token, Piece.mark], hf, .commentOpen⟩
  | commentText hl => exact .inr ⟨_, rfl, by simp [Piece.token, Piece.mark], hf, .commentText hl⟩
  | commentClose => exact .inr ⟨_, rfl, by simp [Piece.token, Piece.mark], hf, .commentClose⟩
  | speech => exact .inr ⟨_, rfl, by simp [Piece.token, Piece.mark], hf, rfl⟩
  | _ => cases hf

/-- The end of a replica, where no comment is open. -/
theorem Arranged.replicaEnd (hf : f.mode = .replica) (hc : f.inComment = false)
    (h : f.left.Arranged pieces g) : f.Arranged (.mark .replicaEnd :: pieces) g := by
  have hend : f.Reads [.mark .replicaEnd] f.left := by
    obtain ⟨mode, inComment, level⟩ := f
    obtain rfl : mode = .replica := hf
    exact .replicaEnd
  exact .cons hend (fun _ => hc) h

section
variable {h : Context} {piece : Piece} (hu : f.Reads [piece] g) (hne : piece ≠ .mark .replicaEnd)
include hu hne

theorem Arranged.push (hp : g.Arranged pieces h) :
    (piece :: pieces).head? ≠ some (.mark .replicaEnd) ∧ f.Arranged (piece :: pieces) h :=
  ⟨fun he => hne (Option.some.inj he),
    .cons hu (fun he => absurd (List.singleton_inj.1 he) hne) hp⟩

/-- Behind what holds a replica stands the end that was to come first. -/
theorem ArrangedOpen.holds (hold : piece.holdsReplica) (hg : g.mode = .replica)
    (hc : g.inComment = false) (hp : g.ArrangedOpen pieces h) :
    (Piece.pushSettled piece pieces).head? ≠ some (.mark .replicaEnd) ∧
      f.Arranged (Piece.pushSettled piece pieces) h := by
  rcases hp with ⟨rest, rfl, hrest⟩ | ⟨hhead, hp⟩
  · rw [Piece.pushSettled_holds hold]
    exact (hrest.replicaEnd hg hc).push hu hne
  · rw [Piece.pushSettled_eq hhead]
    exact hp.push hu hne

/-- The end of the replica moves ahead of everything else. -/
theorem ArrangedOpen.passes (hold : piece.holdsReplica = false) (hl : f.left.Reads [piece] g.left)
    (hp : g.ArrangedOpen pieces h) : f.ArrangedOpen (Piece.pushSettled piece pieces) h := by
  rcases hp with ⟨rest, rfl, hrest⟩ | ⟨hhead, hp⟩
  · rw [Piece.pushSettled_mark hold]
    exact .inl ⟨piece :: rest, rfl, (hrest.push hl hne).2⟩
  · rw [Piece.pushSettled_eq hhead]
    exact .inr (hp.push hu hne)

end

/-- Moving the ends of replicas back takes them out of comments. -/
theorem arranged_settle (h : f.ReadsAll pieces g) (hg : g.mode ≠ .replica) :
    (f.mode ≠ .replica → f.Arranged (Piece.settle pieces) g) ∧
      (f.mode = .replica → f.ArrangedOpen (Piece.settle pieces) g) := by
  induction h with
  | nil f => exact ⟨fun _ => .nil f, fun hf => absurd hf hg⟩
  | @cons f g' h unit pieces hu hp ih =>
    obtain ⟨ihout, ihopen⟩ := ih hg
    have hhead := fun hm => ((Piece.settled_settle hp hg).1 hm).head?
    have happ : Piece.settle (unit ++ pieces) =
        unit.foldr Piece.pushSettled (Piece.settle pieces) := List.foldr_append
    rw [happ]
    constructor
    · intro hf
      have hmark := hu.mark_not_mem hf
      rcases hu.of_not_replica hf with hg' | ⟨rfl, -, hg', hc⟩
      · rw [Piece.foldr_pushSettled hmark (hhead hg')]
        exact .cons hu (fun he => absurd (he ▸ List.mem_singleton_self _) hmark) (ihout hg')
      · exact ((ihopen hg').holds hu (by simp [Piece.token, Piece.mark]) rfl hg' hc).2
    · intro hf
      rcases hu.of_open hf with ⟨rfl, rfl⟩ | ⟨piece, rfl, hne, hg', hpiece⟩
      · have hleft : f.left.mode ≠ .replica := by rintro ⟨⟩
        exact .inl ⟨_, Piece.pushSettled_eq (hhead hleft), ihout hleft⟩
      · by_cases hold : piece.holdsReplica
        · rw [if_pos hold] at hpiece
          exact .inr ((ihopen hg').holds hu hne hold hg' hpiece)
        · rw [if_neg hold] at hpiece
          exact (ihopen hg').passes hu hne (by simpa using hold) hpiece

/-- What each unit puts in front of kinds, a whole run puts in front of them. -/
theorem Arranged.kinds_induction {P : Context → List Kind → Prop}
    (hstep : ∀ {f g : Context} {unit : List Piece} {ks : List Kind}, f.Reads unit g →
      (unit = [.mark .replicaEnd] → f.inComment = false) → P g ks →
        P f (unit.flatMap Piece.kinds ++ ks))
    (h : f.Arranged pieces g) {ks : List Kind} (hks : P g ks) :
    P f (pieces.flatMap Piece.kinds ++ ks) := by
  induction h with
  | nil => exact hks
  | cons hu hend _ ih =>
    rw [List.flatMap_append, List.append_assoc]
    exact hstep hu hend (ih hks)

end Lexer.Context

/-! ## Units keep to the rules -/

namespace Piece

theorem of_mem_fieldKinds {field : List Char} {k : Kind} (h : k ∈ fieldKinds field) :
    ∃ text, k = .argument text := by
  unfold fieldKinds at h
  split at h
  · cases h
  · exact ⟨_, List.mem_singleton.1 h⟩

/-- A list of arguments is arguments, and then an error if it does not close. -/
theorem kinds_arguments (list : ArgumentList) :
    ∃ args error, kinds (.arguments list) = args ++ error ∧ (∀ k ∈ args, ∃ text, k = .argument text) ∧
      ∀ k ∈ error, ∃ text, k = .error text := by
  refine ⟨_, _, rfl, fun k hk => ?_, fun k hk => ?_⟩
  · rcases List.mem_append.1 hk with hk | hk
    · exact of_mem_fieldKinds hk
    · obtain ⟨field, -, hk⟩ := List.mem_flatMap.1 hk
      exact of_mem_fieldKinds hk
  · split at hk
    · cases hk
    · exact ⟨_, List.mem_singleton.1 hk⟩

/-- The kinds of pieces that are free of some are not among these. -/
theorem forall_kinds_of_free {p : Kind → Bool} (ha : ∀ text, p (.argument text) = false)
    (he : ∀ text, p (.error text) = false) {unit : List Piece} (h : ∀ piece ∈ unit, piece.Free p) :
    ∀ k ∈ unit.flatMap kinds, p k = false := by
  intro k hk
  rw [← kinds_place Position.origin] at hk
  obtain ⟨t, ht, rfl⟩ := List.mem_map.1 hk
  obtain ⟨piece, hpiece, q, hq⟩ := exists_of_mem_place ht
  exact (h piece hpiece).of_mem_tokens ha he hq

end Piece

theorem forall_endingKinds {p : Kind → Bool} (hd : p .dedent = false) (he : p .eof = false)
    (n : Nat) : ∀ k ∈ endingKinds n, p k = false := by
  intro k hk
  rcases List.mem_append.1 hk with hk | hk
  · rw [List.eq_of_mem_replicate hk, hd]
  · rw [List.mem_singleton.1 hk, he]

open Piece (Free token mark gap free_levels forall_kinds_of_free)
open Lexer (Context)

section
variable {f g : Context} {unit pieces : List Piece} {ks ls : List Kind}

namespace Commented

theorem append (hk : ∀ k ∈ ks, k.isOfComment = false) (h : Commented false ls) :
    Commented false (ks ++ ls) := by
  induction ks with
  | nil => exact h
  | cons k ks ih => exact .other (hk k (by simp)) (ih fun j hj => hk j (by simp [hj]))

theorem free (hp : ∀ piece ∈ unit, piece.Free Kind.isOfComment) (h : Commented false ks) :
    Commented false (unit.flatMap Piece.kinds ++ ks) :=
  .append (forall_kinds_of_free (fun _ => rfl) (fun _ => rfl) hp) h

theorem at_end (opened : Bool) (n : Nat) : Commented opened (endingKinds n) := by
  cases opened with
  | true => exact .ending n
  | false => simpa using append (forall_endingKinds rfl rfl n) .nil

theorem of_reads (hu : f.Reads unit g) (hend : unit = [.mark .replicaEnd] → f.inComment = false)
    (h : Commented g.inComment ks) : Commented f.inComment (unit.flatMap Piece.kinds ++ ks) := by
  cases hu with
  | newline =>
    cases hc : f.inComment with
    | true => exact .inside rfl (hc ▸ h)
    | false => exact .other rfl (hc ▸ h)
  | space => exact h
  | commentOpen => exact .opens h
  | commentText => exact .inside rfl h
  | commentClose => exact .closes h
  | replicaEnd =>
    obtain rfl := hend rfl
    exact .other rfl h
  | levels => exact .free (by simpa using free_levels rfl rfl _ _ _) h
  | tag hk | tagValue hk =>
    refine .free ?_ h
    rcases hk with rfl | rfl <;> simp [Free, token, Kind.isOfComment]
  | _ => exact .free (by simp [Free, token, mark, gap, Kind.isOfComment]) h

end Commented

namespace Worded

theorem append (hk : ∀ k ∈ ks, k.isOfChoiceText = false) (h : Worded false ls) :
    Worded false (ks ++ ls) := by
  induction ks with
  | nil => exact h
  | cons k ks ih => exact .other (hk k (by simp)) (ih fun j hj => hk j (by simp [hj]))

theorem free (hp : ∀ piece ∈ unit, piece.Free Kind.isOfChoiceText) (h : Worded false ks) :
    Worded false (unit.flatMap Piece.kinds ++ ks) :=
  .append (forall_kinds_of_free (fun _ => rfl) (fun _ => rfl) hp) h

theorem at_end (opened : Bool) (n : Nat) : Worded opened (endingKinds n) := by
  cases opened with
  | true => exact .ending n
  | false => simpa using append (forall_endingKinds rfl rfl n) .nil

/-- Line ends and comments can stand on either side of a bound. -/
theorem trivia {opened : Bool} {k : Kind} (hk : k.isTrivia) (h : Worded opened ks) :
    Worded opened (k :: ks) := by
  cases opened with
  | true => exact .inside (by cases k <;> first | rfl | cases hk) h
  | false => exact .other (by cases k <;> first | rfl | cases hk) h

theorem of_reads (hu : f.Reads unit g) (h : Worded (g.mode = .choiceText) ks) :
    Worded (f.mode = .choiceText) (unit.flatMap Piece.kinds ++ ks) := by
  cases hu with
  | newline | comment | commentOpen | commentText | commentClose => exact .trivia rfl h
  | space => exact h
  | choiceLine => exact .line h
  | openBound => exact .opens h
  | choiceText => exact .inside rfl h
  | closeBound => exact .closes h
  | levels => exact .free (by simpa using free_levels rfl rfl _ _ _) h
  | tag hk | tagValue hk =>
    refine .free ?_ h
    rcases hk with rfl | rfl <;> simp [Free, token, Kind.isOfChoiceText]
  | _ => exact .free (by simp [Free, token, mark, gap, Kind.isOfChoiceText]) h

end Worded

namespace Led

theorem of_forall (h : ∀ k ∈ ks, k.isLed = false) : Led ks := by
  refine ⟨fun k hk => h k (List.mem_of_mem_head? hk), List.Pairwise.isChain ?_⟩
  refine List.pairwise_of_forall_mem_list fun j _ k hk hled => ?_
  rw [h k hk] at hled
  cases hled

theorem append (hk : Led ks) (hl : Led ls) : Led (ks ++ ls) := by
  constructor
  · cases ks with
    | nil => exact hl.head
    | cons k ks => exact hk.head
  · refine List.isChain_append.2 ⟨hk.chain, hl.chain, fun j _ k hmem hled => ?_⟩
    rw [hl.head k hmem] at hled
    cases hled

theorem pair {j k : Kind} (hj : j.isLed = false) (h : j.leads k) : Led [j, k] := by
  refine ⟨?_, List.isChain_pair.2 fun _ => h⟩
  rintro _ ⟨⟩
  exact hj

theorem call {name : String} {args : List Kind} (h : ∀ k ∈ args, ∃ text, k = .argument text) :
    Led (.call name :: args) := by
  refine ⟨?_, List.Pairwise.isChain (List.pairwise_cons.2 ⟨?_, ?_⟩)⟩
  · rintro _ ⟨⟩
    rfl
  · intro k hk _
    obtain ⟨text, rfl⟩ := h k hk
    rfl
  · refine List.pairwise_of_forall_mem_list fun j hj k hk _ => ?_
    obtain ⟨text, rfl⟩ := h j hj
    obtain ⟨text', rfl⟩ := h k hk
    rfl

theorem callList (name : String) (text : List Char) (list : ArgumentList) :
    Led ([token (.call name) text, .arguments list].flatMap Piece.kinds) := by
  obtain ⟨args, error, he, hargs, herror⟩ := Piece.kinds_arguments list
  have hkinds : [token (.call name) text, .arguments list].flatMap Piece.kinds =
      .call name :: args ++ error := by
    simp [← he, token, Piece.kinds]
  rw [hkinds]
  refine (call hargs).append (.of_forall fun k hk => ?_)
  obtain ⟨text, rfl⟩ := herror k hk
  rfl

theorem of_reads (hu : f.Reads unit g) (h : Led ks) : Led (unit.flatMap Piece.kinds ++ ks) := by
  have hfree : (∀ k ∈ unit.flatMap Piece.kinds, k.isLed = false) →
      Led (unit.flatMap Piece.kinds ++ ks) := fun hk => (of_forall hk).append h
  cases hu with
  | tagValue hk => rcases hk with rfl | rfl <;> exact (pair rfl rfl).append h
  | namedHeader | gotoTarget => exact (pair rfl rfl).append h
  | callList => exact (callList _ _ _).append h
  | levels =>
    have hlevels := free_levels (p := Kind.isLed) rfl rfl
    exact hfree (by simpa [Free, Piece.kinds] using hlevels _ _ [])
  | tag hk =>
    refine hfree ?_
    rcases hk with rfl | rfl <;> simp [token, Piece.kinds, Kind.isLed]
  | _ => exact hfree (by simp [token, mark, gap, Piece.kinds, Kind.isLed])

end Led

end

/-! ## The whole source -/

theorem kinds_closing (n : Nat) : (Lexer.closing n).flatMap Piece.kinds = endingKinds n := by
  rw [← Piece.kinds_place Position.origin, Piece.place_closing]
  simp [endingKinds]

/-- The tokens of every source keep to the grammar. -/
theorem grammatical_tokenize (source : String) :
    Grammatical ((tokenize source).map Token.kind) := by
  obtain ⟨body, f, hrun, hbody, hf⟩ := Lexer.readsAll_run {} source.toList
  have harranged := (Context.arranged_settle hbody hf).1 nofun
  have hsettled := (Piece.settled_settle hbody hf).1 nofun
  have hkinds : (tokenize source).map Token.kind =
      (Piece.settle body).flatMap Piece.kinds ++ endingKinds f.level := by
    rw [tokenize, hrun, Piece.settle_append (Lexer.mark_not_mem_closing f.level),
      Piece.kinds_place, List.flatMap_append, kinds_closing]
  rw [hkinds]
  constructor
  case eof =>
    refine ⟨(Piece.settle body).flatMap Piece.kinds ++ List.replicate f.level .dedent, ?_, ?_⟩
    · rw [endingKinds, List.append_assoc]
    · intro hk
      rcases List.mem_append.1 hk with hk | hk
      · have hfree := forall_kinds_of_free (fun _ => rfl) (fun _ => rfl) hsettled.free_eof _ hk
        cases hfree
      · cases List.eq_of_mem_replicate hk
  case comments =>
    exact harranged.kinds_induction (P := fun f => Commented f.inComment) Commented.of_reads
      (.at_end _ _)
  case choiceTexts =>
    exact harranged.kinds_induction (P := fun f => Worded (f.mode = .choiceText))
      (fun hu _ => .of_reads hu) (.at_end _ _)
  case led =>
    exact harranged.kinds_induction (P := fun _ => Led) (fun hu _ => .of_reads hu)
      (.of_forall (forall_endingKinds rfl rfl _))

end StoryScript

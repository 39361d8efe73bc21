import StoryScript.Proofs.BlankLines.Lexer
import StoryScript.Proofs.BlankLines.Padding
import StoryScript.Proofs.Story.Nesting
import StoryScript.Proofs.Token.Shift
/-!
# Tokens around a line without content

A source with a line put in has its tokens padded (`padded_tokenize`). What `Padded` asks of tokens
comes from their order in the source and from the modes in which they are read: outside of choice texts
the number of bounds is even, and no choice begins inside.
-/

namespace StoryScript

open Token (Kind)
open Lexer (Context State)

/-! ## Choice texts -/

/-- Whether a choice text is open behind a token. In an open one no choice begins. -/
def Token.Kind.openText (opened : Bool) : Kind → Option Bool
  | .choiceBound false => some !opened
  | .choice => if opened then none else some false
  | _ => some opened

/-- The same behind the tokens of pieces. -/
def Piece.openText (opened : Bool) (pieces : List Piece) : Option Bool :=
  (pieces.flatMap kinds).foldlM Kind.openText opened

theorem foldlM_openText {ks : List Kind} (h : ∀ opened, ∀ k ∈ ks, k.openText opened = some opened)
    (opened : Bool) : ks.foldlM Kind.openText opened = some opened := by
  induction ks with
  | nil => rfl
  | cons k ks ih =>
    rw [List.foldlM_cons, h opened k (by simp)]
    exact ih fun b l hl => h b l (by simp [hl])

namespace Piece

variable (opened : Bool)

theorem openText_append (as bs : List Piece) :
    openText opened (as ++ bs) = (openText opened as).bind (openText · bs) := by
  simp only [openText, List.flatMap_append, List.foldlM_append]
  rfl

theorem openText_cons (piece : Piece) (pieces : List Piece) :
    openText opened (piece :: pieces) = (openText opened [piece]).bind (openText · pieces) :=
  openText_append opened [piece] pieces

theorem openText_mark (pieces : List Piece) :
    openText opened (.mark .replicaEnd :: pieces) = openText opened pieces := rfl

theorem openText_pushSettled (piece : Piece) (pieces : List Piece) :
    openText opened (pushSettled piece pieces) = openText opened (piece :: pieces) := by
  unfold pushSettled
  split
  · next rest =>
    split
    · rfl
    · change openText opened (.mark .replicaEnd :: piece :: rest) =
        openText opened (piece :: .mark .replicaEnd :: rest)
      rw [openText_mark, openText_cons opened piece rest,
        openText_cons opened piece (.mark .replicaEnd :: rest)]
      simp only [openText_mark]
  · rfl

/-- Moving the ends of replicas leaves choice texts as they are. -/
theorem openText_settle (pieces : List Piece) :
    openText opened (settle pieces) = openText opened pieces := by
  induction pieces generalizing opened with
  | nil => rfl
  | cons piece pieces ih =>
    rw [settle_cons, openText_pushSettled, openText_cons, openText_cons opened piece pieces]
    simp only [ih]

theorem openText_levels (m n : Nat) (text : List Char) :
    openText opened [.covered text (List.replicate m .indent ++ List.replicate n .dedent)] =
      some opened := by
  refine foldlM_openText ?_ opened
  intro b k hk
  simp only [List.flatMap_singleton, kinds, List.mem_append, List.mem_replicate] at hk
  rcases hk with ⟨-, rfl⟩ | ⟨-, rfl⟩ <;> rfl

theorem openText_field (field : List Char) : ∀ k ∈ fieldKinds field, k.openText opened = some opened := by
  intro k hk
  unfold fieldKinds at hk
  split at hk
  · cases hk
  · rw [List.mem_singleton.1 hk]
    rfl

theorem openText_arguments (list : ArgumentList) :
    openText opened [.arguments list] = some opened := by
  refine foldlM_openText ?_ opened
  intro b k hk
  simp only [List.flatMap_singleton, kinds, List.mem_append, List.mem_flatMap] at hk
  rcases hk with (hk | ⟨field, -, hk⟩) | hk
  · exact openText_field b _ k hk
  · exact openText_field b field k hk
  · split at hk
    · cases hk
    · rw [List.mem_singleton.1 hk]
      rfl

end Piece

namespace Lexer.Context

/-- Whether a choice text is open. -/
def inText (f : Context) : Bool := f.mode = .choiceText

variable {f g : Context}

theorem Reads.openText {unit : List Piece} (h : f.Reads unit g) :
    Piece.openText f.inText unit = some g.inText := by
  cases h with
  | levels => exact Piece.openText_levels _ _ _ _
  | tag hk | tagValue hk => rcases hk with rfl | rfl <;> rfl
  | callList => exact Piece.openText_arguments _ _
  | _ => rfl

/-- Along a run a choice text is open where the mode says so. -/
theorem ReadsAll.openText {pieces : List Piece} (h : f.ReadsAll pieces g) :
    Piece.openText f.inText pieces = some g.inText := by
  induction h with
  | nil f => rfl
  | cons hu _ ih => rw [Piece.openText_append, hu.openText, Option.bind_some, ih]

end Lexer.Context

theorem exists_openText_tokenize (source : String) :
    ∃ opened, ((tokenize source).map Token.kind).foldlM Kind.openText false = some opened := by
  obtain ⟨body, f, hrun, hbody, -⟩ := Lexer.readsAll_run {} source.toList
  have hclosing : Piece.openText f.inText (Lexer.closing f.level) = some f.inText := by
    refine foldlM_openText ?_ _
    intro b k hk
    obtain ⟨piece, hpiece, hk⟩ := List.mem_flatMap.1 hk
    rcases List.mem_append.1 hpiece with hpiece | hpiece
    · rw [List.eq_of_mem_replicate hpiece] at hk
      rw [List.mem_singleton.1 hk]
      rfl
    · rw [List.mem_singleton.1 hpiece] at hk
      rw [List.mem_singleton.1 hk]
      rfl
  refine ⟨f.inText, ?_⟩
  rw [tokenize, Piece.kinds_place]
  change Piece.openText false _ = _
  rw [Piece.openText_settle, hrun, Piece.openText_append]
  have hopen : Piece.openText false body = some f.inText := hbody.openText
  rw [hopen]
  exact hclosing

theorem openText_walk {cs : List Char} (h : (Lexer.walk {} cs).2.mode ≠ .choiceText) :
    Piece.openText false (Lexer.walk {} cs).1 = some false := by
  have hcontext := (Lexer.readsAll_walk {} cs).openText
  have htext : (Lexer.walk {} cs).2.context.inText = false := decide_eq_false h
  rwa [htext] at hcontext

/-! ## Spots -/

namespace Spot

/-- Outside of choice texts, a line begins behind a line end. -/
theorem next_newline {spot : Spot} (h : spot.next .newline ≠ .inText) :
    spot.next .newline = .lineStart := by
  cases spot with
  | inText => exact absurd rfl h
  | inLine | lineStart => rfl

/-- In tokens that keep to it, no choice begins in a text, and the spots in texts are where texts are
open. -/
theorem of_openText {spot : Spot} {k : Kind} {ks : List Kind} {opened : Bool}
    (h : (k :: ks).foldlM Kind.openText (decide (spot = .inText)) = some opened) :
    (k = .choice → spot ≠ .inText) ∧
      ks.foldlM Kind.openText (decide (spot.next k = .inText)) = some opened := by
  rw [List.foldlM_cons] at h
  obtain ⟨opened', hk, hks⟩ := Option.bind_eq_some_iff.1 h
  constructor
  · rintro rfl rfl
    cases hk
  · have hnext : decide (spot.next k = .inText) = opened' := by
      cases k with
      | choiceBound silent => cases silent <;> cases spot <;> cases hk <;> rfl
      | _ => cases spot <;> cases hk <;> rfl
    rw [hnext, hks]

theorem inText_foldl {spot : Spot} {ks : List Kind} {opened : Bool}
    (h : ks.foldlM Kind.openText (decide (spot = .inText)) = some opened) :
    decide (ks.foldl next spot = .inText) = opened := by
  induction ks generalizing spot with
  | nil => exact Option.some.inj h
  | cons k ks ih => exact ih (of_openText h).2

end Spot

theorem Place.spot_foldl (p : Place) (ts : List Token) :
    (ts.foldl past p).spot = (ts.map Token.kind).foldl Spot.next p.spot := by
  induction ts generalizing p with
  | nil => rfl
  | cons t ts ih => exact ih (p.past t)

/-! ## Places -/

/-- Tokens one after the other keep to what is asked of them. -/
def FitsAll : Place → List Token → Prop
  | _, [] => True
  | p, t :: ts => Fits p t ∧ FitsAll (p.past t) ts

theorem fitsAll_of_inOrder {p : Place} {ts : List Token} (ho : ts.Pairwise Token.EndsBefore)
    (hn : ∀ t ∈ ts, t.kind = .newline → t.span.start.line < t.span.stop.line)
    (hp : ∀ t ∈ ts, t.kind = .newline ∨ t.speech?.isSome = true → p.line ≤ t.span.start.line)
    {opened : Bool}
    (h : (ts.map Token.kind).foldlM Kind.openText (decide (p.spot = .inText)) = some opened) :
    FitsAll p ts := by
  induction ts generalizing p with
  | nil => trivial
  | cons t ts ih =>
    obtain ⟨hbefore, ho⟩ := List.pairwise_cons.1 ho
    obtain ⟨hchoice, hrest⟩ := Spot.of_openText h
    refine ⟨⟨hp t (by simp), hn t (by simp), hchoice⟩, ih ho (fun u hu => hn u (by simp [hu])) ?_ hrest⟩
    intro u hu hkind
    -- only levels and errors can begin before the token in front of them has ended
    have hplain : u.kind.isLevel = false ∧ u.kind.isError = false := by
      rcases hkind with hkind | hkind
      · rw [hkind]
        exact ⟨rfl, rfl⟩
      · obtain ⟨text, hspeech⟩ := Token.exists_speech hkind
        rw [hspeech]
        exact ⟨rfl, rfl⟩
    have hstart := (hbefore u hu).start hplain.1 hplain.2
    have hline := (Position.le_iff.1 hstart).2
    have hfirst := hp u (by simp [hu]) hkind
    simp only [Place.past]
    omega

theorem fitsAll_tokenize (source : String) : FitsAll ⟨.lineStart, 0, 0⟩ (tokenize source) := by
  obtain ⟨opened, hopen⟩ := exists_openText_tokenize source
  refine fitsAll_of_inOrder (inOrder_tokenize source).pairwise ?_ (fun _ _ _ => Nat.zero_le _) hopen
  intro t ht
  exact (lies_of_mem_tokenize ht).start_lt_stop

/-- The tokens themselves, moved down. -/
theorem padded_shift {p : Place} {ts : List Token} (h : FitsAll p ts) (bytes : Nat) :
    Padded p ts (ts.map (Token.shift bytes p.shift)) := by
  induction ts generalizing p with
  | nil => exact .nil p
  | cons t ts ih => exact .keep ⟨h.1, rfl, rfl, rfl⟩ (ih h.2)

/-- Nothing is asked about how many lines have been put in. -/
theorem FitsAll.shift {p : Place} {ts : List Token} (h : FitsAll p ts) (n : Nat) :
    FitsAll { p with shift := n } ts := by
  induction ts generalizing p with
  | nil => trivial
  | cons t ts ih => exact ⟨⟨h.1.line, h.1.newline, h.1.choice⟩, ih h.2⟩

theorem Padded.pads {p : Place} {ts us pad : List Token} (hp : p.spot = .lineStart)
    (hpad : ∀ u ∈ pad, u.isTrivia = true) (h : Padded p ts us) : Padded p ts (pad ++ us) := by
  induction pad with
  | nil => exact h
  | cons u pad ih => exact .pad 0 hp (hpad u (by simp)) (ih fun v hv => hpad v (by simp [hv]))

/-- Trivia put in at the start of a line, with what follows moved down. -/
theorem padded_insert {p : Place} {ts us pad : List Token} (h : FitsAll p (ts ++ us))
    (hshift : p.shift = 0) (hspot : (ts.foldl Place.past p).spot = .lineStart) (hne : pad ≠ [])
    (hpad : ∀ u ∈ pad, u.isTrivia = true) (bytes lines : Nat) :
    Padded p (ts ++ us) (ts ++ (pad ++ us.map (Token.shift bytes lines))) := by
  induction ts generalizing p with
  | nil =>
    cases pad with
    | nil => exact absurd rfl hne
    | cons u pad =>
      -- the first of the trivia counts for all the lines, the others for none
      have hmoved : Padded { p with shift := p.shift + lines } us
          (us.map (Token.shift bytes lines)) := by
        have hfits := h.shift (p.shift + lines)
        have hpadded := padded_shift hfits bytes
        rwa [hshift, Nat.zero_add] at hpadded ⊢
      exact .pad lines hspot (hpad u (by simp)) (hmoved.pads hspot fun v hv => hpad v (by simp [hv]))
  | cons t ts ih =>
    exact .keep ⟨h.1, rfl, by rw [hshift]; rfl, by rw [hshift]; rfl⟩ (ih h.2 hshift hspot)

/-! ## The whole source -/

/-- Behind whole lines outside of choice texts a line begins, and the end of a replica that moves back
does not change that. -/
theorem spot_wholeLines {cs : List Char} (h : WholeLines cs)
    (hm : (Lexer.walk {} cs).2.mode ≠ .choiceText) {front : List Piece}
    (hf : front = [] ∨ front = [.mark .replicaEnd] ∧ (Lexer.walk {} cs).2.mode = .replica) :
    ((Piece.settle ((Lexer.walk {} cs).1 ++ front)).flatMap Piece.kinds).foldl Spot.next .lineStart =
      .lineStart := by
  rcases h with rfl | h
  · -- at the very beginning no replica is open
    rw [Lexer.walk] at hf ⊢
    rcases hf with rfl | ⟨-, hr⟩
    · rfl
    · cases hr
  · obtain ⟨pieces, ending, hlast⟩ := Lexer.exists_lineEnd_walk {} h
    have hopen : Piece.openText false (Piece.settle ((Lexer.walk {} cs).1 ++ front)) = some false := by
      rw [Piece.openText_settle, Piece.openText_append, openText_walk hm]
      rcases hf with rfl | ⟨rfl, -⟩ <;> rfl
    have hsettle : Piece.settle ((Lexer.walk {} cs).1 ++ front) =
        Piece.settle (pieces ++ front) ++ [.token .newline ending] := by
      have hsettled : Piece.settle front = front ++ [] := by
        rcases hf with rfl | ⟨rfl, -⟩ <;> rfl
      rw [hlast, List.append_assoc]
      refine Piece.settle_padding ?_ ?_ hsettled (hf.imp_right And.left) pieces
      · intro piece hpiece
        rw [List.mem_singleton.1 hpiece]
        rfl
      · simp
    have hspot := @Spot.inText_foldl .lineStart _ _ hopen
    rw [hsettle, List.flatMap_append, List.foldl_append] at hspot ⊢
    exact Spot.next_newline (of_decide_eq_false hspot)

section
variable {before line : String} (after : String) (hlines : WholeLines before.toList)
  (hcomment : (Lexer.walk {} before.toList).2.inComment = false)
  (hmode : (Lexer.walk {} before.toList).2.mode ≠ .choiceText) (hline : BlankLine line.toList)
include hlines hcomment hmode hline

/-- A line without content puts trivia in at a start of a line and moves what follows. -/
theorem tokenize_blankLine :
    ∃ ts pad us, tokenize (before ++ after) = ts ++ us ∧
      tokenize (before ++ line ++ after) = ts ++ (pad ++ us.map
        (Token.shift (String.utf8Len line.toList) (line.toList.count '\n'))) ∧
      (ts.map Token.kind).foldl Spot.next .lineStart = .lineStart ∧ pad ≠ [] ∧
      ∀ u ∈ pad, u.isTrivia = true := by
  have hfresh : (Lexer.walk {} before.toList).2.Fresh := Lexer.fresh_walk ⟨rfl, rfl⟩ hlines
  obtain ⟨pad, ⟨hpad, hnewline, htext⟩, hrun⟩ :=
    Lexer.run_blankLine hfresh hcomment hmode hline after.toList
  obtain ⟨front, tail, hsettle, hfront, htail⟩ :=
    Lexer.settle_run (Lexer.walk {} before.toList).2 after.toList
  have hmark := hfront.imp_right And.left
  have hstop : Piece.texts (Piece.settle ((Lexer.walk {} before.toList).1 ++ front)) =
      before.toList := by
    refine Lexer.texts_settle_walk {} _ ?_
    rcases hmark with rfl | rfl <;> rfl
  have hcolumn : (Position.origin.advance before.toList).column = 1 := by
    rw [Position.advance_wholeLines hlines rfl]
    rfl
  refine ⟨Piece.place Position.origin (Piece.settle ((Lexer.walk {} before.toList).1 ++ front)),
    Piece.place (Position.origin.advance before.toList) pad,
    Piece.place (Position.origin.advance before.toList) tail, ?_, ?_, ?_, ?_, ?_⟩
  · -- the source as it is, with no padding put in
    have hpieces : Piece.settle ((Lexer.walk {} before.toList).1 ++
        Lexer.run (Lexer.walk {} before.toList).2 after.toList) = _ :=
      @Piece.settle_padding [] tail nofun htail _ front hsettle hmark (Lexer.walk {} before.toList).1
    rw [tokenize_append hlines, hpieces, Piece.place_append, hstop, List.nil_append]
  · rw [String.append_assoc, tokenize_append hlines, String.toList_append, hrun,
      Piece.settle_padding hpad htail hsettle hmark, Piece.place_append, Piece.place_append, hstop,
      htext, Position.advance_wholeLines hline.wholeLines hcolumn, Piece.place_shift]
  · rw [Piece.kinds_place]
    exact spot_wholeLines hlines hmode hfront
  · rw [← Piece.kinds_place (Position.origin.advance before.toList)] at hnewline
    exact fun hnil => by simp [hnil] at hnewline
  · intro u hu
    obtain ⟨piece, hpiece, q, hq⟩ := Piece.exists_of_mem_place hu
    exact Piece.isTrivia_of_isPadding (hpad piece hpiece) hq

/-- With a line without content put in, a source has its tokens padded. -/
theorem padded_tokenize :
    Padded ⟨.lineStart, 0, 0⟩ (tokenize (before ++ after)) (tokenize (before ++ line ++ after)) := by
  obtain ⟨ts, pad, us, hold, hnew, hspot, hne, hpad⟩ :=
    tokenize_blankLine after hlines hcomment hmode hline
  have hfits := fitsAll_tokenize (before ++ after)
  rw [hold] at hfits
  rw [hold, hnew]
  refine padded_insert hfits rfl ?_ hne hpad _ _
  rwa [Place.spot_foldl]

end

end StoryScript

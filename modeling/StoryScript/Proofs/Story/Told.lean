import StoryScript.Proofs.Story.Errors
import StoryScript.Proofs.Story.Nesting
import StoryScript.Proofs.Token.Clauses
/-!
# Nothing that is told gets lost

When the check of a source says nothing, all that its tokens tell is in the story: in a statement,
in a tag, or in the header of a section (`shows_of_no_issues`). A clause is never cut by the end of
a body or of a window, and so it comes whole to the item that begins at it. The one exception is
text between bounds that no choice stands before (`strayTexts`): it is skipped, and nothing is said
about it.
-/

namespace StoryScript

open Token (Kind)

/-! ## Runs of tokens -/

section
variable {α : Type} {l as bs : List α} {x : α}

theorem prefix_of_not_mem (hx : x ∉ l) (h : l <+: as ++ x :: bs) : l <+: as := by
  rcases List.prefix_or_prefix_of_prefix h (List.prefix_append as (x :: bs)) with h' | ⟨more, rfl⟩
  · exact h'
  · -- nothing more than `as`, as the next element would be `x`
    cases more with
    | nil => simp
    | cons y more =>
      obtain ⟨rfl, -⟩ := List.cons_prefix_cons.1 ((List.prefix_append_right_inj as).1 h)
      exact absurd (by simp) hx

/-- A run lies on one side of an element it does not hold. -/
theorem infix_of_not_mem (hx : x ∉ l) (h : l <:+: as ++ x :: bs) : l <:+: as ∨ l <:+: bs := by
  induction as with
  | nil =>
    rcases List.infix_cons_iff.1 h with h | h
    · exact .inl (prefix_of_not_mem hx h).isInfix
    · exact .inr h
  | cons a as ih =>
    rcases List.infix_cons_iff.1 h with h | h
    · exact .inl (prefix_of_not_mem hx (h : l <+: (a :: as) ++ x :: bs)).isInfix
    · exact (ih h).imp_left List.infix_cons

end

section
variable {o : Token} {mid : List Token} (ho : o.kind.isOpening)
  (hm : ∀ u ∈ mid, u.kind.cuts = false)
include ho

theorem infix_of_not_opening {taken rest : List Token}
    (ht : ∀ t ∈ taken, t.kind.isOpening = false) (h : o :: mid <:+: taken ++ rest) :
    o :: mid <:+: rest := by
  induction taken with
  | nil => exact h
  | cons t taken ih =>
    rcases List.infix_cons_iff.1 h with h | h
    · obtain ⟨rfl, -⟩ := List.cons_prefix_cons.1 h
      rw [ht o (by simp)] at ho
      cases ho
    · exact ih (fun u hu => ht u (by simp [hu])) h

include hm

theorem cuts_eq_false : ∀ u ∈ o :: mid, u.kind.cuts = false := by
  refine List.forall_mem_cons.2 ⟨?_, hm⟩
  cases hk : o.kind <;> simp_all [Kind.isOpening, Kind.cuts]

/-- A run that begins behind the first token of an item is in the body of the item or behind it. -/
theorem infix_of_takes {ts inside rest : List Token} (h : Takes ts inside rest)
    (hi : o :: mid <:+: ts) : o :: mid <:+: inside ∨ o :: mid <:+: rest := by
  obtain ⟨taken, closing, rfl, ht, hc⟩ := h
  rw [List.append_assoc, List.append_assoc] at hi
  have hi := infix_of_not_opening ho ht hi
  rcases hc with ⟨rfl, rfl | rfl⟩ | ⟨span, rfl⟩
  · exact .inr hi
  · rw [List.nil_append, List.append_nil] at hi
    exact .inl hi
  · refine infix_of_not_mem (fun hmem => ?_) hi
    cases cuts_eq_false ho hm _ hmem

end

/-! ## Windows -/

section
variable {us ts : List Token} (hu : ∀ u ∈ us, u.kind ≠ .header)
include hu

theorem prefix_windows (h : us <+: ts) : us <+: (windows ts).1 := by
  induction us generalizing ts with
  | nil => exact List.nil_prefix
  | cons u us ih =>
    obtain ⟨rest, rfl⟩ := h
    rw [List.cons_append, windows, if_neg (hu u (by simp)), List.cons_prefix_cons]
    exact ⟨rfl, ih (fun v hv => hu v (by simp [hv])) (List.prefix_append us rest)⟩

/-- A run without headers is in one window. -/
theorem infix_windows (h : us <:+: ts) :
    us <:+: (windows ts).1 ∨ ∃ w ∈ (windows ts).2, us <:+: w.2 := by
  induction ts with
  | nil => exact .inl h
  | cons t ts ih =>
    rcases List.infix_cons_iff.1 h with h | h
    · exact .inl (prefix_windows hu h).isInfix
    · rw [windows]
      split
      · rcases ih h with h | ⟨w, hw, h⟩
        · exact .inr ⟨_, List.mem_cons_self, h⟩
        · exact .inr ⟨w, List.mem_cons_of_mem _ hw, h⟩
      · exact (ih h).imp_left List.infix_cons

end

/-- A name behind a header is in the window of the header. -/
theorem window_of_infix {header name : Token} {ts : List Token} (hh : header.kind = .header)
    (hn : name.kind ≠ .header) (h : [header, name] <:+: ts) :
    ∃ inside, (header, name :: inside) ∈ (windows ts).2 := by
  induction ts with
  | nil => cases List.eq_nil_of_infix_nil h
  | cons t ts ih =>
    rw [windows]
    rcases List.infix_cons_iff.1 h with h | h
    · obtain ⟨rfl, rest, rfl⟩ := List.cons_prefix_cons.1 h
      rw [if_pos hh, List.singleton_append, windows, if_neg hn]
      exact ⟨_, List.mem_cons_self⟩
    · obtain ⟨inside, hw⟩ := ih h
      refine ⟨inside, ?_⟩
      split
      · exact List.mem_cons_of_mem _ hw
      · exact hw

theorem exists_of_beginsWithName {ts : List Token} (h : beginsWithName ts) :
    ∃ name span inside, ts = ⟨.identifier name, span⟩ :: inside := by
  unfold beginsWithName at h
  split at h
  · exact ⟨_, _, _, rfl⟩
  · cases h

/-- Without errors, every header has its name. -/
theorem named_windows {tokens : List Token} (h : Harmless (parse tokens).diagnostics) :
    ∀ w ∈ (windows (beforeEnd tokens)).2, beginsWithName w.2 := by
  rw [diagnostics_parse, harmless_append, harmless_parseWindows] at h
  exact fun w hw => (h.2 w hw).1

/-- A window with a name is read into a section. -/
theorem section_of_window {tags : List Tag} {ws : List (Token × List Token)} {header : Token}
    {name : String} {span : Span} {inside : List Token}
    (h : (header, ⟨.identifier name, span⟩ :: inside) ∈ ws) :
    ∃ s ∈ (parseWindows tags ws).1, s.name = name ∧
      s.statements = (parseBlock [] [] inside).statements ∧
      s.span = (Token.extent (header :: ⟨.identifier name, span⟩ :: inside)).getD header.span := by
  induction tags, ws using parseWindows.induct with
  | case1 tags => cases h
  | case2 tags header' name' span' inside' rest block ih =>
    rw [parseWindows]
    rcases List.mem_cons.1 h with h | h
    · obtain ⟨rfl, ⟨rfl, rfl⟩, rfl⟩ : header = header' ∧ (name = name' ∧ span = span') ∧
          inside = inside' := by simpa using h
      exact ⟨_, List.mem_cons_self, rfl, rfl, rfl⟩
    · obtain ⟨s, hs, hrest⟩ := ih h
      exact ⟨s, List.mem_cons_of_mem _ hs, hrest⟩
  | case3 tags header' ts rest hname ih =>
    rw [parseWindows]
    · rcases List.mem_cons.1 h with h | h
      · obtain ⟨-, rfl⟩ := Prod.mk.inj h
        exact absurd rfl (hname name span inside)
      · exact ih h
    · exact hname

/-! ## Statements -/

/-- One span in another. -/
def Span.Covers (outer inner : Span) : Prop := outer.start ≤ inner.start ∧ inner.stop ≤ outer.stop

instance Span.decidableCovers (outer inner : Span) : Decidable (outer.Covers inner) :=
  inferInstanceAs (Decidable (_ ∧ _))

theorem Token.isSolid_of_tells {t : Token} (h : t.kind.tells) : t.isSolid := by
  unfold Token.isSolid
  cases hk : t.kind <;> simp_all [Kind.tells, Kind.isTrivia, Kind.isLevel]

/-- What is told behind a token starts behind it. -/
theorem Token.InOrder.start_le {o : Token} {ts : List Token} (ho : Token.InOrder (o :: ts))
    {u : Token} (hu : u ∈ o :: ts) (hk : u.kind.tells) : o.span.start ≤ u.span.start := by
  rcases List.mem_cons.1 hu with rfl | hu
  · exact le_refl _
  · have hafter := (List.pairwise_cons.1 ho.pairwise).1 u hu
    refine le_trans (ho.proper o (by simp)) (hafter.start ?_ ?_)
    · cases hku : u.kind <;> simp_all [Kind.tells, Kind.isLevel]
    · cases hku : u.kind <;> simp_all [Kind.tells, Kind.isError]

theorem Token.InOrder.stop_le_spanTo {o : Token} {ts : List Token} (ho : Token.InOrder (o :: ts))
    {u : Token} (hu : u ∈ o :: ts) : u.span.stop ≤ (o.spanTo ts).stop := by
  have hlast : (o.spanTo ts).stop = ((o :: ts).getLast (List.cons_ne_nil o ts)).span.stop := by
    rcases List.eq_nil_or_concat ts with rfl | ⟨init, last, rfl⟩
    · rfl
    · simp [Token.spanTo, Span.through]
  rw [hlast]
  exact ho.stop_le_getLast _ hu

/-- Wherever these tokens are read, a statement begins at the first and covers what they tell. -/
structure Stated (o : Token) (mid : List Token) : Prop where
  opening : o.kind.isOpening
  whole : ∀ u ∈ mid, u.kind.cuts = false
  read : ∀ ts, mid <+: ts → Token.InOrder (o :: ts) → ∀ tags choiceTags body,
    ∃ s, (readItem o ts).item.statement? tags choiceTags body = some s ∧
      ∀ u ∈ o :: mid, u.kind.tells → u.span.stop ≤ s.span.stop

theorem prefix_takeWhile {α : Type} {p : α → Bool} {as bs : List α} (h : as <+: bs)
    (hp : ∀ a ∈ as, p a) : as <+: bs.takeWhile p := by
  obtain ⟨rest, rfl⟩ := h
  rw [List.takeWhile_append_of_pos hp]
  exact List.prefix_append _ _

theorem stated_target {text name : String} {span span' : Span}
    (hb : Text.isBlankText name = false) :
    Stated ⟨.goto text, span⟩ [⟨.identifier name, span'⟩] := by
  refine ⟨rfl, by simp [Kind.cuts], ?_⟩
  rintro _ ⟨rest, rfl⟩ ho tags choiceTags body
  refine ⟨.goto ⟨Text.trimmed name, tags, span.through span'⟩, ?_, ?_⟩
  · simp [readItem, readTarget, hb, Item.statement?]
  · intro u hu _
    refine (ho.sublist ?_).stop_le_spanTo hu
    exact (List.sublist_append_left _ rest).cons_cons _

theorem stated_call {name : String} {span : Span} {args : List Token}
    (ha : ∀ u ∈ args, u.argument?.isSome) : Stated ⟨.call name, span⟩ args := by
  refine ⟨rfl, fun u hu => ?_, ?_⟩
  · have hu := ha u hu
    unfold Token.argument? at hu
    cases hk : u.kind <;> simp_all [Kind.cuts]
  · intro ts hm ho tags choiceTags body
    have hargs := prefix_takeWhile hm ha
    refine ⟨_, rfl, fun u hu _ => ?_⟩
    refine (ho.sublist ((List.takeWhile_sublist _).cons_cons _)).stop_le_spanTo ?_
    exact ((List.prefix_cons_inj _).2 hargs).subset hu

/-- A replica ends no sooner than its speeches. -/
theorem stop_le_readReplica {t : Token} {ts : List Token} (ho : Token.InOrder (t :: ts)) {u : Token}
    (hu : u ∈ t :: ts.takeWhile fun u => u.speech?.isSome || u.isTrivia) (hk : u.kind.tells) :
    u.span.stop ≤ (readReplica t ts).1.span.stop := by
  have hsplit := List.takeWhile_append_dropWhile (l := ts)
    (p := fun u : Token => u.speech?.isSome || u.isTrivia)
  have hall : ∀ v ∈ ts.takeWhile fun u => u.speech?.isSome || u.isTrivia,
      (v.speech?.isSome || v.isTrivia) = true := List.all_eq_true.1 List.all_takeWhile
  unfold readReplica
  dsimp only
  generalize ts.takeWhile (fun u => u.speech?.isSome || u.isTrivia) = inside at hu hsplit hall ⊢
  split
  · next span rest hr =>
    rw [← hsplit, hr, ← List.cons_append] at ho
    exact ((List.pairwise_append.1 ho.pairwise).2.2 u hu ⟨.replicaEnd, span⟩ (by simp)).stop
  · have hsub : (inside.filter (·.speech?.isSome)).Sublist ts :=
      List.filter_sublist.trans (hsplit ▸ List.sublist_append_left _ _)
    refine (ho.sublist (hsub.cons_cons t)).stop_le_spanTo ?_
    rcases List.mem_cons.1 hu with rfl | hu
    · exact List.mem_cons_self
    · refine List.mem_cons_of_mem _ (List.mem_filter.2 ⟨hu, ?_⟩)
      have hv := hall u hu
      unfold Token.isTrivia at hv
      cases hku : u.kind <;> simp_all [Kind.tells, Kind.isTrivia]

theorem stated_replica {span : Span} {inside : List Token}
    (hi : ∀ u ∈ inside, (u.speech?.isSome || u.isTrivia) = true) :
    Stated ⟨.replicaBegin, span⟩ inside := by
  refine ⟨rfl, fun u hu => ?_, ?_⟩
  · have hu := hi u hu
    unfold Token.speech? Token.isTrivia at hu
    cases hk : u.kind <;> simp_all [Kind.cuts, Kind.isTrivia]
  · intro ts hm ho tags choiceTags body
    have hinside := prefix_takeWhile hm hi
    refine ⟨_, rfl, fun u hu hk => ?_⟩
    exact stop_le_readReplica ho (((List.prefix_cons_inj _).2 hinside).subset hu) hk

/-- The text of a choice is told by the choice. -/
theorem stated_choice {span : Span} {mid : List Token} (hw : ∀ u ∈ mid, u.kind.cuts = false)
    (hm : ∀ ts, mid <+: ts → mid ⊆ (readChoiceText ts).taken) : Stated ⟨.choice, span⟩ mid := by
  refine ⟨rfl, hw, fun ts hp ho tags choiceTags body => ?_⟩
  obtain ⟨c, inside, hi⟩ : ∃ c inside, (readChoice ⟨.choice, span⟩ ts).item = .choice c inside :=
    ⟨_, _, rfl⟩
  have hread : (readItem ⟨.choice, span⟩ ts).item = .choice c inside := hi
  have hspans := spans_readChoice rfl ho hi
  have hstop : ∀ u ∈ ⟨.choice, span⟩ :: mid, u.kind.tells → u.span.stop ≤ c.span.stop := by
    intro u hu hk
    rcases List.mem_cons.1 hu with rfl | hu
    · cases hk
    · exact hspans.covers u (List.mem_append_left _ (hm ts hp hu)) (Token.isSolid_of_tells hk)
  rw [hread]
  cases inside with
  | none | some inside => exact ⟨_, rfl, hstop⟩

theorem stated_line {text : String} {span bound span' : Span} :
    Stated ⟨.choice, span⟩ [⟨.choiceBound true, bound⟩, ⟨.choiceText text, span'⟩] := by
  refine stated_choice (by simp [Kind.cuts]) ?_
  rintro _ ⟨rest, rfl⟩
  simp [readChoiceText, readInlineText]

theorem stated_block {span bound : Span} {runs : List Token} (hr : ∀ u ∈ runs, u.blockRun?.isSome) :
    Stated ⟨.choice, span⟩ (⟨.choiceBound false, bound⟩ :: runs) := by
  refine stated_choice (List.forall_mem_cons.2 ⟨rfl, fun u hu => ?_⟩) ?_
  · have hu := hr u hu
    unfold Token.blockRun? at hu
    cases hk : u.kind <;> simp_all [Kind.cuts, Kind.isTrivia]
  · rintro _ ⟨rest, rfl⟩
    have hruns := prefix_takeWhile (List.prefix_append runs rest) hr
    rw [List.cons_append, readChoiceText, readBlockText]
    dsimp only
    split
    · exact (((List.prefix_cons_inj _).2 hruns).trans (List.prefix_append _ _)).subset
    · exact ((List.prefix_cons_inj _).2 hruns).subset

/-! ## Blocks and stories -/

section
variable {o : Token} {mid : List Token} (h : Stated o mid)
include h

theorem Stated.kind_ne {k : Kind} (hk : k.cuts) : ∀ u ∈ o :: mid, u.kind ≠ k := by
  intro u hu he
  have hcuts := cuts_eq_false h.opening h.whole u hu
  rw [he, hk] at hcuts
  cases hcuts

theorem Stated.covers {ts : List Token} (hm : mid <+: ts) (ho : Token.InOrder (o :: ts))
    {tags choiceTags : List Tag} {body : List Statement} {s : Statement}
    (hs : (readItem o ts).item.statement? tags choiceTags body = some s) :
    ∀ u ∈ o :: mid, u.kind.tells → s.span.Covers u.span := by
  intro u hu hk
  obtain ⟨s', hs', hstop⟩ := h.read ts hm ho tags choiceTags body
  obtain rfl : s = s' := Option.some.inj (hs.symm.trans hs')
  obtain ⟨last, -, -, hspan⟩ := (spans_of_statement? ho hs).2.exists_last
  refine ⟨?_, hstop u hu hk⟩
  rw [hspan]
  exact ho.start_le (((List.prefix_cons_inj o).2 hm).subset hu) hk

/-- Where an item is no statement, the clause comes whole behind it. -/
theorem Stated.infix_rest {t : Token} {ts : List Token} (ho : Token.InOrder (t :: ts))
    (hi : o :: mid <:+: t :: ts) (hitem : (readItem t ts).item.statement? [] [] [] = none) :
    o :: mid <:+: (readItem t ts).rest := by
  have hinside : (readItem t ts).item.inside = [] := by
    cases hr : (readItem t ts).item with
    | choice c inside =>
      rw [hr] at hitem
      cases inside <;> cases hitem
    | _ => rfl
  rcases List.infix_cons_iff.1 hi with hp | hi
  · obtain ⟨rfl, hm⟩ := List.cons_prefix_cons.1 hp
    obtain ⟨s, hs, -⟩ := h.read ts hm ho [] [] []
    rw [hitem] at hs
    cases hs
  · rcases infix_of_takes h.opening h.whole (takes_readItem t ts) hi with hi | hi
    · rw [hinside] at hi
      cases List.eq_nil_of_infix_nil hi
    · exact hi

/-- Wherever the clause stands in tokens, a statement that is read from them covers it. -/
theorem Stated.exists_covers_parseBlock {tags choiceTags : List Tag} {ts : List Token}
    (ho : Token.InOrder ts) (hi : o :: mid <:+: ts) :
    ∃ s ∈ Statement.preorders (parseBlock tags choiceTags ts).statements,
      ∀ u ∈ o :: mid, u.kind.tells → s.span.Covers u.span := by
  have hrest : ∀ {t : Token} {ts : List Token}, Token.InOrder (t :: ts) →
      Token.InOrder (readItem t ts).rest :=
    fun {t ts} ho => ho.sublist ((sublist_readItem t ts).2.cons t)
  -- at each item the clause begins there, or is whole in its body, or is whole behind it
  refine parseBlock_induction (motive := fun _ _ ts block => Token.InOrder ts →
    o :: mid <:+: ts → ∃ s ∈ Statement.preorders block.statements,
      ∀ u ∈ o :: mid, u.kind.tells → s.span.Covers u.span)
    ?nil ?tag ?choiceTag ?skipped ?statement tags choiceTags ts ho hi
  case nil =>
    intro _ _ _ hi
    cases List.eq_nil_of_infix_nil hi
  case tag =>
    intro _ _ t ts tag block hitem ih ho hi
    exact ih (hrest ho) (h.infix_rest ho hi (by rw [hitem]; rfl))
  case choiceTag =>
    intro _ _ t ts tag block hitem ih ho hi
    exact ih (hrest ho) (h.infix_rest ho hi (by rw [hitem]; rfl))
  case skipped =>
    intro _ _ t ts block hitem ih ho hi
    exact ih (hrest ho) (h.infix_rest ho hi (by rw [hitem]; rfl))
  case statement =>
    intro tags choiceTags t ts s body block hb hs ihbody ih ho hi
    subst hb
    rw [Block.push, Statement.preorders, preorder_of_statement? hs]
    rcases List.infix_cons_iff.1 hi with hp | hi
    · obtain ⟨rfl, hm⟩ := List.cons_prefix_cons.1 hp
      exact ⟨s, by simp, h.covers hm ho hs⟩
    · rcases infix_of_takes h.opening h.whole (takes_readItem t ts) hi with hi | hi
      · obtain ⟨s', hs', hcovers⟩ := ihbody (ho.sublist ((sublist_readItem t ts).1.cons t)) hi
        exact ⟨s', by simp [hs'], hcovers⟩
      · obtain ⟨s', hs', hcovers⟩ := ih (hrest ho) hi
        exact ⟨s', by simp [hs'], hcovers⟩

/-- The same for a story, when every header in it has a name. -/
theorem Stated.exists_covers_parse {tokens : List Token} (hd : Harmless (parse tokens).diagnostics)
    (ho : Token.InOrder tokens) (hi : o :: mid <:+: beforeEnd tokens) :
    ∃ s ∈ (parse tokens).story.preorder, ∀ u ∈ o :: mid, u.kind.tells → s.span.Covers u.span := by
  have hend := ho.sublist (List.takeWhile_sublist _ : (beforeEnd tokens).Sublist tokens)
  obtain ⟨hbefore, hws⟩ := sublist_windows (beforeEnd tokens)
  rw [Story.preorder,
    flatMap_sections_parse Section.preorder Statement.preorders (fun _ _ => rfl) rfl tokens]
  rcases infix_windows (h.kind_ne rfl) hi with hi | ⟨w, hw, hi⟩
  · obtain ⟨s, hs, hcovers⟩ := h.exists_covers_parseBlock (hend.sublist hbefore) hi
    exact ⟨s, List.mem_append_left _ hs, hcovers⟩
  · obtain ⟨name, span, inside, hname⟩ := exists_of_beginsWithName (named_windows hd w hw)
    obtain ⟨header, inside', rfl⟩ : ∃ header inside', w = (header, inside') := ⟨_, _, rfl⟩
    obtain rfl : inside' = _ := hname
    have hi : o :: mid <:+: [⟨.identifier name, span⟩] ++ inside := hi
    have hi := infix_of_not_opening h.opening (by simp [Kind.isOpening]) hi
    have hsub : inside.Sublist (beforeEnd tokens) := (List.sublist_cons_self _ _).trans (hws _ hw)
    obtain ⟨s, hs, hcovers⟩ := h.exists_covers_parseBlock (hend.sublist hsub) hi
    obtain ⟨sec, hsec, -, hstatements, -⟩ := section_of_window hw
    refine ⟨s, List.mem_append_right _ (List.mem_flatMap.2 ⟨sec, hsec, ?_⟩), hcovers⟩
    rw [Section.preorder, hstatements]
    exact hs

end

/-! ## Tags -/

theorem Woven.eq_of_nil {α : Type} {as cs : List α} (h : Woven as [] cs) : as = cs := by
  generalize hb : ([] : List α) = bs at h
  induction h with
  | nil => rfl
  | left _ ih => rw [ih hb]
  | right => cases hb

/-- Where every header has its name, all tokens before the end are read. -/
theorem exists_heard {tokens mid : List Token} {o : Token} (h : NamesFollow (· == .header) tokens)
    (hi : o :: mid <:+: beforeEnd tokens) :
    ∃ after, mid <+: after ∧ o :: after <:+ tokens ∧ (o, after) ∈ heard false tokens := by
  induction tokens with
  | nil => cases List.eq_nil_of_infix_nil hi
  | cons t ts ih =>
    by_cases he : t.kind = .eof
    · simp [beforeEnd, he] at hi
    · obtain ⟨hname, hnames⟩ := namesFollow_cons.1 h
      have hmuted : (if t.kind = .header then !beginsWithName ts else false) = false := by
        split
        · next hk => simp [hname (by simp [hk])]
        · rfl
      have hb : beforeEnd (t :: ts) = t :: beforeEnd ts := by simp [beforeEnd, he]
      rw [hb] at hi
      rw [heard, if_neg he, hmuted]
      rcases List.infix_cons_iff.1 hi with hp | hi
      · obtain ⟨rfl, hm⟩ := List.cons_prefix_cons.1 hp
        exact ⟨ts, hm.trans (List.takeWhile_prefix _), List.suffix_rfl, List.mem_cons_self⟩
      · obtain ⟨after, hm, hs, hmem⟩ := ih hnames hi
        exact ⟨after, hm, hs.trans (List.suffix_cons t ts), List.mem_append_right _ hmem⟩

/-- When nothing is said about tags, every tag that is read is in the story. -/
theorem mem_allTags {tokens : List Token} (hd : (parse tokens).diagnostics = []) {t : Token}
    {after : List Token} (ht : (t, after) ∈ heard false tokens) :
    ∀ tag ∈ t.tagAt after ++ t.choiceTagAt after,
      tag ∈ (parse tokens).story.allTags ++ (parse tokens).story.allChoiceTags := by
  obtain ⟨loose, hw, hr⟩ := woven_tags_parse tokens
  obtain ⟨loose', hw', hr'⟩ := woven_choiceTags_parse tokens
  rw [hd] at hr hr'
  obtain rfl : loose = [] := List.map_eq_nil_iff.1 hr.symm
  obtain rfl : loose' = [] := List.map_eq_nil_iff.1 hr'.symm
  rw [hw.eq_of_nil, hw'.eq_of_nil]
  intro tag htag
  rcases List.mem_append.1 htag with htag | htag
  · exact List.mem_append_left _ (List.mem_flatMap.2 ⟨_, ht, htag⟩)
  · exact List.mem_append_right _ (List.mem_flatMap.2 ⟨_, ht, htag⟩)

theorem covers_tagNamed {t : Token} {ts : List Token} (ho : Token.InOrder (t :: ts))
    (name : String) : (t.tagNamed name ts).span.Covers t.span := by
  unfold Token.tagNamed
  split
  · exact ⟨le_refl _, ((List.pairwise_cons.1 ho.pairwise).1 _ List.mem_cons_self).stop⟩
  · exact ⟨le_refl _, le_refl _⟩

/-! ## Text without a choice -/

/-- The text between bounds that no choice stands right before. -/
def strayTexts (behindChoice : Bool) : List Token → List Token
  | [] => []
  | t :: ts =>
    (if t.kind = .choiceBound false ∧ behindChoice = false then
      ts.takeWhile (·.blockRun?.isSome) else []) ++ strayTexts (t.kind = .choice) ts

/-- Text between bounds is behind a choice or stray. -/
theorem choice_or_stray (behindChoice : Bool) {ts runs : List Token} {bound t : Token}
    (hb : bound.kind = .choiceBound false) (hr : ∀ u ∈ runs, u.blockRun?.isSome) (ht : t ∈ runs)
    (h : bound :: runs <:+: ts) :
    (∃ choice, choice.kind = .choice ∧ choice :: bound :: runs <:+: ts) ∨
      (behindChoice = true ∧ bound :: runs <+: ts) ∨ t ∈ strayTexts behindChoice ts := by
  induction ts generalizing behindChoice with
  | nil => cases List.eq_nil_of_infix_nil h
  | cons u ts ih =>
    rcases List.infix_cons_iff.1 h with h | h
    · cases behindChoice with
      | true => exact .inr (.inl ⟨rfl, h⟩)
      | false =>
        obtain ⟨rfl, hruns⟩ := List.cons_prefix_cons.1 h
        refine .inr (.inr (List.mem_append_left _ ?_))
        rw [if_pos ⟨hb, rfl⟩]
        exact (prefix_takeWhile hruns hr).subset ht
    · rcases ih (u.kind = .choice) h with ⟨choice, hk, hi⟩ | ⟨hk, hp⟩ | hstray
      · exact .inl ⟨choice, hk, List.infix_cons hi⟩
      · exact .inl ⟨u, of_decide_eq_true hk, ((List.prefix_cons_inj u).2 hp).isInfix⟩
      · exact .inr (.inr (List.mem_append_right _ hstray))

/-! ## What a story shows -/

/-- The header of a section at a token when `ts` follows, up to the name of the section. -/
def Story.headerAt (story : Story) (t : Token) (ts : List Token) : List Span :=
  match t.kind, ts with
  | .header, ⟨.identifier name, span⟩ :: _ =>
    if story.sections.any fun s => s.name = name ∧ s.span.start = t.span.start then
      [t.span.through span] else []
  | _, _ => []

/-- Where a story is seen in its tokens: at its statements, at the tags of these and of its
sections, and at the headers of its sections. -/
def Story.shown (story : Story) (tokens : List Token) : List Span :=
  story.preorder.map Statement.span ++ (story.allTags ++ story.allChoiceTags).map Tag.span ++
    collect story.headerAt tokens

/-- What a token tells is in the story. -/
def Story.Shows (story : Story) (tokens : List Token) (t : Token) : Prop :=
  ∃ span ∈ story.shown tokens, span.Covers t.span

instance (story : Story) (tokens : List Token) (t : Token) : Decidable (story.Shows tokens t) :=
  inferInstanceAs (Decidable (∃ span ∈ story.shown tokens, span.Covers t.span))

theorem mem_collect {α : Type} {f : Token → List Token → List α} {t : Token} {ts : List Token}
    {a : α} (h : a ∈ f t ts) (before : List Token) : a ∈ collect f (before ++ t :: ts) := by
  induction before with
  | nil => exact List.mem_append_left _ h
  | cons u before ih => exact List.mem_append_right _ ih

/-- The sections of the windows are in the story. -/
theorem mem_sections_parse {tokens : List Token} {s : Section}
    (h : s ∈ (parseWindows (parseBlock [] [] (windows (beforeEnd tokens)).1).dangling
      (windows (beforeEnd tokens)).2).1) : s ∈ (parse tokens).story.sections := by
  unfold parse
  rw [← beforeEnd]
  generalize windows (beforeEnd tokens) = w at h ⊢
  obtain ⟨before, rest⟩ := w
  dsimp only at h ⊢
  split
  · next hr =>
    rw [List.isEmpty_iff.1 hr] at h
    cases h
  · have hmem := List.mem_append_right
      (if before.any Token.isContent then [mainSection (parseBlock [] [] before).statements before]
        else []) h
    rw [if_neg (by simpa using List.ne_nil_of_mem hmem)]
    exact hmem

section
variable {source : String} {o t : Token} {mid : List Token}

theorem infix_beforeEnd (hm : ∀ u ∈ mid, u.kind ≠ .eof) (hi : mid <:+: tokenize source) :
    mid <:+: beforeEnd (tokenize source) := by
  obtain ⟨-, eof, heof, hk⟩ := aimed_tokenize source
  rw [heof] at hi
  rcases infix_of_not_mem (fun hmem => hm eof hmem hk) hi with hi | hi
  · exact hi
  · exact hi.trans List.nil_infix

/-- The header of a section is shown up to its name. -/
theorem shows_header {name : String} {span span' : Span}
    (hi : [⟨.header, span⟩, ⟨.identifier name, span'⟩] <:+: tokenize source) :
    (parseSource source).story.Shows (tokenize source) ⟨.identifier name, span'⟩ := by
  obtain ⟨inside, hw⟩ := window_of_infix rfl (by simp) (infix_beforeEnd (by simp) hi)
  obtain ⟨s, hs, hname, -, hspan⟩ := section_of_window hw
  have hstart : s.span.start = span.start := by
    rw [hspan]
    exact start_extent rfl _ _
  have hany : (parseSource source).story.sections.any
      fun s => s.name = name ∧ s.span.start = span.start :=
    List.any_eq_true.2 ⟨s, mem_sections_parse hs, decide_eq_true ⟨hname, hstart⟩⟩
  have ho := (inOrder_tokenize source).sublist hi.sublist
  obtain ⟨before, after, hsplit⟩ := hi
  have hat : span.through span' ∈ (parseSource source).story.headerAt ⟨.header, span⟩
      (⟨.identifier name, span'⟩ :: after) := by
    simp only [Story.headerAt, if_pos hany, List.mem_singleton]
  have hshown : span.through span' ∈
      collect (parseSource source).story.headerAt (tokenize source) := by
    rw [← hsplit, List.append_assoc]
    exact mem_collect hat before
  exact ⟨_, List.mem_append_right _ hshown, ho.start_le (by simp) rfl, le_refl _⟩

variable (h : (check source).issues = [])
include h

theorem diagnostics_parse_of_no_issues : (parse (tokenize source)).diagnostics = [] := by
  have hd : (check source).diagnostics = [] := List.map_eq_nil_iff.1 h
  exact (List.append_eq_nil_iff.1 (List.append_eq_nil_iff.1 hd).1).2

theorem wellFormed_of_no_issues : WellFormed source := by
  have hd : (check source).diagnostics = [] := List.map_eq_nil_iff.1 h
  rw [← harmless_check, hd]
  exact harmless_nil

theorem shows_of_stated (hs : Stated o mid) (hi : o :: mid <:+: tokenize source) (ht : t ∈ o :: mid)
    (hk : t.kind.tells) : (parseSource source).story.Shows (tokenize source) t := by
  have hd : Harmless (parse (tokenize source)).diagnostics := by
    rw [diagnostics_parse_of_no_issues h]
    exact harmless_nil
  obtain ⟨s, hmem, hcovers⟩ :=
    hs.exists_covers_parse hd (inOrder_tokenize source) (infix_beforeEnd (hs.kind_ne rfl) hi)
  refine ⟨s.span, ?_, hcovers t ht hk⟩
  exact List.mem_append_left _ (List.mem_append_left _ (List.mem_map.2 ⟨s, hmem, rfl⟩))

/-- A tag is shown together with its value. -/
theorem exists_tagNamed {kind : String → Kind} (hkind : kind = .tag ∨ kind = .choiceTag)
    {name : String} {span : Span} (hm : ∀ u ∈ mid, u.kind ≠ .eof)
    (hi : ⟨kind name, span⟩ :: mid <:+: tokenize source) :
    ∃ after, mid <+: after ∧ Token.InOrder (⟨kind name, span⟩ :: after) ∧
      (Token.tagNamed ⟨kind name, span⟩ name after).span ∈
        (parseSource source).story.shown (tokenize source) := by
  have hopen : kind name ≠ .eof := by rcases hkind with rfl | rfl <;> nofun
  obtain ⟨after, hafter, hsuffix, hheard⟩ := exists_heard (wellFormed_of_no_issues h).headers
    (infix_beforeEnd (List.forall_mem_cons.2 ⟨hopen, hm⟩) hi)
  refine ⟨after, hafter, (inOrder_tokenize source).sublist hsuffix.sublist, ?_⟩
  have htag := mem_allTags (diagnostics_parse_of_no_issues h) hheard
    (Token.tagNamed ⟨kind name, span⟩ name after) (by
      rcases hkind with rfl | rfl <;> simp [Token.tagAt, Token.choiceTagAt])
  exact List.mem_append_left _ (List.mem_append_right _ (List.mem_map.2 ⟨_, htag, rfl⟩))

/-- An arrow has its target behind it. -/
theorem exists_target {text : String} {span : Span}
    (hi : [⟨.goto text, span⟩] <:+: tokenize source) :
    ∃ name span', Text.isBlankText name = false ∧
      [⟨.goto text, span⟩, ⟨.identifier name, span'⟩] <:+: tokenize source := by
  obtain ⟨haimed, -⟩ := aimed_tokenize source
  obtain ⟨before, after, hsplit⟩ := hi
  rw [List.append_assoc, List.singleton_append] at hsplit
  have hname := (wellFormed_of_no_issues h).arrows before _ after hsplit.symm rfl
  have htarget := Aimed.isSome_targetName (hsplit ▸ haimed) rfl
  rw [hname] at htarget
  obtain ⟨name, span', rest, rfl⟩ := exists_of_beginsWithName hname
  refine ⟨name, span', ?_, before, rest, ?_⟩
  · by_contra hb
    rw [Bool.not_eq_false] at hb
    simp [targetName, hb] at htarget
  · rw [← hsplit]
    simp

end

/-- When the check of a source says nothing, the story shows all that its tokens tell, but for text
between bounds that no choice stands right before. -/
theorem shows_of_no_issues (source : String) (h : (check source).issues = []) (t : Token)
    (ht : t ∈ tokenize source) (hk : t.kind.tells) (hs : t ∉ strayTexts false (tokenize source)) :
    (parseSource source).story.Shows (tokenize source) t := by
  obtain ⟨o, mid, hclause, hi, hmem⟩ := inClause_of_mem_tokenize ht hk
  cases hclause with
  | tag hkind =>
    obtain ⟨after, -, ho, hshown⟩ := exists_tagNamed h hkind (by simp) hi
    rw [List.mem_singleton.1 hmem]
    exact ⟨_, hshown, covers_tagNamed ho _⟩
  | tagValue hkind =>
    obtain ⟨after, ⟨rest, rfl⟩, ho, hshown⟩ := exists_tagNamed h hkind (by simp) hi
    rcases List.mem_cons.1 hmem with rfl | hvalue
    · exact ⟨_, hshown, covers_tagNamed ho _⟩
    · obtain rfl := List.mem_singleton.1 hvalue
      exact ⟨_, hshown, ho.start_le (by simp) rfl, le_refl _⟩
  | call ha => exact shows_of_stated h (stated_call ha) hi hmem hk
  | header =>
    obtain rfl | rfl : t = _ ∨ t = _ := by simpa using hmem
    · cases hk
    · exact shows_header hi
  | arrow =>
    obtain ⟨name, span', hb, hi⟩ := exists_target h hi
    exact shows_of_stated h (stated_target hb) hi (by simp_all) hk
  | target hb => exact shows_of_stated h (stated_target hb) hi hmem hk
  | line => exact shows_of_stated h stated_line hi hmem hk
  | block hr =>
    have hrun : t ∈ _ := (List.mem_cons.1 hmem).resolve_left fun he => by
      rw [he] at hk
      cases hk
    rcases choice_or_stray false rfl hr hrun hi with ⟨⟨kind, span⟩, rfl, hi⟩ | ⟨hfalse, -⟩ | hstray
    · exact shows_of_stated h (stated_block hr) hi (List.mem_cons_of_mem _ hmem) hk
    · cases hfalse
    · exact absurd hstray hs
  | replica hinside => exact shows_of_stated h (stated_replica hinside) hi hmem hk

/-- Text between bounds behind a choice is shown by the choice. -/
theorem shows_choice_block :
    let source := "== a\n@t v\n@call:f(x)\n+ ```\nhello\n```\n  -> a\n"
    let text : Token := ⟨.choiceText "hello", ⟨⟨27, 5, 1⟩, ⟨32, 5, 6⟩⟩⟩
    (check source).issues = [] ∧ text ∈ tokenize source ∧
      text ∉ strayTexts false (tokenize source) ∧
      (parseSource source).story.Shows (tokenize source) text := by
  intro source text
  have hissues : (check source).issues = [] := by decide +kernel
  have hmem : text ∈ tokenize source := by decide +kernel
  have hstray : text ∉ strayTexts false (tokenize source) := by decide +kernel
  exact ⟨hissues, hmem, hstray, shows_of_no_issues source hissues text hmem rfl hstray⟩

/-- Without the choice, nothing is said about the text and it is not shown. -/
theorem not_shows_stray_block :
    let source := "-> main\n```\nhello\n```\n"
    let text : Token := ⟨.choiceText "hello", ⟨⟨12, 3, 1⟩, ⟨17, 3, 6⟩⟩⟩
    (check source).issues = [] ∧ text ∈ tokenize source ∧ text.kind.tells ∧
      ¬(parseSource source).story.Shows (tokenize source) text := by
  decide +kernel

end StoryScript

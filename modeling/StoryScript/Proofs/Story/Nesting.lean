import StoryScript.Check
import StoryScript.Proofs.Source.Order
import StoryScript.Proofs.Story.Tags
import StoryScript.Proofs.Token.Order
/-!
# How the parts of a story lie in its source

The tokens of a source stand one behind the other, and a statement reaches from the token it begins
at to one of the tokens it takes. So statements in a row do not overlap, the body of a choice lies in
the choice, sections hold their statements, and tags stand before what they belong to
(`nested_parseSource`).
-/

namespace StoryScript

open Token (Kind)

/-! ## Tokens in the order of the source -/

/-- How the place of an earlier token is to that of a later one. The later one begins where the
earlier one has ended, but for levels of one line and for the error of an argument list, which begins
before the arguments. -/
structure Token.EndsBefore (t u : Token) : Prop where
  stop : t.span.stop ≤ u.span.stop
  start : u.kind.isLevel = false → u.kind.isError = false → t.span.stop ≤ u.span.start

/-- Tokens in the order of a source. -/
structure Token.InOrder (ts : List Token) : Prop where
  proper : ∀ t ∈ ts, t.span.start ≤ t.span.stop
  pairwise : ts.Pairwise Token.EndsBefore

theorem Token.InOrder.sublist {ts us : List Token} (h : Token.InOrder us) (hs : ts.Sublist us) :
    Token.InOrder ts :=
  ⟨fun t ht => h.proper t (hs.subset ht), h.pairwise.sublist hs⟩

namespace Token.Lies

variable {p : Position} {cs : List Char} {t u : Token}

theorem proper (h : t.Lies p cs) : t.span.start ≤ t.span.stop := by
  obtain ⟨before, text, after, -, hspan, -⟩ := h
  rw [hspan]
  exact Position.le_advance _ text

/-- The ends of a token are places of the text. -/
theorem exists_prefix (h : t.Lies p cs) :
    (∃ as, as <+: cs ∧ t.span.start = p.advance as) ∧
      ∃ bs, bs <+: cs ∧ t.span.stop = p.advance bs := by
  obtain ⟨before, text, after, rfl, hspan, -⟩ := h
  refine ⟨⟨before, ?_, by rw [hspan]; rfl⟩, before ++ text, List.prefix_append _ _, ?_⟩
  · rw [List.append_assoc]
    exact List.prefix_append _ _
  · rw [hspan, Span.ofText, Position.advance_append]

theorem stop_le_start (ht : t.Lies p cs) (hu : u.Lies p cs)
    (h : t.span.stop.offset ≤ u.span.start.offset) : t.span.stop ≤ u.span.start := by
  obtain ⟨-, as, ha, hstop⟩ := ht.exists_prefix
  obtain ⟨⟨bs, hb, hstart⟩, -⟩ := hu.exists_prefix
  rw [hstop, hstart] at h ⊢
  exact Position.le_of_prefix ha hb h

theorem stop_le_stop (ht : t.Lies p cs) (hu : u.Lies p cs)
    (h : t.span.stop.offset ≤ u.span.stop.offset) : t.span.stop ≤ u.span.stop := by
  obtain ⟨-, as, ha, hstop⟩ := ht.exists_prefix
  obtain ⟨-, bs, hb, hstop'⟩ := hu.exists_prefix
  rw [hstop, hstop'] at h ⊢
  exact Position.le_of_prefix ha hb h

end Token.Lies

theorem inOrder_tokenize (source : String) : Token.InOrder (tokenize source) := by
  have hlies : ∀ t ∈ tokenize source, t.Lies Position.origin source.toList :=
    fun t ht => lies_of_mem_tokenize ht
  have hmem : ∀ piece ∈ Piece.settle (Lexer.run {} source.toList),
      piece ∈ Lexer.run {} source.toList := fun piece => (Piece.perm_settle _).mem_iff.1
  have hprecedes : (tokenize source).Pairwise Token.Precedes :=
    Piece.pairwise_precedes_place (fun q hq => Lexer.faithful_run _ _ q (hmem q hq))
      (fun q hq => Lexer.tidy_run _ _ q (hmem q hq)) _
  refine ⟨fun t ht => (hlies t ht).proper, hprecedes.imp_of_mem ?_⟩
  intro t u ht hu h
  rcases h with hbefore | ⟨hl, hk, hspan⟩ | ⟨-, he, hin⟩
  · have hstart := (hlies t ht).stop_le_start (hlies u hu) hbefore
    exact ⟨le_trans hstart (hlies u hu).proper, fun _ _ => hstart⟩
  · exact ⟨by rw [hspan], fun hn => by simp [hk, hl] at hn⟩
  · exact ⟨(hlies t ht).stop_le_stop (hlies u hu) hin.2, fun _ hn => by simp [he] at hn⟩

/-! ## Extents -/

/-- The kinds that something in a story begins with. -/
def Token.Kind.begins (k : Kind) : Bool := k.isOpening || k == .header

theorem Token.EndsBefore.stop_le_start {t u : Token} (h : t.EndsBefore u) (hk : u.kind.begins) :
    t.span.stop ≤ u.span.start := by
  refine h.start ?_ ?_
  · cases hu : u.kind <;> simp_all [Kind.begins, Kind.isOpening, Kind.isLevel]
  · cases hu : u.kind <;> simp_all [Kind.begins, Kind.isOpening, Kind.isError]

theorem Token.isSolid_of_begins {t : Token} (h : t.kind.begins) : t.isSolid := by
  unfold Token.isSolid
  cases hk : t.kind <;> simp_all [Kind.begins, Kind.isOpening, Kind.isTrivia, Kind.isLevel]

/-- Tokens in order end no later than the last of them. -/
theorem Token.InOrder.stop_le_getLast {ts : List Token} (ho : Token.InOrder ts) (hne : ts ≠ [])
    {u : Token} (hu : u ∈ ts) : u.span.stop ≤ (ts.getLast hne).span.stop := by
  have hpair := ho.pairwise
  rw [← List.dropLast_append_getLast hne] at hu hpair
  rcases List.mem_append.1 hu with hu | hu
  · exact ((List.pairwise_append.1 hpair).2.2 u hu _ (List.mem_singleton_self _)).stop
  · rw [List.mem_singleton.1 hu]

/-- The extent of tokens starts no later than anything that begins among them, and ends no sooner than
any solid one. -/
theorem extent_eq {ts : List Token} (ho : Token.InOrder ts) {t : Token} (ht : t ∈ ts)
    (hs : t.isSolid) :
    ∃ first ∈ ts, ∃ last ∈ ts, last.isSolid ∧
      Token.extent ts = some (first.span.through last.span) ∧
      first.span.start ≤ last.span.stop ∧
      (∀ u ∈ ts, u.kind.begins → first.span.start ≤ u.span.start) ∧
      ∀ u ∈ ts, u.isSolid → u.span.stop ≤ last.span.stop := by
  have hmem : ∀ u, u ∈ ts.filter Token.isSolid ↔ u ∈ ts ∧ u.isSolid := fun u => List.mem_filter
  have hfilter := ho.sublist (List.filter_sublist (p := Token.isSolid))
  unfold Token.extent
  cases hf : ts.filter Token.isSolid with
  | nil => exact absurd ((hmem t).2 ⟨ht, hs⟩) (by simp [hf])
  | cons first others =>
    rw [hf] at hmem hfilter
    have hlast := List.getLast_mem (List.cons_ne_nil first others)
    have hstop : ∀ u ∈ first :: others,
        u.span.stop ≤ ((first :: others).getLast (List.cons_ne_nil _ _)).span.stop :=
      fun u hu => hfilter.stop_le_getLast _ hu
    have hfirst := hfilter.proper first (by simp)
    refine ⟨first, ((hmem first).1 (by simp)).1, _, ((hmem _).1 hlast).1, ((hmem _).1 hlast).2, rfl,
      le_trans hfirst (hstop first (by simp)), ?_, fun u hu hus => hstop u ((hmem u).2 ⟨hu, hus⟩)⟩
    intro u hu hk
    rcases List.mem_cons.1 ((hmem u).2 ⟨hu, Token.isSolid_of_begins hk⟩) with rfl | hu
    · exact le_refl _
    · exact le_trans hfirst (((List.pairwise_cons.1 hfilter.pairwise).1 u hu).stop_le_start hk)

/-! ## Items -/

/-- Where an item with a body lies: it reaches from the token it begins at to one of the tokens it
takes, and ends no sooner than its body. -/
structure Spans (t : Token) (ts inside rest : List Token) (span : Span) : Prop where
  reaches : ∃ taken last, ts = taken ++ rest ∧ inside.Sublist taken ∧ last ∈ t :: taken ∧
    last.isSolid ∧ span = t.span.through last.span
  covers : ∀ u ∈ inside, u.isSolid → u.span.stop ≤ span.stop

theorem Spans.sublist {t : Token} {ts us inside rest : List Token} {span : Span}
    (h : Spans t ts inside rest span) (hs : us.Sublist inside) : Spans t ts us rest span := by
  obtain ⟨⟨taken, last, hts, hin, hlast⟩, hcovers⟩ := h
  exact ⟨⟨taken, last, hts, hs.trans hin, hlast⟩, fun u hu => hcovers u (hs.subset hu)⟩

/-- An item without a body, up to the last of its solid tokens. -/
theorem spans_of_append {t : Token} {ts taken rest : List Token} (h : ts = taken ++ rest)
    (last : Token) (hl : last ∈ t :: taken) (hs : last.isSolid) :
    Spans t ts [] rest (t.span.through last.span) :=
  ⟨⟨taken, last, h, List.nil_sublist _, hl, hs, rfl⟩, nofun⟩

theorem exists_spanTo (t : Token) (ts : List Token) :
    ∃ last ∈ t :: ts, t.spanTo ts = t.span.through last.span ∧ (last = t ∨ last ∈ ts) := by
  unfold Token.spanTo
  cases h : ts.getLast? with
  | none => exact ⟨t, by simp, rfl, .inl rfl⟩
  | some last =>
    have hmem : last ∈ ts := List.mem_of_getLast? h
    exact ⟨last, by simp [hmem], rfl, .inr hmem⟩

theorem spans_readTarget {t : Token} {ts rest : List Token} {target : String} {span : Span}
    (h : readTarget ts = some (target, span, rest)) : Spans t ts [] rest (t.span.through span) := by
  unfold readTarget at h
  split at h
  · next name span' rest' =>
    split at h
    · cases h
    · obtain ⟨-, rfl, rfl⟩ := by simpa using h
      have happ : ⟨.identifier name, span'⟩ :: rest' = [⟨.identifier name, span'⟩] ++ rest' := rfl
      exact spans_of_append happ ⟨.identifier name, span'⟩ (by simp) rfl
  · cases h

theorem isSolid_of_argument {t : Token} (h : t.argument?.isSome) : t.isSolid := by
  unfold Token.argument? at h
  unfold Token.isSolid
  cases hk : t.kind <;> simp_all [Kind.isTrivia, Kind.isLevel]

theorem isSolid_of_speech {t : Token} (h : t.speech?.isSome) : t.isSolid := by
  unfold Token.speech? at h
  unfold Token.isSolid
  cases hk : t.kind <;> simp_all [Kind.isTrivia, Kind.isLevel]

theorem spans_readCall {t : Token} (ht : t.isSolid) (name : String) (ts : List Token) :
    Spans t ts [] (readCall t name ts).2.2 (readCall t name ts).1.span := by
  obtain ⟨last, hmem, hspan, hlast⟩ := exists_spanTo t (ts.takeWhile (·.argument?.isSome))
  have hs : last.isSolid := by
    rcases hlast with rfl | hlast
    · exact ht
    · exact isSolid_of_argument (List.all_eq_true.1 List.all_takeWhile last hlast)
  unfold readCall
  dsimp only
  rw [hspan]
  exact spans_of_append List.takeWhile_append_dropWhile.symm last hmem hs

theorem spans_readReplica {t : Token} (ht : t.isSolid) (ts : List Token) :
    Spans t ts [] (readReplica t ts).2.2 (readReplica t ts).1.span := by
  have hsplit := List.takeWhile_append_dropWhile (l := ts)
    (p := fun u : Token => u.speech?.isSome || u.isTrivia)
  unfold readReplica
  dsimp only
  generalize ts.takeWhile (fun u => u.speech?.isSome || u.isTrivia) = inside at hsplit ⊢
  split
  · next span rest hr =>
    rw [hr, List.append_cons] at hsplit
    exact spans_of_append hsplit.symm ⟨.replicaEnd, span⟩ (by simp) rfl
  · obtain ⟨last, -, hspan, hlast⟩ := exists_spanTo t (inside.filter (·.speech?.isSome))
    rw [hspan]
    rcases hlast with rfl | hlast
    · exact spans_of_append hsplit.symm last (by simp) ht
    · obtain ⟨hmem, hs⟩ := List.mem_filter.1 hlast
      exact spans_of_append hsplit.symm last (by simp [hmem]) (isSolid_of_speech hs)

/-- The extent of an item that takes its tokens from `ts`. -/
theorem spans_extent {t : Token} {ts us inside taken rest : List Token} (ht : t.kind.begins)
    (ho : Token.InOrder (t :: ts)) (hts : ts = taken ++ rest) (hus : us.Sublist taken)
    (hin : inside.Sublist us) :
    Spans t ts inside rest ((Token.extent (t :: us)).getD t.span) := by
  have hs := Token.isSolid_of_begins ht
  have hsub : (t :: us).Sublist (t :: ts) :=
    (hts ▸ hus.trans (List.sublist_append_left taken rest)).cons_cons t
  have hstart := start_extent hs us t.span
  obtain ⟨first, -, last, hlast, hsolid, hextent, -, -, hstop⟩ :=
    extent_eq (ho.sublist hsub) (by simp : t ∈ t :: us) hs
  rw [hextent, Option.getD_some] at hstart ⊢
  refine ⟨⟨taken, last, hts, hin.trans hus, (hus.cons_cons t).subset hlast, hsolid, ?_⟩, ?_⟩
  · rw [Span.through, Span.through, ← hstart]
    rfl
  · intro u hu
    exact hstop u (List.mem_cons_of_mem t (hin.subset hu))

/-- A choice ends no sooner than its text and its body. -/
theorem spans_readChoice {t : Token} {ts : List Token} (ht : t.kind.begins)
    (ho : Token.InOrder (t :: ts)) {c : Choice} {body : Option (List Token)}
    (h : (readChoice t ts).item = .choice c body) :
    Spans t ts ((readChoiceText ts).taken ++ body.getD []) (readChoice t ts).rest c.span := by
  obtain ⟨happ, -⟩ := reads_readChoiceText ts
  unfold readChoice at h ⊢
  dsimp only at h ⊢
  obtain ⟨rfl, rfl⟩ := Item.choice.inj h
  cases hb : readIndented (readChoiceText ts).rest with
  | none =>
    simp only [Option.map_none, Option.getD_none, List.append_nil]
    exact spans_extent ht ho happ (List.Sublist.refl _) (List.Sublist.refl _)
  | some r =>
    obtain ⟨inside, rest⟩ := r
    obtain ⟨more, closing, hmore, -, -⟩ := takes_readIndented hb
    have hts : ts = (readChoiceText ts).taken ++ (more ++ inside ++ closing) ++ rest := by
      rw [List.append_assoc, ← hmore, ← happ]
    have hin : inside.Sublist (more ++ inside ++ closing) :=
      (List.sublist_append_right more inside).trans (List.sublist_append_left _ closing)
    exact spans_extent ht ho hts (hin.append_left _) (List.Sublist.refl _)

/-- A statement begins at the first token of its item. -/
theorem spans_of_statement? {t : Token} {ts : List Token} (ho : Token.InOrder (t :: ts))
    {tags choiceTags : List Tag} {body : List Statement} {s : Statement}
    (h : (readItem t ts).item.statement? tags choiceTags body = some s) :
    t.kind.isOpening ∧ Spans t ts (readItem t ts).item.inside (readItem t ts).rest s.span := by
  have hbegins : t.kind.isOpening → t.kind.begins := by
    intro hk
    simp [Kind.begins, hk]
  cases statementRead h with
  | goto hk hr hitem =>
    rw [hitem, hk]
    exact ⟨rfl, spans_readTarget hr⟩
  | @call name hk hitem =>
    rw [hitem, hk]
    exact ⟨rfl, spans_readCall (Token.isSolid_of_begins (hbegins (by rw [hk]; rfl))) name ts⟩
  | replica hk hitem =>
    rw [hitem, hk]
    exact ⟨rfl, spans_readReplica (Token.isSolid_of_begins (hbegins (by rw [hk]; rfl))) ts⟩
  | @choice c inside hk hitem hi =>
    have hspans := (spans_readChoice (hbegins (by rw [hk]; rfl)) ho hi).sublist
      (List.sublist_append_right _ _)
    rw [hitem, hi, hk]
    cases inside with
    | none | some inside => exact ⟨rfl, hspans⟩

/-! ## Blocks -/

/-- The statements of a choice's body. -/
def Statement.body : Statement → List Statement
  | .choice _ (some body) => body
  | _ => []

/-- Statements in a row inside a span, none of which begins before the one before it has ended. -/
structure Span.Holds (outer : Span) (ss : List Statement) : Prop where
  within : ∀ s ∈ ss, outer.start ≤ s.span.start ∧ s.span.stop ≤ outer.stop
  siblings : ss.Pairwise fun a b => a.span.stop ≤ b.span.start

/-- A statement that begins where its tags have ended, and holds its body. -/
structure Statement.Nested (s : Statement) : Prop where
  proper : s.span.start ≤ s.span.stop
  tags : ∀ tag ∈ s.tags ++ s.choiceTags,
    tag.span.start ≤ tag.span.stop ∧ tag.span.stop ≤ s.span.start
  body : s.span.Holds s.body

/-- A tag that has ended where anything of `ts` begins. -/
structure Tag.Leads (tag : Tag) (ts : List Token) : Prop where
  proper : tag.span.start ≤ tag.span.stop
  before : ∀ u ∈ ts, u.kind.begins → tag.span.stop ≤ u.span.start

theorem Tag.Leads.subset {tag : Tag} {ts us : List Token} (h : tag.Leads us) (hs : ts ⊆ us) :
    tag.Leads ts :=
  ⟨h.proper, fun u hu => h.before u (hs hu)⟩

/-- The statements that are read from tokens: each reaches from one token to another, and no two of
them overlap. -/
structure Nest (ts : List Token) (ss : List Statement) : Prop where
  ends : ∀ s ∈ ss, ∃ first ∈ ts, ∃ last ∈ ts, first.kind.begins ∧ last.isSolid ∧
    s.span = first.span.through last.span
  siblings : ss.Pairwise fun a b => a.span.stop ≤ b.span.start
  nested : ∀ s ∈ Statement.preorders ss, s.Nested

theorem Nest.nil (ts : List Token) : Nest ts [] := ⟨nofun, .nil, nofun⟩

theorem Nest.subset {ts us : List Token} {ss : List Statement} (h : Nest ts ss) (hs : ts ⊆ us) :
    Nest us ss := by
  refine ⟨fun s hmem => ?_, h.siblings, h.nested⟩
  obtain ⟨first, hfirst, last, hlast, hrest⟩ := h.ends s hmem
  exact ⟨first, hs hfirst, last, hs hlast, hrest⟩

theorem leads_readTag {t : Token} {ts : List Token} (ho : Token.InOrder (t :: ts)) (name : String) :
    (readTag t name ts).1.Leads (readTag t name ts).2 := by
  have hproper := ho.proper
  have hpair := ho.pairwise
  unfold readTag
  split
  · next value span rest =>
    simp only [List.pairwise_cons, List.mem_cons, forall_eq_or_imp] at hpair
    obtain ⟨⟨hvalue, -⟩, hrest, -⟩ := hpair
    exact ⟨le_trans (hproper t (by simp)) hvalue.stop, fun u hu hk => (hrest u hu).stop_le_start hk⟩
  · exact ⟨hproper t (by simp), fun u hu hk => ((List.pairwise_cons.1 hpair).1 u hu).stop_le_start hk⟩

theorem body_of_statement? {item : Item} {tags choiceTags : List Tag} {s : Statement}
    (h : item.statement? tags choiceTags (parseBlock [] [] item.inside).statements = some s) :
    s.body = (parseBlock [] [] item.inside).statements := by
  cases item with
  | tag | choiceTag | skipped => cases h
  | goto | call | replica =>
    obtain rfl := Option.some.inj h
    simp [Statement.body, Item.inside]
  | choice c inside =>
    cases inside <;> obtain rfl := Option.some.inj h
    · simp [Statement.body, Item.inside]
    · rfl

theorem choiceTags_subset {item : Item} {tags choiceTags : List Tag} {body : List Statement}
    {s : Statement} (h : item.statement? tags choiceTags body = some s) :
    s.choiceTags ⊆ choiceTags := by
  cases item with
  | tag | choiceTag | skipped => cases h
  | goto | call | replica =>
    obtain rfl := Option.some.inj h
    exact List.nil_subset _
  | choice c inside =>
    cases inside <;> obtain rfl := Option.some.inj h <;> exact List.Subset.refl _

section
variable {t : Token} {ts inside rest : List Token} {span : Span} (ho : Token.InOrder (t :: ts))
  (h : Spans t ts inside rest span)
include h

theorem Spans.exists_last :
    ∃ last ∈ t :: ts, last.isSolid ∧ span = t.span.through last.span := by
  obtain ⟨taken, last, rfl, -, hlast, hsolid, hspan⟩ := h.reaches
  exact ⟨last, List.mem_append_left rest hlast, hsolid, hspan⟩

include ho

theorem Spans.proper : span.start ≤ span.stop := by
  obtain ⟨last, hlast, -, rfl⟩ := h.exists_last
  refine le_trans (ho.proper t (by simp)) ?_
  rcases List.mem_cons.1 hlast with rfl | hlast
  · exact le_refl _
  · exact ((List.pairwise_cons.1 ho.pairwise).1 last hlast).stop

/-- What an item leaves begins where the item has ended. -/
theorem Spans.before {u : Token} (hu : u ∈ rest) (hk : u.kind.begins) :
    span.stop ≤ u.span.start := by
  obtain ⟨taken, last, rfl, -, hlast, -, rfl⟩ := h.reaches
  have hpair : ((t :: taken) ++ rest).Pairwise Token.EndsBefore := ho.pairwise
  exact ((List.pairwise_append.1 hpair).2.2 last hlast u hu).stop_le_start hk

/-- What is read from the body of an item lies in the item. -/
theorem Spans.holds {ss : List Statement} (hbody : Nest inside ss) : span.Holds ss := by
  obtain ⟨taken, last, rfl, hin, -, -, hspan⟩ := h.reaches
  refine ⟨fun s hs => ?_, hbody.siblings⟩
  obtain ⟨first, hfirst, last', hlast', hk, hsolid, hs⟩ := hbody.ends s hs
  have hmem : first ∈ taken ++ rest := List.mem_append_left rest (hin.subset hfirst)
  have hafter := ((List.pairwise_cons.1 ho.pairwise).1 first hmem).stop_le_start hk
  constructor
  · rw [hspan, hs]
    exact le_trans (ho.proper t (by simp)) hafter
  · rw [hs]
    exact h.covers last' hlast' hsolid

end

section
variable {t : Token} {ts : List Token} {tags choiceTags : List Tag} {s : Statement}
  (ho : Token.InOrder (t :: ts)) (ht : ∀ tag ∈ tags ++ choiceTags, tag.Leads (t :: ts))
  (h : (readItem t ts).item.statement? tags choiceTags
    (parseBlock [] [] (readItem t ts).item.inside).statements = some s)
  (hbody : Nest (readItem t ts).item.inside
    (parseBlock [] [] (readItem t ts).item.inside).statements)
include ho ht h hbody

theorem nested_of_statement? : s.Nested := by
  obtain ⟨hk, hspans⟩ := spans_of_statement? ho h
  have hbegins : t.kind.begins := by simp [Kind.begins, hk]
  obtain ⟨last, -, -, hspan⟩ := hspans.exists_last
  refine ⟨hspans.proper ho, fun tag htag => ?_, ?_⟩
  · have hmem : tag ∈ tags ++ choiceTags := by
      rw [(tags_of_statement? h).1] at htag
      rcases List.mem_append.1 htag with htag | htag
      · exact List.mem_append_left _ htag
      · exact List.mem_append_right _ (choiceTags_subset h htag)
    refine ⟨(ht tag hmem).proper, ?_⟩
    rw [hspan]
    exact (ht tag hmem).before t (by simp) hbegins
  · rw [body_of_statement? h]
    exact hspans.holds ho hbody

/-- One more statement in front of those that are read from the tokens behind it. -/
theorem Nest.cons {ss : List Statement} (hrest : Nest (readItem t ts).rest ss) :
    Nest (t :: ts) (s :: ss) := by
  obtain ⟨hk, hspans⟩ := spans_of_statement? ho h
  have hbegins : t.kind.begins := by simp [Kind.begins, hk]
  refine ⟨fun u hu => ?_, List.pairwise_cons.2 ⟨fun u hu => ?_, hrest.siblings⟩, fun u hu => ?_⟩
  · rcases List.mem_cons.1 hu with rfl | hu
    · obtain ⟨last, hlast, hsolid, hspan⟩ := hspans.exists_last
      exact ⟨t, by simp, last, hlast, hbegins, hsolid, hspan⟩
    · have hsub : (readItem t ts).rest ⊆ t :: ts :=
        List.subset_cons_of_subset t (sublist_readItem t ts).2.subset
      exact (hrest.subset hsub).ends u hu
  · obtain ⟨first, hfirst, last, hlast, hfk, hsolid, huspan⟩ := hrest.ends u hu
    rw [huspan]
    exact hspans.before ho hfirst hfk
  · rw [Statement.preorders, preorder_of_statement? h] at hu
    rcases List.mem_append.1 hu with hu | hu
    · rcases List.mem_cons.1 hu with rfl | hu
      · exact nested_of_statement? ho ht h hbody
      · exact hbody.nested u hu
    · exact hrest.nested u hu

end

/-- What is read from tokens in the order of a source lies in that order. -/
theorem nest_parseBlock {tags choiceTags : List Tag} {ts : List Token} (ho : Token.InOrder ts)
    (ht : ∀ tag ∈ tags ++ choiceTags, tag.Leads ts) :
    Nest ts (parseBlock tags choiceTags ts).statements := by
  -- tags that wait before an item wait before what is behind its first token
  have hlater : ∀ {t : Token} {ts : List Token} {tags : List Tag},
      (∀ tag ∈ tags, tag.Leads (t :: ts)) → ∀ tag ∈ tags, tag.Leads (readItem t ts).rest :=
    fun {t ts tags} ht tag hmem =>
      (ht tag hmem).subset (List.subset_cons_of_subset t (sublist_readItem t ts).2.subset)
  have horder : ∀ {t : Token} {ts : List Token}, Token.InOrder (t :: ts) →
      Token.InOrder (readItem t ts).item.inside ∧ Token.InOrder (readItem t ts).rest :=
    fun {t ts} ho => ⟨ho.sublist ((sublist_readItem t ts).1.cons t),
      ho.sublist ((sublist_readItem t ts).2.cons t)⟩
  have hsub : ∀ (t : Token) (ts : List Token), (readItem t ts).rest ⊆ t :: ts :=
    fun t ts => List.subset_cons_of_subset t (sublist_readItem t ts).2.subset
  refine parseBlock_induction (motive := fun tags choiceTags ts block => Token.InOrder ts →
    (∀ tag ∈ tags ++ choiceTags, tag.Leads ts) → Nest ts block.statements)
    ?nil ?tag ?choiceTag ?skipped ?statement tags choiceTags ts ho ht
  case nil =>
    intro _ _ _ _
    exact Nest.nil _
  case tag =>
    intro tags choiceTags t ts tag block hi ih ho ht
    obtain ⟨name, hk, rfl⟩ := kind_of_item_tag hi
    have hread : (readItem t ts).rest = (readTag t name ts).2 := by simp [readItem, hk]
    refine (ih (horder ho).2 ?_).subset (hsub t ts)
    intro tag hmem
    have hwait := hlater ht tag
    simp only [List.mem_append, List.mem_singleton] at hmem hwait
    rcases hmem with (hmem | rfl) | hmem
    · exact hwait (.inl hmem)
    · rw [hread]
      exact leads_readTag ho name
    · exact hwait (.inr hmem)
  case choiceTag =>
    intro tags choiceTags t ts tag block hi ih ho ht
    obtain ⟨name, hk, rfl⟩ := kind_of_item_choiceTag hi
    have hread : (readItem t ts).rest = (readTag t name ts).2 := by simp [readItem, hk]
    refine (ih (horder ho).2 ?_).subset (hsub t ts)
    intro tag hmem
    have hwait := hlater ht tag
    simp only [List.mem_append, List.mem_singleton] at hmem hwait
    rcases hmem with hmem | hmem | rfl
    · exact hwait (.inl hmem)
    · exact hwait (.inr hmem)
    · rw [hread]
      exact leads_readTag ho name
  case skipped =>
    intro tags choiceTags t ts block hi ih ho ht
    exact (ih (horder ho).2 (hlater ht)).subset (hsub t ts)
  case statement =>
    intro tags choiceTags t ts s body block hb hs ihbody ih ho ht
    subst hb
    exact Nest.cons ho ht hs (ihbody (horder ho).1 (by simp)) (ih (horder ho).2 (by simp))

/-! ## Sections -/

/-- A header and its window. -/
def windowTokens (w : Token × List Token) : List Token := w.1 :: w.2

/-- No token is lost between windows. -/
theorem flatMap_windowTokens (ts : List Token) :
    (windows ts).1 ++ (windows ts).2.flatMap windowTokens = ts := by
  induction ts with
  | nil => rfl
  | cons t ts ih =>
    rw [windows]
    split
    · simpa [windowTokens] using ih
    · simpa using ih

theorem kind_of_mem_windows {ts : List Token} {w : Token × List Token} (h : w ∈ (windows ts).2) :
    w.1.kind = .header := by
  induction ts with
  | nil => exact absurd h nofun
  | cons t ts ih =>
    rw [windows] at h
    split at h
    · next hk =>
      rcases List.mem_cons.1 h with rfl | h
      · exact hk
      · exact ih h
    · exact ih h

/-- A section that begins no later than it ends, and holds its statements. -/
structure Section.Nested (s : Section) : Prop where
  proper : s.span.start ≤ s.span.stop
  statements : s.span.Holds s.statements

/-- The sections that are read from tokens: each begins at a header, and no two of them overlap. -/
structure NestSections (ts : List Token) (ss : List Section) : Prop where
  begins : ∀ s ∈ ss, ∃ header ∈ ts, header.kind = .header ∧ s.span.start = header.span.start
  siblings : ss.Pairwise fun a b => a.span.stop ≤ b.span.start
  sections : ∀ s ∈ ss, s.Nested
  nested : ∀ s ∈ ss.flatMap Section.preorder, s.Nested

theorem NestSections.nil (ts : List Token) : NestSections ts [] := by
  constructor <;> simp

/-- Sections begin where a token before their tokens has ended. -/
theorem NestSections.stop_le_start {front ts : List Token} {ss : List Section}
    (h : NestSections ts ss) (ho : Token.InOrder (front ++ ts)) {last : Token} (hl : last ∈ front)
    {s : Section} (hs : s ∈ ss) : last.span.stop ≤ s.span.start := by
  obtain ⟨header, hmem, hk, hstart⟩ := h.begins s hs
  rw [hstart]
  refine ((List.pairwise_append.1 ho.pairwise).2.2 last hl header hmem).stop_le_start ?_
  rw [hk]
  rfl

theorem NestSections.append_left {ts : List Token} {ss : List Section} (h : NestSections ts ss)
    (front : List Token) : NestSections (front ++ ts) ss := by
  refine ⟨fun s hs => ?_, h.siblings, h.sections, h.nested⟩
  obtain ⟨header, hmem, hrest⟩ := h.begins s hs
  exact ⟨header, List.mem_append_right front hmem, hrest⟩

theorem nest_parseWindows (tags : List Tag) {ws : List (Token × List Token)}
    (hw : ∀ w ∈ ws, w.1.kind = .header) (ho : Token.InOrder (ws.flatMap windowTokens)) :
    NestSections (ws.flatMap windowTokens) (parseWindows tags ws).1 := by
  induction tags, ws using parseWindows.induct with
  | case1 tags =>
    rw [parseWindows]
    exact .nil _
  | case2 tags header name span inside rest block ih =>
    rw [List.flatMap_cons] at ho ⊢
    obtain ⟨hheader, hrest⟩ := List.forall_mem_cons.1 hw
    have hbegins : header.kind.begins := by
      rw [hheader]
      rfl
    have hlater := ih hrest (ho.sublist (List.sublist_append_right _ _))
    have hwindow : Token.InOrder (header :: ⟨.identifier name, span⟩ :: inside) :=
      ho.sublist (List.sublist_append_left _ _)
    have hinside : inside.Sublist (⟨.identifier name, span⟩ :: inside) := List.sublist_cons_self _ _
    have hbody : Nest inside block.statements :=
      nest_parseBlock (hwindow.sublist (hinside.trans (List.sublist_cons_self _ _))) (by simp)
    have hspans := spans_extent hbegins hwindow (List.append_nil _).symm (List.Sublist.refl _) hinside
    obtain ⟨last, hlast, -, hspan⟩ := hspans.exists_last
    rw [parseWindows]
    refine ⟨List.forall_mem_cons.2 ⟨⟨header, by simp [windowTokens], hheader, ?_⟩, ?_⟩,
      List.pairwise_cons.2 ⟨fun s hs => ?_, hlater.siblings⟩,
      List.forall_mem_cons.2 ⟨⟨hspans.proper hwindow, hspans.holds hwindow hbody⟩,
        hlater.sections⟩,
      ?_⟩
    · dsimp only
      rw [hspan]
      rfl
    · exact (hlater.append_left _).begins
    · dsimp only
      rw [hspan]
      exact hlater.stop_le_start ho hlast hs
    · rw [List.flatMap_cons]
      exact List.forall_mem_append.2 ⟨hbody.nested, hlater.nested⟩
  | case3 tags header ts rest hname ih =>
    rw [List.flatMap_cons] at ho ⊢
    rw [parseWindows]
    · exact (ih (List.forall_mem_cons.1 hw).2
        (ho.sublist (List.sublist_append_right _ _))).append_left _
    · exact hname

/-- The section of what stands under no header. -/
theorem nested_mainSection {ts : List Token} (ho : Token.InOrder ts) :
    (mainSection (parseBlock [] [] ts).statements ts).Nested := by
  have hnest : Nest ts (parseBlock [] [] ts).statements := nest_parseBlock ho (by simp)
  by_cases hsolid : ∃ t ∈ ts, t.isSolid
  · obtain ⟨t, ht, hs⟩ := hsolid
    obtain ⟨first, -, last, -, -, hextent, hproper, hstart, hstop⟩ := extent_eq ho ht hs
    refine ⟨?_, ?_, hnest.siblings⟩
    · rw [mainSection, hextent]
      exact hproper
    · rw [mainSection, hextent]
      intro s hmem
      obtain ⟨first', hfirst', last', hlast', hk, hsolid, hspan⟩ := hnest.ends s hmem
      rw [hspan]
      exact ⟨hstart first' hfirst' hk, hstop last' hlast' hsolid⟩
  · have hnone : ts.any Token.isContent = false := by
      rw [List.any_eq_false]
      intro t ht hc
      exact hsolid ⟨t, ht, (Bool.and_eq_true_iff.1 hc).1⟩
    have hfilter : ts.filter Token.isSolid = [] :=
      List.filter_eq_nil_iff.2 fun t ht hs => hsolid ⟨t, ht, hs⟩
    rw [statements_of_no_content hnone, mainSection, Token.extent, hfilter]
    exact ⟨le_refl _, by simp, .nil⟩

/-- Where there is content, the section under no header ends at one of its tokens. -/
theorem stop_mainSection {ts : List Token} (ho : Token.InOrder ts) (h : ts.any Token.isContent)
    (ss : List Statement) : ∃ last ∈ ts, (mainSection ss ts).span.stop = last.span.stop := by
  obtain ⟨t, ht, hc⟩ := List.any_eq_true.1 h
  obtain ⟨first, -, last, hlast, -, hextent, -⟩ :=
    extent_eq ho ht (Bool.and_eq_true_iff.1 hc).1
  refine ⟨last, hlast, ?_⟩
  rw [mainSection, hextent]
  rfl

/-! ## Stories -/

/-- What stands under no header is in front if it has content, or if nothing else is there. -/
theorem sections_parse (tokens : List Token) {before : List Token}
    {ws : List (Token × List Token)} (hw : windows (beforeEnd tokens) = (before, ws)) :
    ((parse tokens).story.sections =
        mainSection (parseBlock [] [] before).statements before ::
          (parseWindows (parseBlock [] [] before).dangling ws).1 ∧
      (before.any Token.isContent ∨ ws = [])) ∨
    (parse tokens).story.sections = (parseWindows (parseBlock [] [] before).dangling ws).1 ∨
    (parse tokens).story.sections = [mainSection [] []] := by
  unfold parse
  rw [← beforeEnd, hw]
  dsimp only
  split
  · next hr =>
    rw [List.isEmpty_iff.1 hr]
    exact .inl ⟨rfl, .inr rfl⟩
  · by_cases hc : before.any Token.isContent
    · rw [if_pos hc]
      exact .inl ⟨rfl, .inl hc⟩
    · rw [if_neg hc]
      split
      · exact .inr (.inr rfl)
      · exact .inr (.inl rfl)

/-- The parts of a story that is read from tokens in order lie in that order. -/
theorem nested_parse {tokens : List Token} (ho : Token.InOrder tokens) :
    (parse tokens).story.sections.Pairwise (fun a b => a.span.stop ≤ b.span.start) ∧
      (∀ s ∈ (parse tokens).story.sections, s.Nested) ∧
      ∀ s ∈ (parse tokens).story.preorder, s.Nested := by
  obtain ⟨before, ws, hw⟩ : ∃ before ws, windows (beforeEnd tokens) = (before, ws) := ⟨_, _, rfl⟩
  have hflat := flatMap_windowTokens (beforeEnd tokens)
  have hheaders : ∀ w ∈ (windows (beforeEnd tokens)).2, w.1.kind = .header :=
    fun w => kind_of_mem_windows
  rw [hw] at hflat hheaders
  have ho : Token.InOrder (before ++ ws.flatMap windowTokens) :=
    hflat ▸ ho.sublist (List.takeWhile_sublist _)
  have hbefore := ho.sublist (List.sublist_append_left _ _)
  have hnamed := nest_parseWindows (parseBlock [] [] before).dangling hheaders
    (ho.sublist (List.sublist_append_right _ _))
  have hmain := nested_mainSection hbefore
  have hblock : Nest before (parseBlock [] [] before).statements := nest_parseBlock hbefore (by simp)
  have hnested : ∀ s ∈ (parse tokens).story.preorder, s.Nested := by
    rw [Story.preorder,
      flatMap_sections_parse Section.preorder Statement.preorders (fun _ _ => rfl) rfl tokens, hw]
    exact List.forall_mem_append.2 ⟨hblock.nested, hnamed.nested⟩
  rcases sections_parse tokens hw with ⟨h, hc⟩ | h | h
  · rw [h]
    refine ⟨List.pairwise_cons.2 ⟨fun s hs => ?_, hnamed.siblings⟩,
      List.forall_mem_cons.2 ⟨hmain, hnamed.sections⟩, hnested⟩
    rcases hc with hc | rfl
    · obtain ⟨last, hlast, hstop⟩ := stop_mainSection hbefore hc (parseBlock [] [] before).statements
      rw [hstop]
      exact hnamed.stop_le_start ho hlast hs
    · cases hs
  · rw [h]
    exact ⟨hnamed.siblings, hnamed.sections, hnested⟩
  · have hempty := nested_mainSection (ho.sublist (List.nil_sublist _))
    rw [parseBlock_nil] at hempty
    rw [h]
    exact ⟨List.pairwise_singleton _ _, List.forall_mem_singleton.2 hempty, hnested⟩

/-- The spans of a story nest and are in order: sections do not overlap, each section holds its
statements and each choice those of its body, statements in a row do not overlap, and the tags of a
statement end where it begins or before. -/
theorem nested_parseSource (source : String) :
    (parseSource source).story.sections.Pairwise (fun a b => a.span.stop ≤ b.span.start) ∧
      (∀ s ∈ (parseSource source).story.sections, s.Nested) ∧
      ∀ s ∈ (parseSource source).story.preorder, s.Nested :=
  nested_parse (inOrder_tokenize source)

end StoryScript

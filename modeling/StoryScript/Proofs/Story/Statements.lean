import StoryScript.Proofs.Messages
import StoryScript.Proofs.Story.Blocks
/-!
# Statements and their first tokens

Every token that begins a statement is the start of one statement of the story, the statements come
in the order of these tokens, and an arrow that begins no statement is reported. This holds of every
list of tokens, whatever their order (`preorder_parse`). Reports that are found where items begin
come in the order of these tokens too (`reports_parse`).
-/

namespace StoryScript

open Token (Kind)

/-! ## Outlines -/

/-- What a statement is and refers to. -/
inductive Shape where
  | goto (target : String)
  | call (name : String) (args : List String)
  | replica
  | choice
deriving DecidableEq, Repr

/-- Where a statement starts and what it is, without its tags, texts and body. -/
structure Outline where
  start : Position
  shape : Shape
deriving DecidableEq, Repr

/-- The outline of a statement. -/
def Statement.outline : Statement → Outline
  | .goto g => ⟨g.span.start, .goto g.target⟩
  | .call c => ⟨c.span.start, .call c.name c.args⟩
  | .replica r => ⟨r.span.start, .replica⟩
  | .choice c _ => ⟨c.span.start, .choice⟩

/-- The arguments in a row that tokens begin with. -/
def argumentRun : List Token → List String
  | ⟨.argument text, _⟩ :: ts => text :: argumentRun ts
  | _ => []

/-- The outline of the statement that begins at a token when `ts` follows, if one does. -/
def Token.outline (t : Token) (ts : List Token) : List Outline :=
  match t.kind with
  | .goto _ => (targetName ts).toList.map fun target => ⟨t.span.start, .goto target⟩
  | .call name => [⟨t.span.start, .call name (argumentRun ts)⟩]
  | .replicaBegin => [⟨t.span.start, .replica⟩]
  | .choice => [⟨t.span.start, .choice⟩]
  | _ => []

/-! ## What is found at the first tokens of statements -/

theorem argumentRun_append (ts : List Token) {rest : List Token} (h : Detached rest) :
    argumentRun (ts ++ rest) = argumentRun ts := by
  induction ts with
  | nil =>
    cases rest with
    | nil => rfl
    | cons t ts =>
      obtain ⟨kind, span⟩ := t
      have hk : kind.cuts := h _ rfl
      cases kind <;> first | rfl | cases hk
  | cons t ts ih =>
    obtain ⟨kind, span⟩ := t
    cases kind with
    | argument text => exact congrArg (text :: ·) ih
    | _ => rfl

theorem targetName_append (ts : List Token) {rest : List Token} (h : Detached rest) :
    targetName (ts ++ rest) = targetName ts := by
  cases ts with
  | cons t ts =>
    obtain ⟨kind, span⟩ := t
    cases kind <;> rfl
  | nil =>
    cases rest with
    | nil => rfl
    | cons t ts =>
      obtain ⟨kind, span⟩ := t
      have hk : kind.cuts := h _ rfl
      cases kind <;> first | rfl | cases hk

theorem found_outline : FoundAtOpening Token.outline where
  nil_of_not_opening := by
    intro t ts h
    unfold Token.outline
    cases hk : t.kind <;> simp_all [Kind.isOpening]
  append_detached := by
    intro t ts rest h
    simp only [Token.outline, argumentRun_append ts h, targetName_append ts h]

theorem found_targetless : FoundAtOpening Token.targetless where
  nil_of_not_opening := by
    intro t ts h
    unfold Token.targetless
    cases hk : t.kind <;> simp_all [Kind.isOpening]
  append_detached := by
    intro t ts rest h
    simp only [Token.targetless, targetName_append ts h]

/-! ## Items -/

@[simp] theorem start_spanTo (t : Token) (ts : List Token) : (t.spanTo ts).start = t.span.start := by
  unfold Token.spanTo
  cases ts.getLast? <;> rfl

/-- The extent of tokens starts at the first one that is solid. -/
theorem start_extent {t : Token} (h : t.isSolid) (ts : List Token) (default : Span) :
    ((Token.extent (t :: ts)).getD default).start = t.span.start := by
  simp [Token.extent, h, Span.through]

theorem filterMap_argument (ts : List Token) :
    (ts.takeWhile (·.argument?.isSome)).filterMap Token.argument? = argumentRun ts := by
  induction ts with
  | nil => rfl
  | cons t ts ih =>
    obtain ⟨kind, span⟩ := t
    cases kind with
    | argument text => simpa [Token.argument?, argumentRun] using ih
    | _ => rfl

theorem start_readReplica (t : Token) (ts : List Token) :
    (readReplica t ts).1.span.start = t.span.start := by
  unfold readReplica
  dsimp only
  split
  · rfl
  · exact start_spanTo t _

/-- The outline at a token is that of the statement its item is. -/
theorem outline_readItem (t : Token) (ts : List Token) :
    t.outline ts = ((readItem t ts).item.statement? [] [] []).toList.map Statement.outline := by
  unfold Token.outline readItem
  cases hk : t.kind with
  | goto arrow =>
    rw [← readTarget_eq]
    cases readTarget ts with
    | none => rfl
    | some r => rfl
  | call name =>
    simp [Item.statement?, readCall, Statement.outline, filterMap_argument]
  | replicaBegin =>
    simp [Item.statement?, Statement.outline, start_readReplica]
  | choice =>
    have hs : t.isSolid := by simp [Token.isSolid, hk, Kind.isTrivia, Kind.isLevel]
    simp only [readChoice, List.cons_append]
    cases readIndented (readChoiceText ts).rest <;>
      simp [Item.statement?, Statement.outline, start_extent hs]
  | _ => rfl

/-- Tags and the body do not show in the outline. -/
theorem outline_of_statement? {item : Item} {tags choiceTags : List Tag} {body : List Statement}
    {s : Statement} (h : item.statement? tags choiceTags body = some s) :
    (item.statement? [] [] []).toList.map Statement.outline = [s.outline] := by
  cases item with
  | tag | choiceTag | skipped => cases h
  | goto | call | replica =>
    obtain rfl := Option.some.inj h
    rfl
  | choice c body =>
    cases body <;>
      obtain rfl := Option.some.inj h <;>
      rfl

/-- An item that is no statement has no outline. -/
theorem outline_of_no_statement {t : Token} {ts : List Token}
    (h : (readItem t ts).item.statement? [] [] [] = none) : t.outline ts = [] := by
  rw [outline_readItem, h]
  rfl

/-! ## Blocks -/

theorem outline_parseBlock (tags choiceTags : List Tag) (ts : List Token) :
    (Statement.preorders (parseBlock tags choiceTags ts).statements).map Statement.outline =
      collect Token.outline ts := by
  refine parseBlock_induction (motive := fun _ _ ts block =>
    (Statement.preorders block.statements).map Statement.outline = collect Token.outline ts)
    ?nil ?tag ?choiceTag ?skipped ?statement tags choiceTags ts
  case nil =>
    intro _ _
    rfl
  case tag =>
    intro _ _ t ts tag block hi ih
    rw [collect_readItem found_outline, outline_of_no_statement (by rw [hi]; rfl), hi, ih]
    rfl
  case choiceTag =>
    intro _ _ t ts tag block hi ih
    rw [collect_readItem found_outline, outline_of_no_statement (by rw [hi]; rfl), hi, ih]
    rfl
  case skipped =>
    intro _ _ t ts block hi ih
    rw [collect_readItem found_outline, outline_of_no_statement (by rw [hi]; rfl), hi, ih]
    rfl
  case statement =>
    intro tags choiceTags t ts s body block hb hs ihbody ih
    subst hb
    rw [collect_readItem found_outline, outline_readItem, outline_of_statement? hs, ← ihbody, ← ih,
      Block.push, Statement.preorders, preorder_of_statement? hs]
    simp

/-! ## Windows -/

/-- A window with a name holds what stands behind the name. -/
theorem collect_identifier {α : Type} {f : Token → List Token → List α} (hf : FoundAtOpening f)
    (name : String) (span : Span) (inside : List Token) :
    collect f (⟨.identifier name, span⟩ :: inside) = collect f inside := by
  rw [collect, hf.nil_of_not_opening _ _ rfl, List.nil_append]

theorem beginsWithName_eq_false {ts : List Token}
    (h : ∀ name span inside, ts = ⟨.identifier name, span⟩ :: inside → False) :
    beginsWithName ts = false := by
  unfold beginsWithName
  split
  · exact (h _ _ _ rfl).elim
  · rfl

theorem outline_parseWindows (tags : List Tag) (ws : List (Token × List Token)) :
    ((parseWindows tags ws).1.flatMap Section.preorder).map Statement.outline =
      ws.flatMap fun w => if beginsWithName w.2 then collect Token.outline w.2 else [] := by
  induction tags, ws using parseWindows.induct with
  | case1 tags => rfl
  | case2 tags header name span inside rest block ih =>
    rw [parseWindows, List.flatMap_cons, List.flatMap_cons, List.map_append, ih, Section.preorder,
      outline_parseBlock, collect_identifier found_outline]
    rfl
  | case3 tags header ts rest hname ih =>
    rw [parseWindows, ih, List.flatMap_cons, beginsWithName_eq_false hname]
    · rfl
    · exact hname

/-! ## Stories -/

/-- Without content there is no statement, so nothing is lost with the section that is left out. -/
theorem statements_of_no_content {ts : List Token} (h : ts.any Token.isContent = false)
    (tags choiceTags : List Tag) : (parseBlock tags choiceTags ts).statements = [] := by
  have hc : collect Token.outline ts = [] := by
    induction ts with
    | nil => rfl
    | cons t ts ih =>
      simp only [List.any_cons, Bool.or_eq_false_iff] at h
      have ht : t.outline ts = [] := by
        have := h.1
        unfold Token.outline
        cases hk : t.kind <;>
          simp_all [Token.isContent, Token.isSolid, Kind.isTrivia, Kind.isLevel]
      rw [collect, ht, ih h.2]
      rfl
  have hp := outline_parseBlock tags choiceTags ts
  rw [hc, List.map_eq_nil_iff] at hp
  cases hs : (parseBlock tags choiceTags ts).statements with
  | nil => rfl
  | cons s ss =>
    rw [hs, Statement.preorders] at hp
    cases s with
    | choice c body => cases body <;> simp [Statement.preorder] at hp
    | _ => simp [Statement.preorder] at hp

/-- What the sections of a story hold: what stands before the first header, then the sections of the
headers. A section that is there only because there is no other holds nothing. -/
theorem flatMap_sections_parse {α : Type} (g : Section → List α) (main : List Statement → List α)
    (hg : ∀ statements tokens, g (mainSection statements tokens) = main statements)
    (hnil : main [] = []) (tokens : List Token) :
    (parse tokens).story.sections.flatMap g =
      main (parseBlock [] [] (windows (beforeEnd tokens)).1).statements ++
        (parseWindows (parseBlock [] [] (windows (beforeEnd tokens)).1).dangling
          (windows (beforeEnd tokens)).2).1.flatMap g := by
  unfold parse
  rw [← beforeEnd]
  generalize windows (beforeEnd tokens) = w
  obtain ⟨before, rest⟩ := w
  dsimp only
  split
  · next hr =>
    rw [List.isEmpty_iff.1 hr]
    simp [parseWindows, hg]
  · by_cases hc : before.any Token.isContent
    · simp [hc, hg]
    · rw [statements_of_no_content (by simpa using hc), hnil]
      simp only [hc, Bool.false_eq_true, if_false, List.nil_append]
      split
      · next he => simp [List.isEmpty_iff.1 he, hg, hnil]
      · rfl

/-- What is said about tokens: about those before the first header, then about the windows. -/
theorem diagnostics_parse (tokens : List Token) :
    (parse tokens).diagnostics =
      (parseBlock [] [] (windows (beforeEnd tokens)).1).diagnostics ++
        (parseWindows (parseBlock [] [] (windows (beforeEnd tokens)).1).dangling
          (windows (beforeEnd tokens)).2).2 := by
  unfold parse
  rw [← beforeEnd]
  generalize windows (beforeEnd tokens) = w
  obtain ⟨before, rest⟩ := w
  dsimp only
  split
  · next hr =>
    rw [List.isEmpty_iff.1 hr, parseWindows]
  · rfl

/-! ## Reports on items -/

/-- Reports that are found at the first tokens of items, and not about tags that belong to nothing. -/
structure ReportsItems (p : Finding → Bool) (found : Token → List Token → List Diagnostic) : Prop where
  atOpening : FoundAtOpening found
  item : ∀ t ts, reports p (readItem t ts).diagnostics = found t ts
  looseTags : ∀ tags, reports p (looseTags tags) = []
  looseChoiceTags : ∀ tags, reports p (looseChoiceTags tags) = []

section
variable {p : Finding → Bool} {found : Token → List Token → List Diagnostic}
  (h : ReportsItems p found)
include h

theorem reports_parseBlock (tags choiceTags : List Tag) (ts : List Token) :
    reports p (parseBlock tags choiceTags ts).diagnostics = collect found ts := by
  -- a tag is nothing to report
  have skip : ∀ {t : Token} {ts : List Token} {ds : List Diagnostic},
      (readItem t ts).diagnostics = [] → (readItem t ts).item.inside = [] →
      ds = collect found (readItem t ts).rest → ds = collect found (t :: ts) := by
    intro t ts ds hnone hinside hds
    rw [collect_readItem h.atOpening, ← h.item, hnone, hinside, hds]
    rfl
  refine parseBlock_induction (motive := fun _ _ ts block =>
    reports p block.diagnostics = collect found ts)
    ?nil ?tag ?choiceTag ?skipped ?statement tags choiceTags ts
  case nil =>
    intro _ _
    exact h.looseChoiceTags _
  case tag =>
    intro _ _ t ts tag block hi ih
    obtain ⟨name, hk, -⟩ := kind_of_item_tag hi
    exact skip (by rw [readItem, hk]) (by rw [hi]; rfl) ih
  case choiceTag =>
    intro _ _ t ts tag block hi ih
    obtain ⟨name, hk, -⟩ := kind_of_item_choiceTag hi
    exact skip (by rw [readItem, hk]) (by rw [hi]; rfl) ih
  case skipped =>
    intro _ _ t ts block hi ih
    rw [collect_readItem h.atOpening, hi, reports_append, h.item, ih]
    simp [Item.inside, collect]
  case statement =>
    intro tags choiceTags t ts s body block hb hs ihbody ih
    rw [collect_readItem h.atOpening]
    simp [Block.push, statementDiagnostics, h.item, h.looseTags, h.looseChoiceTags, ihbody, ih]

theorem reports_parseWindows (hheader : p .headerWithoutName = false) (tags : List Tag)
    (ws : List (Token × List Token)) :
    reports p (parseWindows tags ws).2 =
      ws.flatMap fun w => if beginsWithName w.2 then collect found w.2 else [] := by
  induction tags, ws using parseWindows.induct with
  | case1 tags => exact h.looseTags tags
  | case2 tags header name span inside rest block ih =>
    rw [parseWindows, reports_append, ih, reports_parseBlock h, List.flatMap_cons,
      collect_identifier h.atOpening]
    rfl
  | case3 tags header ts rest hname ih =>
    rw [parseWindows, List.cons_append, List.flatMap_cons, beginsWithName_eq_false hname]
    · rw [← List.singleton_append, reports_append, reports_append, ih, h.looseTags,
        reports_singleton hheader]
      rfl
    · exact hname

/-- What is found in items is reported at the tokens that are read, in the order of these. -/
theorem reports_parse (hheader : p .headerWithoutName = false) (tokens : List Token) :
    reports p (parse tokens).diagnostics =
      (heard false tokens).flatMap fun o => found o.1 o.2 := by
  rw [diagnostics_parse, reports_append, reports_parseBlock h, reports_parseWindows h hheader,
    collect_heard h.atOpening]
  rfl

end

/-- What is not about the text of a statement is reported only at an arrow without a target. -/
theorem reports_readItem {p : Finding → Bool} (hp : ∀ f : Finding, f.isOfText → p f = false)
    (t : Token) (ts : List Token) :
    reports p (readItem t ts).diagnostics = reports p (targetlessReports (t.targetless ts)) := by
  obtain ⟨others, hd, ho⟩ := diagnostics_readItem t ts
  rw [hd, reports_append, reports_eq_nil fun d hd => hp _ (ho d hd), List.append_nil]

/-! ## Reports on arrows -/

/-- Whether a finding is about an arrow without a target. -/
def Finding.isTargetless (f : Finding) : Bool := f = .gotoWithoutTarget

theorem Finding.isKind_gotoWithoutTarget : IsKind isTargetless fun _ : Unit => gotoWithoutTarget where
  ctorIdx f _ := by cases f <;> rfl
  exists_eq _ h := ⟨(), of_decide_eq_true h⟩

/-- An arrow without a target is reported if it can be told from what is found in texts and from tags
that belong to nothing. -/
theorem reportsItems_targetless {p : Finding → Bool} (hgoto : p .gotoWithoutTarget = true)
    (htext : ∀ f : Finding, f.isOfText → p f = false) (htag : ∀ name, p (.looseTag name) = false)
    (hchoiceTag : ∀ name, p (.looseChoiceTag name) = false) :
    ReportsItems p fun t ts => targetlessReports (t.targetless ts) where
  atOpening :=
    { nil_of_not_opening := fun t ts h => by rw [found_targetless.nil_of_not_opening t ts h]; rfl
      append_detached := fun t ts rest h => by rw [found_targetless.append_detached t ts rest h] }
  item t ts := by
    rw [reports_readItem htext]
    refine reports_eq_self fun d hd => ?_
    obtain ⟨u, -, rfl⟩ := List.mem_map.1 hd
    exact hgoto
  looseTags _ := reports_eq_nil (List.forall_mem_map.2 fun _ _ => htag _)
  looseChoiceTags _ := reports_eq_nil (List.forall_mem_map.2 fun _ _ => hchoiceTag _)

theorem collect_targetlessReports (ts : List Token) :
    collect (fun t ts => targetlessReports (t.targetless ts)) ts =
      targetlessReports (collect Token.targetless ts) := by
  induction ts with
  | nil => rfl
  | cons t ts ih => rw [collect, collect, ih, targetlessReports, targetlessReports,
      targetlessReports, List.map_append]

theorem reportsItems_isTargetless :
    ReportsItems Finding.isTargetless fun t ts => targetlessReports (t.targetless ts) := by
  refine reportsItems_targetless rfl (fun f hf => ?_) (fun _ => rfl) fun _ => rfl
  cases f <;> first | rfl | cases hf

theorem reports_targetless_parseBlock (tags choiceTags : List Tag) (ts : List Token) :
    reports Finding.isTargetless (parseBlock tags choiceTags ts).diagnostics =
      targetlessReports (collect Token.targetless ts) := by
  rw [reports_parseBlock reportsItems_isTargetless, collect_targetlessReports]

theorem reports_targetless_parseWindows (tags : List Tag) (ws : List (Token × List Token)) :
    reports Finding.isTargetless (parseWindows tags ws).2 = targetlessReports
      (ws.flatMap fun w => if beginsWithName w.2 then collect Token.targetless w.2 else []) := by
  rw [reports_parseWindows reportsItems_isTargetless rfl, targetlessReports, List.map_flatMap]
  congr 1
  funext w
  rw [collect_targetlessReports]
  split <;> rfl

/-- The statements of a story in reading order are those that begin at the tokens that are read, one
for each, and the arrows that begin none are reported in order. -/
theorem preorder_parse (tokens : List Token) :
    (parse tokens).story.preorder.map Statement.outline =
        (heard false tokens).flatMap (fun o => o.1.outline o.2) ∧
      (parse tokens).issues.filter (·.message = "Goto must be followed by a target name") =
        ((heard false tokens).flatMap fun o => o.1.targetless o.2).map fun t =>
          ⟨.error, "Goto must be followed by a target name", some t.span⟩ := by
  constructor
  · have hs := flatMap_sections_parse Section.preorder Statement.preorders (fun _ _ => rfl) rfl tokens
    rw [Story.preorder, hs, List.map_append, outline_parseBlock, outline_parseWindows,
      collect_heard found_outline]
    rfl
  · refine (filter_message Finding.isKind_gotoWithoutTarget _).trans ?_
    rw [diagnostics_parse, reports_append,
      reports_targetless_parseBlock, reports_targetless_parseWindows,
      collect_heard found_targetless, targetlessReports, targetlessReports, ← List.map_append,
      List.map_map]
    rfl

/-! ## What holds of every statement -/

theorem sublist_windows (ts : List Token) :
    (windows ts).1.Sublist ts ∧ ∀ w ∈ (windows ts).2, w.2.Sublist ts := by
  induction ts with
  | nil => exact ⟨.slnil, nofun⟩
  | cons t ts ih =>
    rw [windows]
    split
    · refine ⟨List.nil_sublist _, List.forall_mem_cons.2 ⟨ih.1.cons t, fun w hw => ?_⟩⟩
      exact (ih.2 w hw).cons t
    · exact ⟨ih.1.cons_cons t, fun w hw => (ih.2 w hw).cons t⟩

/-- Tokens in the midst of others, up to a place where these are cut. -/
def Excerpt (ts tokens : List Token) : Prop :=
  ∃ front back, tokens = front ++ (ts ++ back) ∧ ∀ t ∈ back.head?, t.kind.cuts

namespace Excerpt

variable {t : Token} {ts tokens : List Token}

theorem nil (tokens : List Token) : Excerpt [] tokens := ⟨tokens, [], by simp, nofun⟩

theorem cons (h : Excerpt ts tokens) (t : Token) : Excerpt ts (t :: tokens) := by
  obtain ⟨front, back, rfl, hb⟩ := h
  exact ⟨t :: front, back, rfl, hb⟩

theorem sublist (h : Excerpt ts tokens) : ts.Sublist tokens := by
  obtain ⟨front, back, rfl, -⟩ := h
  exact (List.sublist_append_left ts back).trans (List.sublist_append_right front _)

/-- What stands behind the first of them. -/
theorem suffix {us : List Token} (h : Excerpt (us ++ ts) tokens) : Excerpt ts tokens := by
  obtain ⟨front, back, rfl, hb⟩ := h
  exact ⟨front ++ us, back, by simp, hb⟩

theorem rest (h : Excerpt (t :: ts) tokens) : Excerpt (readItem t ts).rest tokens := by
  obtain ⟨taken, closing, hts, -, -⟩ := takes_readItem t ts
  generalize (readItem t ts).rest = rest at hts ⊢
  rw [hts, ← List.cons_append] at h
  exact h.suffix

/-- The body of an item is cut at its dedent, or it goes on to where the tokens are cut. -/
theorem inside (h : Excerpt (t :: ts) tokens) : Excerpt (readItem t ts).item.inside tokens := by
  obtain ⟨taken, closing, hts, -, hc⟩ := takes_readItem t ts
  generalize (readItem t ts).item.inside = inside at hts hc ⊢
  generalize (readItem t ts).rest = rest at hts hc
  obtain ⟨front, back, rfl, hb⟩ := h
  subst hts
  rcases hc with ⟨rfl, rfl | rfl⟩ | ⟨span, rfl⟩
  · exact .nil _
  · exact ⟨front ++ t :: taken, back, by simp, hb⟩
  · exact ⟨front ++ t :: taken, ⟨.dedent, span⟩ :: rest ++ back, by simp, by simp [Kind.cuts]⟩

theorem windows (tokens : List Token) :
    (∃ back, tokens = (windows (beforeEnd tokens)).1 ++ back ∧ ∀ t ∈ back.head?, t.kind.cuts) ∧
      ∀ w ∈ (windows (beforeEnd tokens)).2, Excerpt w.2 tokens := by
  induction tokens with
  | nil => exact ⟨⟨[], rfl, by simp⟩, List.forall_mem_nil _⟩
  | cons t ts ih =>
    obtain ⟨⟨back, hfirst, hb⟩, hlater⟩ := ih
    have hhead : t.kind.cuts → ∀ u ∈ (t :: ts).head?, u.kind.cuts := by
      rintro ht u ⟨⟩
      exact ht
    by_cases he : t.kind = .eof
    · have hnil : beforeEnd (t :: ts) = [] := by simp [beforeEnd, he]
      rw [hnil]
      exact ⟨⟨t :: ts, rfl, hhead (by rw [he]; rfl)⟩, List.forall_mem_nil _⟩
    · have hcons : beforeEnd (t :: ts) = t :: beforeEnd ts := by simp [beforeEnd, he]
      rw [hcons, StoryScript.windows]
      by_cases hh : t.kind = .header
      · rw [if_pos hh]
        refine ⟨⟨t :: ts, rfl, hhead (by rw [hh]; rfl)⟩, List.forall_mem_cons.2 ⟨?_, ?_⟩⟩
        · exact ⟨[t], back, congrArg (t :: ·) hfirst, hb⟩
        · exact fun w hw => (hlater w hw).cons t
      · rw [if_neg hh]
        exact ⟨⟨back, congrArg (t :: ·) hfirst, hb⟩, fun w hw => (hlater w hw).cons t⟩

end Excerpt

section
variable {tokens : List Token}

/-- A statement is an item of the tokens, and what is to be said about the item is said. -/
def Statement.ReadIn (tokens : List Token) (said : List Diagnostic) (s : Statement) : Prop :=
  ∃ t ts tags choiceTags body, Excerpt (t :: ts) tokens ∧
    (readItem t ts).item.statement? tags choiceTags body = some s ∧
    (readItem t ts).diagnostics ⊆ said

theorem Statement.ReadIn.mono {said more : List Diagnostic} {s : Statement}
    (h : s.ReadIn tokens said) (hs : said ⊆ more) : s.ReadIn tokens more := by
  obtain ⟨t, ts, tags, choiceTags, body, hts, hitem, hsaid⟩ := h
  exact ⟨t, ts, tags, choiceTags, body, hts, hitem, List.Subset.trans hsaid hs⟩

theorem readIn_preorders_parseBlock (tags choiceTags : List Tag) {ts : List Token}
    (hts : Excerpt ts tokens) :
    ∀ s ∈ Statement.preorders (parseBlock tags choiceTags ts).statements,
      s.ReadIn tokens (parseBlock tags choiceTags ts).diagnostics := by
  refine parseBlock_induction (motive := fun _ _ ts block => Excerpt ts tokens →
    ∀ s ∈ Statement.preorders block.statements, s.ReadIn tokens block.diagnostics)
    ?nil ?tag ?choiceTag ?skipped ?statement tags choiceTags ts hts
  case nil =>
    intro _ _ _
    exact nofun
  case tag =>
    intro _ _ t ts _ _ _ ih hts
    exact ih hts.rest
  case choiceTag =>
    intro _ _ t ts _ _ _ ih hts
    exact ih hts.rest
  case skipped =>
    intro _ _ t ts _ _ ih hts u hu
    exact (ih hts.rest u hu).mono (List.subset_append_right _ _)
  case statement =>
    intro tags choiceTags t ts s body block hb hs ihbody ih hts
    subst hb
    rw [Block.push, Statement.preorders, preorder_of_statement? hs, statementDiagnostics]
    intro u hu
    rcases List.mem_append.1 hu with hu | hu
    · rcases List.mem_cons.1 hu with rfl | hu
      · exact ⟨t, ts, tags, choiceTags, _, hts, hs, fun d hd => by simp [hd]⟩
      · exact (ihbody hts.inside u hu).mono fun d hd => by simp [hd]
    · exact (ih hts.rest u hu).mono fun d hd => by simp [hd]

theorem readIn_preorder_parseWindows (tags : List Tag) {ws : List (Token × List Token)}
    (hws : ∀ w ∈ ws, Excerpt w.2 tokens) :
    ∀ s ∈ (parseWindows tags ws).1.flatMap Section.preorder,
      s.ReadIn tokens (parseWindows tags ws).2 := by
  induction tags, ws using parseWindows.induct with
  | case1 tags => simp [parseWindows]
  | case2 tags header name span inside rest block ih =>
    obtain ⟨hwindow, hrest⟩ := List.forall_mem_cons.1 hws
    have hinside : Excerpt inside tokens :=
      Excerpt.suffix (show Excerpt ([⟨.identifier name, span⟩] ++ inside) tokens from hwindow)
    rw [parseWindows, List.flatMap_cons]
    refine List.forall_mem_append.2 ⟨fun s hs => ?_, fun s hs => ?_⟩
    · exact (readIn_preorders_parseBlock [] [] hinside s hs).mono (List.subset_append_left _ _)
    · exact (ih hrest s hs).mono (List.subset_append_right _ _)
  | case3 tags header ts rest hname ih =>
    rw [parseWindows]
    · intro s hs
      exact (ih (List.forall_mem_cons.1 hws).2 s hs).mono fun d hd => by simp [hd]
    · exact hname

/-- Every statement of a story is an item of the tokens. -/
theorem readIn_preorder_parse :
    ∀ s ∈ (parse tokens).story.preorder, s.ReadIn tokens (parse tokens).diagnostics := by
  obtain ⟨⟨back, hfirst, hb⟩, hws⟩ := Excerpt.windows tokens
  rw [Story.preorder, diagnostics_parse,
    flatMap_sections_parse Section.preorder Statement.preorders (fun _ _ => rfl) rfl tokens]
  refine List.forall_mem_append.2 ⟨fun s hs => ?_, fun s hs => ?_⟩
  · exact (readIn_preorders_parseBlock [] [] ⟨[], back, hfirst, hb⟩ s hs).mono
      (List.subset_append_left _ _)
  · exact (readIn_preorder_parseWindows _ hws s hs).mono (List.subset_append_right _ _)

variable {P : Statement → Prop}

/-- What holds of every statement that an item of the tokens is, holds of every statement of the
story. -/
theorem forall_preorder_of_excerpt (h : ∀ t ts, Excerpt (t :: ts) tokens → ∀ tags choiceTags body s,
      (readItem t ts).item.statement? tags choiceTags body = some s → P s) :
    ∀ s ∈ (parse tokens).story.preorder, P s := by
  intro s hs
  obtain ⟨t, ts, tags, choiceTags, body, hts, hitem, -⟩ := readIn_preorder_parse s hs
  exact h t ts hts tags choiceTags body s hitem

/-- The same, whatever stands behind the item. -/
theorem forall_preorder_parse (h : ∀ t ts, (t :: ts).Sublist tokens → ∀ tags choiceTags body s,
      (readItem t ts).item.statement? tags choiceTags body = some s → P s) :
    ∀ s ∈ (parse tokens).story.preorder, P s :=
  forall_preorder_of_excerpt fun t ts hts => h t ts hts.sublist

end

end StoryScript

import StoryScript.Issue
/-!
# Messages tell findings apart

Each kind of finding has words of its own that all its messages begin with, and no two kinds have
words of which one continues the other. So a message shows of which kind the finding is
(`ctorIdx_of_message`), and reports of one kind can be picked out by their texts
(`filter_messages`).
-/

namespace StoryScript

namespace Finding

/-- The words that the messages of each kind of finding begin with. -/
def leads : List String :=
  ["Lexing error: ", "Expected section name after '==' header",
    "Goto must be followed by a target name", "Empty or malformed call: ",
    "Unterminated choice text block", "Unterminated inline call", "Tag '@", "Choice tag '@",
    "Duplicate section name: '", "Section '", "Empty call name in section '", "Empty replica text",
    "Choice has both inline and block text", "Empty choice in section '", "Duplicate choice tag '",
    "Goto target not found: '", "Unreferenced section: '"]

/-- The words that the messages about a finding begin with. -/
def lead (f : Finding) : String := leads.getD f.ctorIdx ""

theorem lead_begins_message (f : Finding) : f.lead.toList <+: f.message.toList := by
  unfold message
  cases f with
  | openChoiceText => decide
  | headerWithoutName | gotoWithoutTarget | openInlineCall | emptyReplica | twoChoiceTexts =>
    exact List.prefix_refl _
  | _ =>
    simp only [String.toList_append, List.append_assoc]
    exact List.prefix_append _ _

theorem leads_apart : ∀ i < leads.length, ∀ j < leads.length,
    (leads.getD i "").toList <+: (leads.getD j "").toList → i = j := by
  decide +kernel

theorem ctorIdx_lt (f : Finding) : f.ctorIdx < leads.length := by
  cases f <;> simp only [Finding.ctorIdx] <;> decide

/-- A message shows of which kind the finding is. -/
theorem ctorIdx_of_message {f g : Finding} (h : f.message = g.message) : f.ctorIdx = g.ctorIdx := by
  have hf := lead_begins_message f
  rw [h] at hf
  rcases List.prefix_or_prefix_of_prefix hf (lead_begins_message g) with h | h
  · exact leads_apart _ f.ctorIdx_lt _ g.ctorIdx_lt h
  · exact (leads_apart _ g.ctorIdx_lt _ f.ctorIdx_lt h).symm

end Finding

/-! ## Reports of one kind -/

/-- The diagnostics with findings that satisfy `p`. -/
def reports (p : Finding → Bool) (diagnostics : List Diagnostic) : List Diagnostic :=
  diagnostics.filter (p ·.finding)

@[simp] theorem reports_append (p : Finding → Bool) (as bs : List Diagnostic) :
    reports p (as ++ bs) = reports p as ++ reports p bs := List.filter_append ..

theorem reports_eq_nil {p : Finding → Bool} {diagnostics : List Diagnostic}
    (h : ∀ d ∈ diagnostics, p d.finding = false) : reports p diagnostics = [] :=
  List.filter_eq_nil_iff.2 fun d hd => by simp [h d hd]

theorem reports_eq_self {p : Finding → Bool} {diagnostics : List Diagnostic}
    (h : ∀ d ∈ diagnostics, p d.finding = true) : reports p diagnostics = diagnostics :=
  List.filter_eq_self.2 h

theorem reports_singleton {p : Finding → Bool} {d : Diagnostic} (h : p d.finding = false) :
    reports p [d] = [] := reports_eq_nil (List.forall_mem_singleton.2 h)

theorem reports_ite {p : Finding → Bool} {c : Prop} [Decidable c] {as bs : List Diagnostic}
    (has : reports p as = []) (hbs : reports p bs = []) :
    reports p (if c then as else bs) = [] := by
  split
  · exact has
  · exact hbs

/-- The findings that satisfy `p` are those of one kind, which `make` gives from their data. -/
structure Finding.IsKind {ι : Type} (p : Finding → Bool) (make : ι → Finding) : Prop where
  ctorIdx : ∀ f i, p f = (f.ctorIdx == (make i).ctorIdx)
  exists_eq : ∀ f, p f = true → ∃ i, f = make i

section
variable {ι : Type} {p : Finding → Bool} {make : ι → Finding} (h : Finding.IsKind p make)
include h

/-- The findings of a kind are those with a message of this kind. -/
theorem exists_message_iff {f : Finding} : (∃ i, f.message = (make i).message) ↔ p f := by
  constructor
  · rintro ⟨i, hi⟩
    rw [h.ctorIdx f i, Finding.ctorIdx_of_message hi, beq_self_eq_true]
  · intro hf
    obtain ⟨i, rfl⟩ := h.exists_eq f hf
    exact ⟨i, rfl⟩

open Classical in
/-- Reports of one kind are found again among the issues by their messages. -/
theorem filter_messages (diagnostics : List Diagnostic) :
    (diagnostics.map Diagnostic.issue).filter (fun i => ∃ n, i.message = (make n).message) =
      (reports p diagnostics).map Diagnostic.issue := by
  rw [List.filter_map, reports]
  congr 1
  refine List.filter_congr fun d _ => ?_
  rw [Bool.eq_iff_iff, Function.comp_apply, decide_eq_true_iff]
  exact exists_message_iff h

end

/-- The same for a kind of finding without data. -/
theorem filter_message {p : Finding → Bool} {g : Finding}
    (h : Finding.IsKind p fun _ : Unit => g) (diagnostics : List Diagnostic) :
    (diagnostics.map Diagnostic.issue).filter (·.message = g.message) =
      (reports p diagnostics).map Diagnostic.issue := by
  rw [← filter_messages h]
  refine List.filter_congr fun i _ => ?_
  simp

end StoryScript

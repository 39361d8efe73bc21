import StoryScript.Check
import StoryScript.Proofs.BlankLines.Parser
import StoryScript.Proofs.BlankLines.Tokens
/-!
# Lines without content say nothing

A line of spaces and tabs or with nothing but a comment can be put in wherever a line begins outside of
block comments and choice texts. The story stays the same but for its places, and so does all that is
said about it (`check_blankLine`).
-/

namespace StoryScript

open Token (Kind)

/-- An issue, wherever it is. -/
def Issue.unplaced (i : Issue) : Issue := { i with span := none }

theorem Checked.unplaced_issues (c : Checked) :
    c.issues.map Issue.unplaced =
      (c.diagnostics.map Diagnostic.unplaced).map fun d => d.issue.unplaced := by
  rw [issues, List.map_map, List.map_map]
  rfl

/-- Text that is no token is the same in padded tokens. -/
theorem unplaced_validateTokens {p : Place} {ts us : List Token} (h : Padded p ts us) :
    (validateTokens us).map Diagnostic.unplaced = (validateTokens ts).map Diagnostic.unplaced := by
  unfold validateTokens
  rw [List.map_filterMap, List.map_filterMap]
  refine h.filterMap_eq ?_ ?_
  · intro t u hk
    rw [hk]
    split <;> rfl
  · intro t ht
    split
    · next hk =>
      rw [Token.isTrivia, hk] at ht
      cases ht
    · rfl

theorem unplaced_check {source source' : String} {p : Place}
    (h : Padded p (tokenize source) (tokenize source')) :
    (check source').story.unplaced = (check source).story.unplaced ∧
      (check source').diagnostics.map Diagnostic.unplaced =
        (check source).diagnostics.map Diagnostic.unplaced := by
  have hparse := unplaced_parse h
  have hstory : (parse (tokenize source')).story.unplaced = (parse (tokenize source)).story.unplaced :=
    congrArg Parsed.story hparse
  have hsaid : (parse (tokenize source')).diagnostics.map Diagnostic.unplaced =
      (parse (tokenize source)).diagnostics.map Diagnostic.unplaced := congrArg Parsed.diagnostics hparse
  refine ⟨hstory, ?_⟩
  simp only [check, List.map_append, unplaced_validateTokens h, hsaid, ← validate_unplaced, hstory]

/-- A line of spaces and tabs or with nothing but a comment, put in where a line begins outside of
block comments and choice texts, changes nothing but places: neither the story nor what is said. -/
theorem check_blankLine (before line after : String) (hlines : WholeLines before.toList)
    (hcomment : (Lexer.walk {} before.toList).2.inComment = false)
    (hmode : (Lexer.walk {} before.toList).2.mode ≠ .choiceText) (hline : BlankLine line.toList) :
    (check (before ++ line ++ after)).story.unplaced = (check (before ++ after)).story.unplaced ∧
      (check (before ++ line ++ after)).issues.map Issue.unplaced =
        (check (before ++ after)).issues.map Issue.unplaced := by
  obtain ⟨hstory, hsaid⟩ := unplaced_check (padded_tokenize after hlines hcomment hmode hline)
  refine ⟨hstory, ?_⟩
  rw [Checked.unplaced_issues, Checked.unplaced_issues, hsaid]

/-- A comment at another level in a replica that goes on behind it. -/
theorem check_blankLine_in_replica :
    BlankLine "\t\t# d\n".toList ∧
      (check ("+ A\n  \" b\n" ++ "\t\t# d\n" ++ "  c\n")).story.unplaced =
        (check ("+ A\n  \" b\n" ++ "  c\n")).story.unplaced ∧
      (check ("+ A\n  \" b\n" ++ "\t\t# d\n" ++ "  c\n")).issues.map Issue.unplaced =
        (check ("+ A\n  \" b\n" ++ "  c\n")).issues.map Issue.unplaced := by
  have hstate : (Lexer.walk {} "+ A\n  \" b\n".toList).2.inComment = false ∧
      (Lexer.walk {} "+ A\n  \" b\n".toList).2.mode ≠ .choiceText := by
    decide +kernel
  have hline : BlankLine "\t\t# d\n".toList :=
    @BlankLine.comment ['\t', '\t'] [' ', 'd'] (by simp [isSpacer]) (by decide)
  exact ⟨hline, check_blankLine _ _ _ (by decide) hstate.1 hstate.2 hline⟩

end StoryScript

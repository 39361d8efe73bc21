import StoryScript.Proofs.LineEnds.Parser
/-!
# Checks without offsets

The check of a story compares names and texts and hands offsets on. So sources with the same tokens up
to their offsets have the same issues up to offsets (`bare_check`).
-/

namespace StoryScript

open Token (Kind)

/-! ## The story -/

theorem validate_bare (story : Story) :
    validate story.bare = (validate story).map Diagnostic.bare := by
  rw [story.bare_eq_mapSpans, validate_mapSpans]
  rfl

/-! ## The whole check -/

theorem validateTokens_bare (ts : List Token) :
    validateTokens (ts.map Token.bare) = (validateTokens ts).map Diagnostic.bare := by
  unfold validateTokens
  rw [List.filterMap_map, List.map_filterMap]
  congr 1
  funext t
  obtain ⟨kind, span⟩ := t
  cases kind <;> rfl

/-- What a check gives, without offsets. -/
def Checked.bare (c : Checked) : Checked :=
  ⟨c.tokens.map Token.bare, c.story.bare, c.diagnostics.map Diagnostic.bare⟩

/-- The check of a source depends on its tokens up to their offsets. -/
theorem bare_check {source source' : String}
    (h : (tokenize source').map Token.bare = (tokenize source).map Token.bare) :
    (check source').bare = (check source).bare := by
  have hparse := bare_parse h
  have hstory : (parse (tokenize source')).story.bare = (parse (tokenize source)).story.bare :=
    congrArg Parsed.story hparse
  have hsaid : (parse (tokenize source')).diagnostics.map Diagnostic.bare =
      (parse (tokenize source)).diagnostics.map Diagnostic.bare := congrArg Parsed.diagnostics hparse
  simp only [check, Checked.bare, List.map_append, ← validateTokens_bare, ← validate_bare, h, hstory,
    hsaid]

end StoryScript

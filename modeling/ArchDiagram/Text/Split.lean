/-
# Splitting a text

A text is cut at every separator (`splitAll`) or at the first one only
(`splitFirst`). Nothing is lost: joining the pieces with the separator gives the
text back.
-/

namespace ArchDiagram.Text

variable (separator : Char)

/-- The pieces of a text between its separators; an empty text is one empty piece. -/
def splitAll : List Char → List (List Char)
  | [] => [[]]
  | c :: rest =>
      if c = separator then [] :: splitAll rest
      else
        match splitAll rest with
        | [] => [[c]]
        | piece :: pieces => (c :: piece) :: pieces

/-- The text before the first separator and the text after it. -/
def splitFirst : List Char → Option (List Char × List Char)
  | [] => none
  | c :: rest =>
      if c = separator then some ([], rest)
      else (splitFirst rest).map fun parts => (c :: parts.1, parts.2)

theorem splitAll_ne_nil (text : List Char) : splitAll separator text ≠ [] := by
  cases text with
  | nil => simp [splitAll]
  | cons c rest =>
      simp only [splitAll]
      split
      · simp
      · split <;> simp

theorem splitFirst_eq_some {text before after : List Char}
    (h : splitFirst separator text = some (before, after)) :
    text = before ++ separator :: after ∧ separator ∉ before := by
  induction text generalizing before with
  | nil => simp [splitFirst] at h
  | cons c rest ih =>
      simp only [splitFirst] at h
      split at h
      · rename_i hc
        simp only [Option.some.injEq, Prod.mk.injEq] at h
        obtain ⟨rfl, rfl⟩ := h
        simp [hc]
      · rename_i hc
        obtain ⟨parts, hparts, heq⟩ := Option.map_eq_some_iff.mp h
        obtain ⟨first, second⟩ := parts
        simp only [Prod.mk.injEq] at heq
        obtain ⟨rfl, rfl⟩ := heq
        obtain ⟨rfl, hfirst⟩ := ih hparts
        exact ⟨rfl, by simp [hfirst, Ne.symm hc]⟩

theorem splitFirst_eq_none_iff {text : List Char} :
    splitFirst separator text = none ↔ separator ∉ text := by
  induction text with
  | nil => simp [splitFirst]
  | cons c rest ih =>
      by_cases hc : c = separator
      · simp [splitFirst, hc]
      · simp [splitFirst, hc, ih, Ne.symm hc]

end ArchDiagram.Text

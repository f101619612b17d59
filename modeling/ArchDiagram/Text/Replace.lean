/-
# Replacing parts of a text

Occurrences are taken from the left and do not overlap, and what was put in is
not searched again. A part is given as a fixed pattern (`replaceAll`), or as any
placeholder `{{name}}` (`replacePlaceholders`).
-/

namespace ArchDiagram.Text

/-- Put `replacement` for every occurrence of a pattern, which is not empty. -/
def replaceAll (pattern replacement : List Char) : List Char → List Char
  | [] => []
  | c :: rest =>
      if pattern.isPrefixOf (c :: rest) then
        replacement ++ replaceAll pattern replacement (rest.drop (pattern.length - 1))
      else c :: replaceAll pattern replacement rest
termination_by text => text.length
decreasing_by
  · simp only [List.length_drop, List.length_cons]; omega
  · simp

/-- A name as a placeholder. -/
def placeholder (name : List Char) : List Char :=
  '{' :: '{' :: (name ++ ['}', '}'])

/-- The text behind a placeholder at the start of a text. Its name has at least
one character and no closing brace. -/
def afterPlaceholder? : List Char → Option (List Char)
  | '{' :: '{' :: rest =>
      match rest.takeWhile (· != '}'), rest.dropWhile (· != '}') with
      | _ :: _, '}' :: '}' :: after => some after
      | _, _ => none
  | _ => none

theorem length_lt_of_afterPlaceholder? {text after : List Char}
    (h : afterPlaceholder? text = some after) : after.length < text.length := by
  unfold afterPlaceholder? at h
  split at h
  · rename_i rest
    split at h
    · rename_i name more after' _ hdrop
      have hsub := (List.dropWhile_sublist (· != '}') (l := rest)).length_le
      rw [hdrop] at hsub
      simp only [Option.some.injEq] at h
      subst h
      simp only [List.length_cons] at hsub ⊢
      omega
    · exact absurd h (by simp)
  · exact absurd h (by simp)

/-- Put `replacement` for every placeholder. -/
def replacePlaceholders (replacement : List Char) (text : List Char) : List Char :=
  match text with
  | [] => []
  | c :: rest =>
      match _hafter : afterPlaceholder? (c :: rest) with
      | some after => replacement ++ replacePlaceholders replacement after
      | none => c :: replacePlaceholders replacement rest
termination_by text.length
decreasing_by
  · exact length_lt_of_afterPlaceholder? _hafter
  · simp

end ArchDiagram.Text

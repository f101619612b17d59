/-
# Outlines

Lines belong to each other by their indentation: a line owns all lines after it
that are indented deeper, up to the first that is not. Main statement: an outline
holds the lines it was made of, in order (`flattenAll_ofLines`).
-/

import ArchDiagram.Document.Line

namespace ArchDiagram.Document

/-- A line with the lines it owns. -/
inductive Outline where
  | node (line : Line) (children : List Outline)
deriving Repr

namespace Outline

/-- The first line. -/
def line : Outline → Line
  | node line _ => line

/-- Whether a line is indented deeper than another. -/
def deeper (line : Line) (outline : Outline) : Bool :=
  decide (line.indent < outline.line.indent)

/-- Put a line before some outlines: it owns the first of them that are deeper. -/
def cons (line : Line) (outlines : List Outline) : List Outline :=
  node line (outlines.takeWhile (deeper line)) :: outlines.dropWhile (deeper line)

/-- The outlines of some lines. -/
def ofLines : List Line → List Outline
  | [] => []
  | line :: rest => cons line (ofLines rest)

mutual

/-- The lines of an outline, in order. -/
def flatten : Outline → List Line
  | node line children => line :: flattenAll children

/-- The lines of some outlines, in order. -/
def flattenAll : List Outline → List Line
  | [] => []
  | outline :: rest => flatten outline ++ flattenAll rest

end

theorem flattenAll_append (first second : List Outline) :
    flattenAll (first ++ second) = flattenAll first ++ flattenAll second := by
  induction first with
  | nil => rfl
  | cons outline rest ih => simp [flattenAll, ih]

theorem flattenAll_cons (line : Line) (outlines : List Outline) :
    flattenAll (cons line outlines) = line :: flattenAll outlines := by
  simp only [cons, flattenAll, flatten, List.cons_append, ← flattenAll_append,
    List.takeWhile_append_dropWhile]

theorem flattenAll_ofLines (lines : List Line) : flattenAll (ofLines lines) = lines := by
  induction lines with
  | nil => rfl
  | cons line rest ih => rw [ofLines, flattenAll_cons, ih]

end Outline

end ArchDiagram.Document

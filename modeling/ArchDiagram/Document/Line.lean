/-
# Lines

A document is read line by line. A line counts from one, its indentation is the
number of spaces it starts with, and its text is what stands between the blanks
at its ends. Blank lines are dropped.
-/

import ArchDiagram.Text.Blank
import ArchDiagram.Text.Split

namespace ArchDiagram.Document

/-- A line that is not blank. -/
structure Line where
  number : Nat
  indent : Nat
  text : List Char
deriving DecidableEq, Repr

namespace Line

/-- The line of a number, unless it is blank. -/
def ofText? (number : Nat) (written : List Char) : Option Line :=
  let text := Text.trim written
  if text.isEmpty then none
  else some { number, indent := ((Text.trimEnd written).takeWhile (· == ' ')).length, text }

/-- A line has its number and the text between the blanks at its ends, which is not empty. -/
theorem spec_ofText? {line : Line} {number : Nat} {written : List Char}
    (h : ofText? number written = some line) :
    line.number = number ∧ line.text = Text.trim written ∧ line.text ≠ [] := by
  rw [ofText?] at h
  split at h
  · cases h
  · rename_i hne
    obtain rfl := Option.some.inj h
    exact ⟨rfl, rfl, by simpa using hne⟩

/-- The lines among some texts, of which the first has the given number. -/
def listFrom (number : Nat) : List (List Char) → List Line
  | [] => []
  | written :: rest => (ofText? number written).toList ++ listFrom (number + 1) rest

/-- The lines of a text. -/
def all (text : List Char) : List Line :=
  listFrom 1 (Text.splitAll '\n' text)

/-- What stands before a colon at the end of the line. -/
def heading? (line : Line) : Option (List Char) :=
  if line.text.getLast? = some ':' then some (Text.trim line.text.dropLast) else none

/-- What stands before and after the first colon of the line. -/
def pair? (line : Line) : Option (List Char × List Char) :=
  (Text.splitFirst ':' line.text).map fun parts => (Text.trim parts.1, Text.trim parts.2)

/-- The text of the line as a string. -/
def string (line : Line) : String := String.ofList line.text

end Line

end ArchDiagram.Document

/-
# Blocks

The lines below the name of an architecture, and below every entry that has
entries of its own. What a line means shows in its text alone: a section, a name
with a colon at its end, a class of slots with what is put in them, or just a
name. A line that is just a name owns nothing, so the lines below it belong to
the block it stands in.
-/

import ArchDiagram.Document.Section

namespace ArchDiagram.Document

/-- What the text of a line in a block means. -/
inductive Heading
  | references
  | properties
  /-- A component, with a block of its own. -/
  | nested (name : List Char)
  /-- A class of slots and what is put in them, with a block of its own if lines
  below it are deeper. -/
  | swap (slotClass replacement : List Char)
  /-- A component as it is. -/
  | bare (name : List Char)
deriving DecidableEq, Repr

/-- What a line in a block means. -/
def Heading.ofLine (line : Line) : Heading :=
  if line.text = "references:".toList then .references
  else if line.text = "properties:".toList then .properties
  else
    match line.heading?, line.pair? with
    | some name, _ => .nested name
    | none, some (slotClass, replacement) => .swap slotClass replacement
    | none, none => .bare line.text

mutual

/-- The entries of a line and the lines it owns, repeated names not merged. -/
def entriesOf : Outline → Except Fault (List (String × Override))
  | .node line children =>
      match Heading.ofLine line with
      | .references => (referencesOf children).map fun listed => [("references", .references listed)]
      | .properties => (propertiesOf children).map fun listed => [("properties", .properties listed)]
      | .nested name =>
          (entriesOfAll children).map fun entries =>
            [(String.ofList name, .nested (Entries.collect entries))]
      | .swap slotClass replacement =>
          (entriesOfAll children).map fun entries =>
            let overrides := if children.isEmpty then none else some (Entries.collect entries)
            [(String.ofList slotClass, .swap (String.ofList replacement) overrides)]
      | .bare name =>
          (entriesOfAll children).map fun entries => (String.ofList name, .default) :: entries

/-- The entries of a block, in order, repeated names not merged. -/
def entriesOfAll : List Outline → Except Fault (List (String × Override))
  | [] => .ok []
  | outline :: rest =>
      match entriesOf outline with
      | .error fault => .error fault
      | .ok first => (entriesOfAll rest).map (first ++ ·)

end

/-- The entries of the lines of a block; of a repeated name the first place and
the last entry count. -/
def blockOf (lines : List Line) : Except Fault (Entries Override) :=
  (entriesOfAll (Outline.ofLines lines)).map Entries.collect

end ArchDiagram.Document

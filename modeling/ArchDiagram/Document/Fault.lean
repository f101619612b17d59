/-
# What is wrong with a document

Why a text is no document, and why architectures cannot be written as one. A
fault in a text names the line it was found in, counted from one, and what
stands there.
-/

import ArchDiagram.Override

namespace ArchDiagram.Document

/-- Why a document cannot be read or written. -/
inductive Fault
  /-- There are only blank lines. -/
  | empty
  /-- There is only one line that is not blank. -/
  | noContents
  /-- The first line names no architecture. -/
  | missingHeader (line : Nat) (found : String)
  /-- Nothing stands below the name of an architecture. -/
  | emptyArchitecture (line : Nat) (name : String)
  /-- A line among the references is neither a title nor a member of one. -/
  | malformedReference (line : Nat) (found : String)
  /-- A line among the properties has no colon. -/
  | malformedProperty (line : Nat) (found : String)
  /-- An architecture has no text. -/
  | unwritable (fault : StructureFault)
deriving DecidableEq, Repr

/-- The message for a fault. -/
def Fault.message : Fault → String
  | .empty => "Empty architecture definition"
  | .noContents => "Architecture definition must have contents"
  | .missingHeader line found =>
      s!"line {line}: architecture definition must start with a name followed by a colon, "
        ++ s!"found `{found}`"
  | .emptyArchitecture line name => s!"line {line}: architecture `{name}` has no entries"
  | .malformedReference line found =>
      s!"line {line}: expected a quoted reference title ending in `:`, found `{found}`"
  | .malformedProperty line found =>
      s!"line {line}: expected `key: value` inside properties, found `{found}`"
  | .unwritable fault => fault.message

end ArchDiagram.Document

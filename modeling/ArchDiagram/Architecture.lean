/-
# Architectures

A diagram as its author names it: the components in order, each with its
overrides, between sections of settings, references and properties.
-/

import ArchDiagram.Json.Printer
import ArchDiagram.Override

namespace ArchDiagram

/-- A diagram as its author names it. -/
structure Architecture where
  entries : Entries Override
deriving DecidableEq, Repr

/-- Architectures under their names. -/
abbrev Architectures := Entries Architecture

namespace Architecture

/-- Read an architecture; in a value repeated names are merged beforehand. -/
def ofJson : Json → Except StructureFault Architecture
  | .object members => (Override.entriesOfJson members).map Architecture.mk
  | value => .error (.notAnObject value.compact)

/-- Read an architecture, merging repeated names first. -/
def ofJson? (value : Json) : Option Architecture :=
  (ofJson value.merged).toOption

/-- Write an architecture. -/
def toJson (architecture : Architecture) : Json :=
  .object (Override.entriesToJson architecture.entries)

/-- Write architectures under their names. -/
def tableToJson (architectures : Architectures) : Json :=
  .object (architectures.map fun entry => (entry.1, entry.2.toJson))

/-- The properties of an architecture. -/
def properties (architecture : Architecture) : Entries Property :=
  match architecture.entries.lookup "properties" with
  | some (.properties listed) => listed
  | _ => []

end Architecture

end ArchDiagram

/-
# Navigation

For every view that has been built, the views its items open, in the order in
which they were first met.
-/

import ArchDiagram.Entries
import ArchDiagram.Json.Basic

namespace ArchDiagram

/-- The views opened by each view. -/
abbrev Navigation := Entries (List String)

namespace Navigation

/-- Start the entry of a view anew, without children; it keeps its place. -/
def reset (navigation : Navigation) (view : String) : Navigation :=
  Entries.put navigation view []

/-- The views opened by a view. -/
def children (navigation : Navigation) (view : String) : List String :=
  (navigation.lookup view).getD []

/-- Enter `child` below `parent`, once. -/
def link (navigation : Navigation) (parent child : String) : Navigation :=
  let before := navigation.children parent
  Entries.put navigation parent (if child ∈ before then before else before ++ [child])

/-- The views that no view opens, in order. -/
def roots (navigation : Navigation) : List String :=
  (Entries.names navigation).filter fun view => !navigation.any fun entry => entry.2.contains view

/-- Write the views under each view. -/
def toJson (navigation : Navigation) : Json :=
  .object (navigation.map fun entry => (entry.1, .array (entry.2.map .string)))

end Navigation

end ArchDiagram

/-
# Items

An item is a leaf of a diagram: a shape with labels and arrows. Its layout is of
no interest here and travels with the other members.
-/

import ArchDiagram.Arrow

namespace ArchDiagram

/-- A leaf of a diagram. -/
structure Item where
  shape : Option String
  position : Option String
  /-- The item this one is laid out against. -/
  previous : Option String
  /-- The view the item opens. -/
  details : Option String
  info : Option String
  arrow : Option (OneOrMany Arrow)
  text : Option (OneOrMany Label)
  references : Option (List Reference)
  /-- The other members, in order. -/
  others : Entries Json
deriving DecidableEq, Repr

namespace Item

/-- The names of the fields, in order. -/
def fieldNames : List String :=
  ["shape", "position", "previous", "details", "info", "arrow", "text", "references"]

/-- Read an item. -/
def ofJson? (value : Json) : Option Item := do
  let fields ← Json.Fields.ofObject? fieldNames value
  let shape ← fields.optional? "shape" Json.string?
  let position ← fields.optional? "position" Json.string?
  let previous ← fields.optional? "previous" Json.string?
  let details ← fields.optional? "details" Json.string?
  let info ← fields.optional? "info" Json.string?
  let arrow ← fields.optional? "arrow" (OneOrMany.ofJson? Arrow.ofJson?)
  let text ← fields.optional? "text" (OneOrMany.ofJson? Label.ofJson?)
  let references ← fields.optional? "references" (Json.list? Reference.ofJson?)
  return {
    shape, position, previous, details, info, arrow, text, references
    others := fields.others }

/-- Write an item; fields without a value are left out. -/
def toJson (item : Item) : Json :=
  .object <|
    Json.optionalMember "shape" .string item.shape
      ++ Json.optionalMember "position" .string item.position
      ++ Json.optionalMember "previous" .string item.previous
      ++ Json.optionalMember "details" .string item.details
      ++ Json.optionalMember "info" .string item.info
      ++ Json.optionalMember "arrow" (OneOrMany.toJson Arrow.toJson) item.arrow
      ++ Json.optionalMember "text" (OneOrMany.toJson Label.toJson) item.text
      ++ Json.optionalMember "references" (fun references => .array (references.map Reference.toJson))
        item.references
      ++ item.others

/-- The arrows drawn into the item. -/
def arrows (item : Item) : List Arrow :=
  item.arrow.toList.flatMap OneOrMany.toList

/-- The labels of the item itself. -/
def labels (item : Item) : List Label :=
  item.text.toList.flatMap OneOrMany.toList

/-- Whether the member `name` is set as a flag. -/
def flag (item : Item) (name : String) : Bool :=
  match item.others.lookup name with
  | some value => value.isTruthy
  | none => false

/-- Apply a function to every label of the item and of its arrows. -/
def mapLabels (f : Label → Label) (item : Item) : Item :=
  { item with
    text := item.text.map (OneOrMany.map f)
    arrow := item.arrow.map (OneOrMany.map (Arrow.mapLabels f)) }

/-- The views the item opens by itself and by its arrows, in order. -/
def links (item : Item) : List String :=
  item.details.toList ++ item.arrows.filterMap Arrow.details

end Item

end ArchDiagram

/-
# Labels

A label is a text on an item, on an arrow or on a segment of an arrow. Where a
label or an arrow may stand, one or a list of them may be written, and the form
is kept (`OneOrMany`).
-/

import ArchDiagram.Reference

namespace ArchDiagram

/-- One value standing alone, or a list of them. -/
inductive OneOrMany (α : Type) where
  | many (values : List α)
  | one (value : α)
deriving DecidableEq, Repr

namespace OneOrMany

variable {α : Type}

/-- The values, in order. -/
def toList : OneOrMany α → List α
  | .many values => values
  | .one value => [value]

/-- Apply a function to every value. -/
def map {β : Type} (f : α → β) : OneOrMany α → OneOrMany β
  | .many values => .many (values.map f)
  | .one value => .one (f value)

/-- Read one value or a list of them. -/
def ofJson? (read? : Json → Option α) : Json → Option (OneOrMany α)
  | .array elements => (elements.mapM read?).map .many
  | value => (read? value).map .one

/-- Write one value or a list of them. -/
def toJson (write : α → Json) : OneOrMany α → Json
  | .many values => .array (values.map write)
  | .one value => write value

@[simp]
theorem toList_map {β : Type} (f : α → β) (values : OneOrMany α) :
    (values.map f).toList = values.toList.map f := by
  cases values <;> rfl

end OneOrMany

/-- A text with what is known about it. -/
structure Label where
  text : Option String
  latexText : Option String
  /-- What stands for the placeholders that no property fills. -/
  default : Option Json
  details : Option String
  info : Option String
  references : Option (List Reference)
  /-- The other members, in order; a property is filled in if its name is set here. -/
  others : Entries Json
deriving DecidableEq, Repr

namespace Label

/-- The names of the fields, in order. -/
def fieldNames : List String :=
  ["text", "latexText", "default", "details", "info", "references"]

/-- Read a label. -/
def ofJson? (value : Json) : Option Label := do
  let fields ← Json.Fields.ofObject? fieldNames value
  let text ← fields.optional? "text" Json.string?
  let latexText ← fields.optional? "latexText" Json.string?
  let default ← fields.optional? "default" fun value => some value.merged
  let details ← fields.optional? "details" Json.string?
  let info ← fields.optional? "info" Json.string?
  let references ← fields.optional? "references" (Json.list? Reference.ofJson?)
  return { text, latexText, default, details, info, references, others := fields.others }

/-- Write a label; fields without a value are left out. -/
def toJson (label : Label) : Json :=
  .object <|
    Json.optionalMember "text" .string label.text
      ++ Json.optionalMember "latexText" .string label.latexText
      ++ Json.optionalMember "default" id label.default
      ++ Json.optionalMember "details" .string label.details
      ++ Json.optionalMember "info" .string label.info
      ++ Json.optionalMember "references" (fun references => .array (references.map Reference.toJson))
        label.references
      ++ label.others

end Label

end ArchDiagram

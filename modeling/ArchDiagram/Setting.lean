/-
# Settings

A switch or a choice that a template offers to whoever looks at the diagram. Two
settings of one view are the same if they have the same `id`.
-/

import ArchDiagram.Json.Fields

namespace ArchDiagram

/-- How a setting is operated. -/
inductive Setting.Kind
  | toggle
  | dropdown
deriving DecidableEq, Repr

/-- A switch or a choice offered to the viewer. -/
structure Setting where
  id : String
  label : String
  /-- The flag of the items that are hidden while the setting is on. -/
  property : Option String
  kind : Option Setting.Kind
  options : List String
  defaultValue : Option Bool
  noRedraw : Option Bool
deriving DecidableEq, Repr

namespace Setting

namespace Kind

/-- The word for a kind. -/
def name : Kind → String
  | .toggle => "toggle"
  | .dropdown => "dropdown"

/-- The kind of a word. -/
def ofName? : String → Option Kind
  | "toggle" => some .toggle
  | "dropdown" => some .dropdown
  | _ => none

/-- A kind is written as its word, or as an object with the word as its only
name and nothing under it. -/
def ofJson? : Json → Option Kind
  | .string name => ofName? name
  | .object [(name, .null)] => ofName? name
  | _ => none

end Kind

/-- The names of the fields, in order. -/
def fieldNames : List String :=
  ["id", "label", "property", "type", "options", "defaultValue", "noRedraw"]

/-- Read a setting. -/
def ofJson? (value : Json) : Option Setting := do
  let fields ← Json.Fields.ofRecord? fieldNames value
  let id ← fields.required? "id" Json.string?
  let label ← fields.defaulted? "label" "" Json.string?
  let property ← fields.optional? "property" Json.string?
  let kind ← fields.optional? "type" Kind.ofJson?
  let options ← fields.defaulted? "options" [] (Json.list? Json.string?)
  let defaultValue ← fields.optional? "defaultValue" Json.bool?
  let noRedraw ← fields.optional? "noRedraw" Json.bool?
  return { id, label, property, kind, options, defaultValue, noRedraw }

/-- Write a setting; fields without a value are left out. -/
def toJson (setting : Setting) : Json :=
  .object <|
    [("id", .string setting.id), ("label", .string setting.label)]
      ++ Json.optionalMember "property" .string setting.property
      ++ Json.optionalMember "type" (fun kind => .string kind.name) setting.kind
      ++ Json.listMember "options" .string setting.options
      ++ Json.optionalMember "defaultValue" .bool setting.defaultValue
      ++ Json.optionalMember "noRedraw" .bool setting.noRedraw

end Setting

end ArchDiagram

/-
# Templates

A template is a reusable piece of a diagram: items of its own and slots in which
other components are placed. Components and details are templates alike.
-/

import ArchDiagram.Item
import ArchDiagram.Json.Source
import ArchDiagram.Setting

namespace ArchDiagram

/-- A place in a template that another component fills. -/
structure Slot where
  component : String
  /-- The name under which an architecture may put something else here. -/
  slotClass : Option String
deriving DecidableEq, Repr

/-- One entry of the content of a template. -/
inductive Content
  | slot (place : Slot)
  | leaf (item : Item)
deriving DecidableEq, Repr

/-- A reusable piece of a diagram. -/
structure Template where
  settings : List Setting
  references : List Reference
  /-- The view every item of the template opens. -/
  details : Option String
  info : Option String
  content : Entries Content
deriving DecidableEq, Repr

namespace Slot

/-- Read a slot. -/
def ofJson? (value : Json) : Option Slot := do
  let fields ← Json.Fields.ofRecord? ["component", "class"] value
  let component ← fields.required? "component" Json.string?
  let slotClass ← fields.optional? "class" Json.string?
  return { component, slotClass }

/-- Write a slot. -/
def toJson (slot : Slot) : Json :=
  .object <|
    [("component", .string slot.component)]
      ++ Json.optionalMember "class" .string slot.slotClass

end Slot

namespace Content

/-- Read an entry: a slot if it can be read as one, and else an item. -/
def ofJson? (value : Json) : Option Content :=
  match Slot.ofJson? value with
  | some place => some (.slot place)
  | none => (Item.ofJson? value).map .leaf

/-- Write an entry. -/
def toJson : Content → Json
  | .slot place => place.toJson
  | .leaf item => item.toJson

end Content

namespace Template

/-- The names of the fields, in order. -/
def fieldNames : List String := ["settings", "references", "details", "info", "content"]

/-- The part of a JSON text a setting is read from. -/
def settingInterest : Json.Interest :=
  .record (Setting.fieldNames.map fun name => (name, .whole))

/-- The part of a JSON text a template is read from. -/
def interest : Json.Interest :=
  .record (("settings", .list settingInterest) :: fieldNames.tail.map fun name => (name, .whole))

/-- Read a template. -/
def ofJson? (value : Json) : Option Template := do
  let fields ← Json.Fields.ofRecord? fieldNames value
  let settings ← fields.defaulted? "settings" [] (Json.list? Setting.ofJson?)
  let references ← fields.defaulted? "references" [] (Json.list? Reference.ofJson?)
  let details ← fields.optional? "details" Json.string?
  let info ← fields.optional? "info" Json.string?
  let content ← fields.defaulted? "content" [] (Json.table? Content.ofJson?)
  return { settings, references, details, info, content }

/-- Write a template; the content is always written. -/
def toJson (template : Template) : Json :=
  .object <|
    Json.listMember "settings" Setting.toJson template.settings
      ++ Json.listMember "references" Reference.toJson template.references
      ++ Json.optionalMember "details" .string template.details
      ++ Json.optionalMember "info" .string template.info
      ++ [("content", .object (template.content.map fun entry => (entry.1, entry.2.toJson)))]

/-- The components named by the slots of some content. -/
def slotNames (content : Entries Content) : List String :=
  content.filterMap fun entry =>
    match entry.2 with
    | .slot place => some place.component
    | .leaf _ => none

/-- The views some content opens. -/
def linkNames (content : Entries Content) : List String :=
  content.flatMap fun entry =>
    match entry.2 with
    | .slot _ => []
    | .leaf item => item.links

/-- The views a template and its content open. -/
def links (template : Template) : List String :=
  template.details.toList ++ linkNames template.content

end Template

end ArchDiagram

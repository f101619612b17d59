/-
# Views

A view is a flattened diagram: items under unique identifiers in drawing order,
with the settings, references and properties that belong to it. Settings and
references are merged so that the first of the same `id` or `title` stays.
-/

import ArchDiagram.Template
import ArchDiagram.Property

namespace ArchDiagram

/-- A flattened diagram. -/
structure View where
  settings : List Setting
  references : List Reference
  properties : Entries Property
  content : Entries Item
deriving DecidableEq, Repr

namespace View

/-- The view with nothing in it. -/
def empty : View := ⟨[], [], [], []⟩

/-- Append values one after the other, leaving out those whose key is there. -/
def mergeBy {α : Type} (key : α → String) (kept added : List α) : List α :=
  added.foldl
    (fun kept value => if kept.any (key · == key value) then kept else kept ++ [value]) kept

/-- Append settings; the first of an `id` stays. -/
def mergeSettings (view : View) (settings : List Setting) : View :=
  { view with settings := mergeBy Setting.id view.settings settings }

/-- Append references; the first of a `title` stays. -/
def mergeReferences (view : View) (references : List Reference) : View :=
  { view with references := mergeBy Reference.title view.references references }

/-- The item of an identifier. -/
def item? (view : View) (ident : String) : Option Item :=
  view.content.lookup ident

/-- Apply a function to every label. -/
def mapLabels (f : Label → Label) (view : View) : View :=
  { view with content := view.content.map fun entry => (entry.1, entry.2.mapLabels f) }

/-- The flags that hide an item while the settings in `enabled` are on. -/
def hidingFlags (view : View) (enabled : List String) : List String :=
  (view.settings.filter fun setting => enabled.contains setting.id).filterMap Setting.property

/-- The items to draw while the settings in `enabled` are on: no flag hides the
item, and the item it is laid out against is in the view. -/
def visibleItems (view : View) (enabled : List String) : Entries Item :=
  let flags := view.hidingFlags enabled
  view.content.filter fun entry =>
    !flags.any entry.2.flag && entry.2.previous.all view.content.has

/-! ## The JSON form -/

/-- The names of the fields, in order. -/
def fieldNames : List String := ["settings", "references", "properties", "content"]

/-- The part of a JSON text a view is read from. -/
def interest : Json.Interest :=
  .record (("settings", .list Template.settingInterest) ::
    fieldNames.tail.map fun name => (name, .whole))

/-- Read a view. -/
def ofJson? (value : Json) : Option View := do
  let fields ← Json.Fields.ofRecord? fieldNames value
  let settings ← fields.defaulted? "settings" [] (Json.list? Setting.ofJson?)
  let references ← fields.defaulted? "references" [] (Json.list? Reference.ofJson?)
  let properties ← fields.defaulted? "properties" [] Property.tableOfJson?
  let content ← fields.defaulted? "content" [] (Json.table? Item.ofJson?)
  return { settings, references, properties, content }

/-- Write a view; all four fields are written. -/
def toJson (view : View) : Json :=
  .object [
    ("settings", .array (view.settings.map Setting.toJson)),
    ("references", .array (view.references.map Reference.toJson)),
    ("properties", Property.tableToJson view.properties),
    ("content", .object (view.content.map fun entry => (entry.1, entry.2.toJson)))]

end View

end ArchDiagram

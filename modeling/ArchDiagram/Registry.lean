/-
# Registries

A registry holds components, details and architectures by name. A component or a
detail must not have a name that ends in an underscore with a number, because
such names stand for instances. A detail that is not there may be a component.
-/

import ArchDiagram.Architecture
import ArchDiagram.Ident
import ArchDiagram.Template

namespace ArchDiagram

/-- Templates and architectures by name. -/
structure Registry where
  components : Entries Template
  details : Entries Template
  architectures : Architectures
deriving DecidableEq, Repr

namespace Registry

/-- What kind of template a name is for. -/
inductive Kind
  | component
  | detail
deriving DecidableEq, Repr

/-- The word for a kind of template. -/
def Kind.word : Kind → String
  | .component => "component"
  | .detail => "detail"

/-- Why a registry cannot be read or a template not be added. -/
inductive Fault
  /-- The text is no JSON or does not have the shape of a registry. -/
  | unreadable
  /-- The name ends in an underscore with a number. -/
  | reservedSuffix (kind : Kind) (name : String)
deriving DecidableEq, Repr

/-- The words for a fault. -/
def Fault.message : Fault → String
  | .unreadable => "<json>"
  | .reservedSuffix kind name =>
      let word := kind.word
      s!"{word} name `{name}` ends in `_<digits>`, which is reserved for repeated instances"

/-- The registry without templates and architectures. -/
def empty : Registry := ⟨[], [], []⟩

/-- Add a component. -/
def insertComponent (registry : Registry) (name : String) (template : Template) :
    Except Fault Registry :=
  if Ident.hasReservedSuffix name then .error (.reservedSuffix .component name)
  else .ok { registry with components := registry.components.put name template }

/-- Add a detail. -/
def insertDetail (registry : Registry) (name : String) (template : Template) :
    Except Fault Registry :=
  if Ident.hasReservedSuffix name then .error (.reservedSuffix .detail name)
  else .ok { registry with details := registry.details.put name template }

/-- Add an architecture. -/
def insertArchitecture (registry : Registry) (name : String) (architecture : Architecture) :
    Registry :=
  { registry with architectures := registry.architectures.put name architecture }

/-- Add architectures in order, replacing those of the same names. -/
def mergeArchitectures (registry : Registry) (architectures : Architectures) : Registry :=
  { registry with architectures := registry.architectures.putAll architectures }

/-- The component of a name. -/
def component? (registry : Registry) (name : String) : Option Template :=
  registry.components.lookup name

/-- The detail of a name, or else the component of that name. -/
def detail? (registry : Registry) (name : String) : Option Template :=
  (registry.details.lookup name).orElse fun _ => registry.components.lookup name

/-- The architecture of a name. -/
def architecture? (registry : Registry) (name : String) : Option Architecture :=
  registry.architectures.lookup name

/-- The component an instance name stands for. -/
def instanceOf? (registry : Registry) (name : String) : Option Template :=
  registry.component? (Ident.templateKey name)

/-- The detail an instance name stands for. -/
def detailOf? (registry : Registry) (name : String) : Option Template :=
  registry.detail? (Ident.templateKey name)

/-- All templates, components first. -/
def templates (registry : Registry) : List Template :=
  (registry.components ++ registry.details).map Prod.snd

/-- The components named by the slots of any template. -/
def slotNames (registry : Registry) : List String :=
  registry.templates.flatMap fun template => Template.slotNames template.content

/-- The views any template opens. -/
def linkNames (registry : Registry) : List String :=
  registry.templates.flatMap Template.links

/-! ## Reading -/

/-- The names of the fields of a registry, in order. -/
def fieldNames : List String := ["components", "details", "architectures"]

/-- The part of a JSON text a registry is read from. -/
def interest : Json.Interest :=
  .record [("components", .table Template.interest), ("details", .table Template.interest),
    ("architectures", .whole)]

/-- Read the three parts of a registry. -/
def partsOfJson? (value : Json) : Option Registry := do
  let fields ← Json.Fields.ofRecord? fieldNames value
  let components ← fields.defaulted? "components" [] (Json.table? Template.ofJson?)
  let details ← fields.defaulted? "details" [] (Json.table? Template.ofJson?)
  let architectures ← fields.defaulted? "architectures" [] (Json.table? Architecture.ofJson?)
  return { components, details, architectures }

/-- Add the templates and architectures of `parts` in order. -/
def ofParts (parts : Registry) : Except Fault Registry := do
  let registry ← parts.components.foldlM (fun kept entry => kept.insertComponent entry.1 entry.2) empty
  let registry ← parts.details.foldlM (fun kept entry => kept.insertDetail entry.1 entry.2) registry
  return { registry with architectures := parts.architectures }

/-- Read a registry. -/
def ofText (text : String) : Except Fault Registry :=
  match (Json.read? interest text).bind partsOfJson? with
  | some parts => ofParts parts
  | none => .error .unreadable

end Registry

end ArchDiagram

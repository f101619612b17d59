/-
# Lint

Mistakes that resolution passes over in silence: names without a template,
anchors that lead nowhere, and components that contain each other. Nothing is
changed. Findings come template by template, components before details, then
architecture by architecture, and the cycles come last.
-/

import ArchDiagram.Graph
import ArchDiagram.Json.Basic
import ArchDiagram.Registry

namespace ArchDiagram

/-- How much a finding matters. -/
inductive Severity
  /-- Something will be missing in the diagram. -/
  | warning
  /-- Resolution does something else than what is written. -/
  | info
deriving DecidableEq, Repr

/-- The word for a severity. -/
def Severity.word : Severity → String
  | .warning => "warning"
  | .info => "info"

/-- What is wrong. -/
inductive Mistake
  /-- No component stands behind a name. -/
  | missingComponent (component : String)
  /-- No detail stands behind a name. -/
  | missingDetail (detail : String)
  /-- The first item asks for a place, which it does not get. -/
  | firstItemPrevious (key previous : String)
  /-- An anchor is no earlier item. -/
  | danglingPrevious (key previous : String)
  /-- Components contain each other. -/
  | componentCycle (members : List String)
deriving DecidableEq, Repr

/-- A mistake and the template or architecture it is in. -/
structure Finding where
  subject : String
  mistake : Mistake
deriving DecidableEq, Repr

namespace Finding

/-- The name of the rule that is broken. -/
def rule (finding : Finding) : String :=
  match finding.mistake with
  | .missingComponent _ => "missing-component"
  | .missingDetail _ => "missing-detail"
  | .firstItemPrevious _ _ => "first-item-previous"
  | .danglingPrevious _ _ => "dangling-previous"
  | .componentCycle _ => "component-cycle"

/-- How much the finding matters. -/
def severity (finding : Finding) : Severity :=
  match finding.mistake with
  | .firstItemPrevious _ _ => .info
  | _ => .warning

/-- The message for a finding. -/
def message (finding : Finding) : String :=
  match finding.mistake with
  | .missingComponent component => s!"Component `{component}` is not defined."
  | .missingDetail detail => s!"Detail `{detail}` is not defined."
  | .firstItemPrevious key previous =>
      s!"First item `{key}` declares previous `{previous}`; "
        ++ "it is replaced by the preceding placement."
  | .danglingPrevious key previous =>
      s!"`{key}` points at `{previous}`, which is not an earlier item of `{finding.subject}`; "
        ++ "the link is dropped."
  | .componentCycle members =>
      let listed := " → ".intercalate members
      s!"Components {listed} reference each other; the repeated branch is skipped."

/-- Write a finding. -/
def toJson (finding : Finding) : Json :=
  .object [
    ("subject", .string finding.subject),
    ("rule", .string finding.rule),
    ("severity", .string finding.severity.word),
    ("message", .string finding.message)]

/-- The line for a finding. -/
def text (finding : Finding) : String :=
  s!"{finding.severity.word}[{finding.rule}] {finding.subject}: {finding.message}\n"

end Finding

namespace Template

/-- What is wrong with the anchors of some content, of which the items named in
`earlier` come before. An arrow may start at its own item. -/
def anchorMistakes (isFirst : Bool) (earlier : List String) : Entries Content → List Mistake
  | [] => []
  | (_, .slot _) :: rest => anchorMistakes false earlier rest
  | (key, .leaf item) :: rest =>
      let own :=
        match isFirst, item.previous with
        | _, none => []
        | true, some previous => [.firstItemPrevious key previous]
        | false, some previous =>
            if previous ∈ earlier then [] else [.danglingPrevious key previous]
      let placed := key :: earlier
      let drawn := (item.arrows.filterMap Arrow.previous).filter fun previous => previous ∉ placed
      own ++ drawn.map (.danglingPrevious key ·) ++ anchorMistakes false placed rest

end Template

namespace Architecture

/-- The components an entry of an architecture names, in order. -/
def componentsOf (key : String) : Override → List String
  | .default => [key]
  | .nested children => key :: Override.replacementsIn children
  | .swap replacement overrides => Override.replacements (.swap replacement overrides)
  | .references _ | .properties _ | .settings _ => []

/-- The components an architecture names, in order. -/
def componentNames (architecture : Architecture) : List String :=
  architecture.entries.flatMap fun entry => componentsOf entry.1 entry.2

end Architecture

namespace Registry

/-- The names among some for which there is no component. -/
def missingComponents (registry : Registry) (names : List String) : List Mistake :=
  (names.filter fun name => (registry.instanceOf? name).isNone).map .missingComponent

/-- The names among some for which there is no detail, each once. -/
def missingDetails (registry : Registry) (names : List String) : List Mistake :=
  (names.eraseDups.filter fun name => (registry.detailOf? name).isNone).map .missingDetail

/-- What is wrong with a template. -/
def templateMistakes (registry : Registry) (template : Template) : List Mistake :=
  registry.missingComponents (Template.slotNames template.content)
    ++ registry.missingDetails template.links
    ++ Template.anchorMistakes true [] template.content

/-- The components placed directly in each component, once each, the one that is
placed last first. -/
def containment (registry : Registry) : Graph :=
  registry.components.map fun entry =>
    let placed := (Template.slotNames entry.2.content).map Ident.templateKey
    (entry.1, (placed.filter registry.components.has).eraseDups.reverse)

/-- The finding for a cycle, under the first of its members in alphabetical order. -/
def cycleFinding (members : List String) : Option Finding :=
  match members.mergeSort fun a b => !decide (b < a) with
  | [] => none
  | first :: rest => some ⟨first, .componentCycle (first :: rest)⟩

/-- All findings. -/
def lint (registry : Registry) : List Finding :=
  (registry.components ++ registry.details).flatMap (fun entry =>
      (registry.templateMistakes entry.2).map (Finding.mk entry.1))
    ++ registry.architectures.flatMap (fun entry =>
      (registry.missingComponents entry.2.componentNames).map (Finding.mk entry.1))
    ++ registry.containment.cycles.filterMap cycleFinding

end Registry

end ArchDiagram

/-
# Running commands

What a command prints, given the files it may read. The file `-` is the standard
input, which is read to its end by its first use and is empty afterwards.
-/

import ArchDiagram.Command
import ArchDiagram.Document
import ArchDiagram.FileTree
import ArchDiagram.Lint
import ArchDiagram.Placeholder
import ArchDiagram.Session

namespace ArchDiagram.Command

/-- What can be read: the files by their paths, and the standard input. -/
structure Sources where
  file : String → Except FileTree.Fault String
  input : Except FileTree.Fault String

/-- Why a command fails. -/
inductive Failure
  | unreadableFile (path : String) (fault : FileTree.Fault)
  | unreadableInput (fault : FileTree.Fault)
  | registry (fault : Registry.Fault)
  /-- The document to be parsed or written anew cannot be. -/
  | document (fault : Document.Fault)
  /-- The document to be added to a registry cannot be read. -/
  | addedDocument (path : String) (fault : Document.Fault)
  | viewMissing (name : String)
deriving DecidableEq, Repr

/-- The message for a failure. -/
def Failure.message : Failure → String
  | .unreadableFile path fault => s!"failed to read '{path}': {fault.message}"
  | .unreadableInput fault => s!"failed to read stdin: {fault.message}"
  | .registry fault => fault.message
  | .document fault => fault.message
  | .addedDocument path fault => s!"{path}: {fault.message}"
  | .viewMissing name => s!"no architecture or detail named '{name}'"

/-- The message for a command that failed. -/
def failureText (command : Command) (failure : Failure) : String :=
  s!"archview {command.word} error: {failure.message}"

/-- What a command prints or why it fails, and what there is to report. -/
structure Result where
  printed : Except Failure String
  events : List Event
deriving Repr

/-- A text and the sources it leaves. -/
def Sources.read (sources : Sources) (path : String) : Except Failure (String × Sources) :=
  if path = "-" then
    (sources.input.mapError .unreadableInput).map fun text => (text, { sources with input := .ok "" })
  else
    (sources.file path).mapError (.unreadableFile path) |>.map fun text => (text, sources)

/-- A registry with the architectures of a document. -/
def loadRegistry (sources : Sources) (path : String) (document : Option String) :
    Except Failure Registry := do
  let (text, sources) ← sources.read path
  let registry ← (Registry.ofText text).mapError .registry
  match document with
  | none => return registry
  | some document =>
      let (text, _) ← sources.read document
      let architectures ← (Document.parse text).mapError (.addedDocument document)
      return registry.mergeArchitectures architectures

/-- A JSON value as it is printed. -/
def printJson (value : Json) : String := value.pretty ++ "\n"

/-- The view of a name as it is printed, with the navigation that building it leaves. -/
def printView (registry : Registry) (name : String) (fill : Bool) : Result :=
  let answer := (Session.start Store.empty).viewOf registry name
  let printed : Except Failure String :=
    match answer.view with
    | none => .error (.viewMissing name)
    | some view =>
        let shown := if fill then view.fill else view
        .ok <| printJson <| .object [
          ("view", shown.toJson),
          ("navigation", answer.session.store.navigation.toJson)]
  ⟨printed, answer.events⟩

/-- Findings as they are printed. -/
def printFindings (findings : List Finding) (json : Bool) : String :=
  if json then printJson (.array (findings.map Finding.toJson))
  else String.join (findings.map Finding.text)

/-- Run a command. -/
def run (command : Command) (sources : Sources) : Result :=
  match command with
  | .parse file =>
      let printed := do
        let (text, _) ← sources.read file
        let architectures ← (Document.parse text).mapError .document
        return printJson (Architecture.tableToJson architectures)
      ⟨printed, []⟩
  | .format file indent =>
      match sources.read file with
      | .error failure => ⟨.error failure, []⟩
      | .ok (text, _) =>
          let (events, text) := Document.reformat indent text
          ⟨text.mapError .document, events⟩
  | .resolve name registry document fill =>
      match loadRegistry sources registry document with
      | .error failure => ⟨.error failure, []⟩
      | .ok registry => printView registry name fill
  | .lint registry json =>
      ⟨(loadRegistry sources registry none).map fun registry => printFindings registry.lint json, []⟩

end ArchDiagram.Command

/-
# Viewers

A viewer serves a registry to a display. It keeps the views it has built until a
document that defines an architecture of their name is loaded or they are
dropped. Every request is answered by a JSON object that says whether it could be
served.
-/

import ArchDiagram.Document
import ArchDiagram.Placeholder
import ArchDiagram.Session

namespace ArchDiagram

/-- A registry and the views built from it. -/
structure Viewer where
  registry : Registry
  store : Store
deriving Repr

namespace Viewer

/-- Why a request is not served. -/
inductive Refusal
  | document (fault : Document.Fault)
  | unwritable (fault : StructureFault)
  | viewMissing (name : String)
  | architectureMissing (name : String)
deriving DecidableEq, Repr

/-- The message for a refusal. -/
def Refusal.message : Refusal → String
  | .document fault => fault.message
  | .unwritable fault => fault.message
  | .viewMissing name => s!"no architecture or detail named '{name}'"
  | .architectureMissing name => s!"no architecture named '{name}'"

/-- The answer to a request: what is served or why not, and what there is to report. -/
structure Reply where
  served : Except Refusal (List (String × Json))
  events : List Event
deriving Repr

/-- An answer with nothing to report. -/
def Reply.quiet (served : Except Refusal (List (String × Json))) : Reply := ⟨served, []⟩

/-- Write an answer. -/
def Reply.toJson (reply : Reply) : Json :=
  match reply.served with
  | .ok members => .object (("ok", .bool true) :: members)
  | .error refusal => .object [("ok", .bool false), ("error", .string refusal.message)]

/-- The indentation of the documents a viewer writes. -/
def indent : Nat := 4

/-- The viewer of a registry, without views. -/
def start (registry : Registry) : Viewer := ⟨registry, Store.empty⟩

/-- Add architectures, dropping the views of their names. -/
def addArchitectures (viewer : Viewer) (architectures : Architectures) : Viewer :=
  { registry := viewer.registry.mergeArchitectures architectures
    store := (Entries.names architectures).foldl Store.invalidate viewer.store }

/-- Load the architectures of a document. -/
def load (viewer : Viewer) (text : String) : Viewer × Reply :=
  match Document.parse text with
  | .error fault => (viewer, .quiet (.error (.document fault)))
  | .ok architectures =>
      let names := (Entries.names architectures).map Json.string
      (viewer.addArchitectures architectures, .quiet (.ok [("names", .array names)]))

/-- The view of a name, built if need be, with its placeholders filled. -/
def view (viewer : Viewer) (name : String) : Viewer × Reply :=
  let answer := (Session.start viewer.store).viewOf viewer.registry name
  let served : Except Refusal (List (String × Json)) :=
    match answer.view with
    | none => .error (.viewMissing name)
    | some view => .ok [("view", view.fill.toJson)]
  ({ viewer with store := answer.session.store }, ⟨served, answer.events⟩)

/-- The navigation between the views, and the views nothing leads to. -/
def navigation (viewer : Viewer) : Reply :=
  let navigation := viewer.store.navigation
  .quiet (.ok [
    ("navigation", navigation.toJson),
    ("roots", .array (navigation.roots.map .string))])

/-- A document as an answer. -/
def replyText (events : List Event) (text : Except Refusal String) : Reply :=
  ⟨text.map fun text => [("text", .string text)], events⟩

/-- The document of one architecture. -/
def serialize (viewer : Viewer) (name : String) : Reply :=
  match viewer.registry.architecture? name with
  | none => .quiet (.error (.architectureMissing name))
  | some architecture =>
      let printout := Document.printArchitecture indent name architecture
      replyText printout.events (printout.text.mapError .unwritable)

/-- Drop a view; the answer is whether there was one. -/
def invalidate (viewer : Viewer) (name : String) : Viewer × Bool :=
  ({ viewer with store := viewer.store.invalidate name }, viewer.store.contains name)

/-- The architectures of a document in the form of a registry. -/
def parse (text : String) : Reply :=
  .quiet <|
    match Document.parse text with
    | .error fault => .error (.document fault)
    | .ok architectures => .ok [("architectures", Architecture.tableToJson architectures)]

/-- A document written anew. -/
def reformat (text : String) : Reply :=
  let (events, text) := Document.reformat indent text
  replyText events (text.mapError .document)

end Viewer

end ArchDiagram

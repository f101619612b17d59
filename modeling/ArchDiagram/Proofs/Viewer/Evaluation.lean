/-
# Evaluating requests

How many expansions can stand inside each other is known before a view is opened. So a
request can be served by a recursion on that number, and what a fixed viewer does can be
evaluated.
-/

import ArchDiagram.Proofs.Nesting
import ArchDiagram.Proofs.Viewer.Requests

namespace ArchDiagram.Viewer

/-- Ask for a view, with as many expansions inside each other as names can tell apart. -/
def viewBounded (viewer : Viewer) (name : String) : Option (Viewer × Reply) :=
  ((Session.start viewer.store).viewOfWithin viewer.registry name
    (viewer.registry.nestingBound (name :: viewer.registry.idents))).map fun answer =>
      ({ viewer with store := answer.session.store },
        ⟨match answer.view with
          | none => .error (.viewMissing name)
          | some view => .ok [("view", view.fill.toJson)], answer.events⟩)

theorem viewBounded_eq (viewer : Viewer) (name : String) :
    viewer.viewBounded name = some (viewer.view name) := by
  have hends : Session.Ends _ viewer.registry (name :: viewer.registry.idents) _ _ _ :=
    (Session.start viewer.store).ends_viewOf (fun _ => List.mem_cons_of_mem _) List.mem_cons_self
  rw [viewBounded, hends.within _ le_rfl]
  rfl

/-- What the evaluation of a request for a view says holds of the request. -/
theorem eq_of_viewBounded {α : Type} {viewer : Viewer} {name : String} (f : Viewer × Reply → α)
    {value : α} (h : (viewer.viewBounded name).map f = some value) :
    f (viewer.view name) = value := by
  rwa [viewBounded_eq, Option.map_some, Option.some_inj] at h

/-- Serve a request that leaves the registry as it is. -/
def visitBounded (viewer : Viewer) : Visit → Option Viewer
  | .view name => (viewer.viewBounded name).map Prod.fst
  | .invalidate name => some (viewer.invalidate name).1
  | .navigation => some viewer

theorem visitBounded_eq (viewer : Viewer) (visit : Visit) :
    viewer.visitBounded visit = some (viewer.visit visit) := by
  cases visit with
  | view name => rw [visitBounded, viewBounded_eq, Option.map_some]; rfl
  | invalidate name | navigation => rfl

/-- Serve requests that leave the registry as it is. -/
def visitAllBounded (viewer : Viewer) : List Visit → Option Viewer
  | [] => some viewer
  | visit :: rest => (viewer.visitBounded visit).bind fun viewer => viewer.visitAllBounded rest

theorem visitAllBounded_eq (viewer : Viewer) (visits : List Visit) :
    viewer.visitAllBounded visits = some (viewer.visitAll visits) := by
  induction visits generalizing viewer with
  | nil => rfl
  | cons visit rest ih =>
      rw [visitAllBounded, visitBounded_eq, Option.bind_some, ih]
      rfl

/-- The answer of a viewer that is asked for a view after some other requests. -/
def answerBounded (viewer : Viewer) (visits : List Visit) (name : String) : Option Json :=
  (viewer.visitAllBounded visits).bind fun viewer =>
    (viewer.viewBounded name).map fun served => served.2.toJson

theorem answerBounded_eq (viewer : Viewer) (visits : List Visit) (name : String) :
    viewer.answerBounded visits name = some ((viewer.visitAll visits).view name).2.toJson := by
  rw [answerBounded, visitAllBounded_eq, Option.bind_some, viewBounded_eq, Option.map_some]

/-- The same, when another view has been asked for. -/
theorem answerBounded_view (viewer : Viewer) (root name : String) :
    viewer.answerBounded [.view root] name = some ((viewer.view root).1.view name).2.toJson :=
  answerBounded_eq viewer [.view root] name

end ArchDiagram.Viewer

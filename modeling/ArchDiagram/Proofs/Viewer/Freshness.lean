/-
# Views of architectures are never stale

A viewer keeps the view of an architecture until a document defines it anew. If no
link names the architecture, then whatever a viewer has been asked for before, it shows
the view that a new viewer of the same registry shows (`toJson_view_eq_start`): no
detail is ever kept under the name, and loading the name drops what was kept.
-/

import ArchDiagram.Proofs.Viewer.Drilling
import ArchDiagram.Proofs.Viewer.Requests

namespace ArchDiagram

namespace Viewer

/-- Every view that is kept under a name that no link names is the view of that name by
itself. -/
def UpToDate (viewer : Viewer) : Prop :=
  ∀ name view, name ∉ viewer.registry.linkNames → viewer.store.get? name = some view →
    viewer.registry.viewAlone? name = some view

variable {viewer : Viewer}

theorem upToDate_start (registry : Registry) : (start registry).UpToDate := by
  intro name view _ hkept
  simp [start] at hkept

/-- An up-to-date viewer shows under such a name what is opened. -/
theorem UpToDate.shown? (h : viewer.UpToDate) {name : String}
    (hlinks : name ∉ viewer.registry.linkNames) :
    viewer.shown? name = viewer.registry.viewAlone? name := by
  unfold Viewer.shown?
  cases hkept : viewer.store.get? name with
  | none => rfl
  | some view => rw [h name view hlinks hkept, Option.some_or]

theorem UpToDate.view (h : viewer.UpToDate) (name : String) : (viewer.view name).1.UpToDate := by
  intro other view hlinks hview
  rcases get?_or_opens_of_get?_view hview with hkept | hopens
  · exact h other view hlinks hkept
  -- a view that is built on the way is the view of a link
  · exact hopens.viewAlone?_eq hlinks

theorem UpToDate.visit (h : viewer.UpToDate) (visit : Visit) : (viewer.visit visit).UpToDate := by
  cases visit with
  | view name => exact h.view name
  | invalidate name =>
      exact fun other view hlinks hview => h other view hlinks (Store.get?_of_get?_invalidate hview)
  | navigation => exact h

theorem UpToDate.load (h : viewer.UpToDate) (text : String) : (viewer.load text).1.UpToDate := by
  cases hparse : Document.parse text with
  | error fault => rwa [load_of_fault hparse]
  | ok architectures =>
      rw [load_of_parse hparse]
      intro name view hlinks hview
      rw [get?_addArchitectures] at hview
      split at hview
      · simp at hview
      -- an architecture that is not loaded stays what it is, and so does its view
      · rename_i hother
        change (viewer.registry.mergeArchitectures architectures).viewAlone? name = some view
        rw [Registry.viewAlone?, Registry.opening?_mergeArchitectures hother]
        exact h name view hlinks hview

theorem UpToDate.serveAll (h : viewer.UpToDate) (requests : List Request) :
    (viewer.serveAll requests).UpToDate := by
  induction requests generalizing viewer with
  | nil => exact h
  | cons request rest ih =>
      cases request with
      | load text => exact ih (h.load text)
      | visit visit => exact ih (h.visit visit)

/-- Whatever a viewer has been asked for, it shows an architecture that no link names, or any
other such name, as a new viewer of the same registry does. -/
theorem toJson_view_eq_start (registry : Registry) (requests : List Request) (name : String)
    (hlinks : name ∉ ((start registry).serveAll requests).registry.linkNames) :
    (((start registry).serveAll requests).view name).2.toJson =
      ((start ((start registry).serveAll requests).registry).view name).2.toJson := by
  have hrun := (upToDate_start registry).serveAll requests
  have hnew := upToDate_start ((start registry).serveAll requests).registry
  rw [toJson_view, toJson_view, hrun.shown? hlinks, hnew.shown? hlinks]
  rfl

/-- A unit that has been opened by itself, and is then loaded as an architecture. -/
theorem toJson_view_unit :
    let requests : List Request := [.visit (.view "unit"), .load "unit:\n    unit\n    unit_1\n",
      .visit (.view "plan"), .visit (.invalidate "inside")]
    let viewer := (start Registry.drillable).serveAll requests
    (viewer.registry.architecture? "unit").isSome ∧ "unit" ∉ viewer.registry.linkNames ∧
      (viewer.view "unit").2.toJson = ((start viewer.registry).view "unit").2.toJson :=
  ⟨by decide +kernel, by decide +kernel,
    toJson_view_eq_start .drillable _ "unit" (by decide +kernel)⟩

end Viewer

end ArchDiagram

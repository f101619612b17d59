/-
# Opening views

A viewer shows the view that it keeps under a name, and else opens one: the flattening
of the architecture of that name, or of the detail by itself (`toJson_view`). What is
opened depends on the registry alone; the store only decides which other views are
built on the way (`view_cases`).
-/

import ArchDiagram.Proofs.Linking
import ArchDiagram.Viewer

namespace ArchDiagram

/-- What is set out with when a view is opened: the properties that its details inherit,
the details being built, and the expansion whose steps are to be carried out. -/
structure Opening where
  properties : Entries Property
  building : List String
  expanded : Expansion

namespace Registry

/-- What is opened under a name: its architecture, or else its detail. -/
def opening? (registry : Registry) (name : String) : Option Opening :=
  match registry.architecture? name with
  | some architecture =>
      some ⟨architecture.properties, [], registry.expandEntries View.empty architecture.entries⟩
  | none =>
      (registry.detailOf? name).map fun template =>
        ⟨[], [name], registry.expandTemplate name template [] [] (blankView [])⟩

/-- The view of a name by itself. -/
def viewAlone? (registry : Registry) (name : String) : Option View :=
  (registry.opening? name).map fun opening => opening.expanded.view

/-- The store when the steps of an opening have been carried out. -/
def carriedOut (registry : Registry) (name : String) (opening : Opening) (store : Store) : Store :=
  (registry.perform opening.properties name opening.building (store.resetNavigation name)
    opening.expanded.steps).store

variable {registry : Registry} {name : String}

theorem opening?_of_architecture {architecture : Architecture}
    (h : registry.architecture? name = some architecture) :
    registry.opening? name = some ⟨architecture.properties, [],
      registry.expandEntries View.empty architecture.entries⟩ := by
  rw [opening?, h]

theorem opening?_of_detail (harchitecture : registry.architecture? name = none)
    {template : Template} (h : registry.detailOf? name = some template) :
    registry.opening? name = some ⟨[], [name],
      registry.expandTemplate name template [] [] (blankView [])⟩ := by
  rw [opening?, harchitecture, h]
  rfl

/-- What is opened asks only for views that the registry names. -/
theorem mem_linkNames_of_attached_opening {opening : Opening} {other : String}
    (hopening : registry.opening? name = some opening)
    (h : other ∈ Step.attached opening.expanded.steps) : other ∈ registry.linkNames := by
  unfold opening? at hopening
  cases harchitecture : registry.architecture? name with
  | some architecture =>
      rw [harchitecture] at hopening
      obtain rfl := Option.some_inj.mp hopening
      exact mem_linkNames_of_attached_expandEntries h
  | none =>
      rw [harchitecture] at hopening
      obtain ⟨template, hfound, rfl⟩ := Option.map_eq_some_iff.mp hopening
      exact mem_linkNames_of_attached_expandTemplate (detailOf?_mem hfound) h

end Registry

namespace Viewer

variable {viewer : Viewer} {name : String}

/-- The view that is shown under a name, if there is one: the one that is kept, or else
the one that is opened. -/
def shown? (viewer : Viewer) (name : String) : Option View :=
  (viewer.store.get? name).or (viewer.registry.viewAlone? name)

theorem shown?_of_get? {view : View} (h : viewer.store.get? name = some view) :
    viewer.shown? name = some view := by
  rw [shown?, h, Option.some_or]

/-- The answer that shows a view under a name. -/
def answer (name : String) : Option View → Json
  | some view => .object [("ok", .bool true), ("view", view.fill.toJson)]
  | none => .object [("ok", .bool false), ("error", .string (Refusal.viewMissing name).message)]

theorem view_resolve (store : Store) (registry : Registry) (name : String) :
    ((Session.start store).resolve registry name).view = registry.viewAlone? name := by
  unfold Session.resolve Session.resolveArchitecture Session.resolveDetail Registry.viewAlone?
    Registry.opening?
  cases harchitecture : registry.architecture? name with
  | some architecture => simp
  | none => cases hdetail : registry.detailOf? name <;> simp [Session.start]

/-- A viewer answers with the view that is shown. -/
theorem toJson_view (viewer : Viewer) (name : String) :
    (viewer.view name).2.toJson = answer name (viewer.shown? name) := by
  have hview : ((Session.start viewer.store).viewOf viewer.registry name).view =
      viewer.shown? name := by
    unfold Session.viewOf shown?
    cases hkept : viewer.store.get? name with
    | some view => simp [Session.start, hkept]
    | none =>
        rw [Option.none_or, ← view_resolve viewer.store]
        simp only [Session.start, hkept]
        cases hbuilt : (Session.resolve ⟨viewer.store, []⟩ viewer.registry name).view <;>
          simp [hbuilt]
  simp only [view, Reply.toJson, hview]
  cases viewer.shown? name <;> rfl

/-- A view that is kept is shown as it is, and nothing changes. -/
theorem view_of_get? {view : View} (h : viewer.store.get? name = some view) :
    (viewer.view name).1 = viewer := by
  simp [Viewer.view, Session.viewOf, Session.start, h]

/-- Where nothing can be opened, nothing changes. -/
theorem view_of_opening?_eq_none (h : viewer.registry.opening? name = none) :
    (viewer.view name).1 = viewer := by
  cases hkept : viewer.store.get? name with
  | some view => exact view_of_get? hkept
  | none =>
      have harchitecture : viewer.registry.architecture? name = none := by
        cases hfound : viewer.registry.architecture? name with
        | none => rfl
        | some architecture => simp [Registry.opening?_of_architecture hfound] at h
      have hdetail : viewer.registry.detailOf? name = none := by
        cases hfound : viewer.registry.detailOf? name with
        | none => rfl
        | some template => simp [Registry.opening?_of_detail harchitecture hfound] at h
      simp [Viewer.view, Session.viewOf, Session.start, Session.resolve, Session.resolveDetail,
        hkept, harchitecture, hdetail]

/-- A view that is opened is kept after its steps have been carried out. -/
theorem view_of_opening {opening : Opening} (hkept : viewer.store.get? name = none)
    (h : viewer.registry.opening? name = some opening) :
    (viewer.view name).1 = { viewer with
      store := (viewer.registry.carriedOut name opening viewer.store).insert name
        opening.expanded.view } := by
  unfold Registry.opening? at h
  -- a detail is opened with its own name being built, an architecture with none
  cases harchitecture : viewer.registry.architecture? name with
  | some architecture =>
      rw [harchitecture] at h
      obtain rfl := Option.some_inj.mp h
      simp [Viewer.view, Session.viewOf, Session.start, Session.resolve,
        Session.resolveArchitecture, Registry.carriedOut, hkept, harchitecture]
  | none =>
      rw [harchitecture] at h
      obtain ⟨template, hfound, rfl⟩ := Option.map_eq_some_iff.mp h
      simp [Viewer.view, Session.viewOf, Session.start, Session.resolve, Session.resolveDetail,
        Registry.carriedOut, hkept, harchitecture, hfound]

/-- What asking for a view can do: nothing, if it is kept or cannot be opened, and else it is
opened. -/
theorem view_cases (viewer : Viewer) (name : String) :
    ((viewer.view name).1 = viewer ∧
      (viewer.store.contains name ∨ viewer.registry.opening? name = none)) ∨
    ∃ opening, viewer.store.get? name = none ∧ viewer.registry.opening? name = some opening ∧
      (viewer.view name).1 = { viewer with
        store := (viewer.registry.carriedOut name opening viewer.store).insert name
          opening.expanded.view } := by
  cases hkept : viewer.store.get? name with
  | some view => exact Or.inl ⟨view_of_get? hkept, Or.inl (Store.contains_iff.mpr ⟨view, hkept⟩)⟩
  | none =>
      cases hopening : viewer.registry.opening? name with
      | none => exact Or.inl ⟨view_of_opening?_eq_none hopening, Or.inr rfl⟩
      | some opening => exact Or.inr ⟨opening, rfl, rfl, view_of_opening hkept hopening⟩

/-- Asking for a view keeps it, together with everything that was kept. -/
theorem contains_view {root : String}
    (h : viewer.store.contains name ∨ name = root ∧ (viewer.registry.viewAlone? name).isSome) :
    (viewer.view root).1.store.contains name := by
  rcases viewer.view_cases root with ⟨hsame, hroot⟩ | ⟨opening, -, -, hopened⟩
  · rw [hsame]
    rcases h with hkept | ⟨rfl, hview⟩
    · exact hkept
    · refine hroot.resolve_right fun hnone => ?_
      simp [Registry.viewAlone?, hnone] at hview
  · rw [hopened, Store.contains_insert]
    exact h.imp (fun hkept => Registry.contains_perform_of_contains (by simpa using hkept)) And.left

end Viewer

end ArchDiagram

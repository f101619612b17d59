/-
# Requests to a viewer

A viewer is asked to load documents and to show, drop and list views, in any order.
Loading changes the architectures of the registry and drops the views of their names;
everything else leaves the registry as it is. What an expansion does depends on the
components alone, so a view whose architecture is not loaded anew is opened as before
(`Registry.opening?_mergeArchitectures`).
-/

import ArchDiagram.Proofs.Flattening
import ArchDiagram.Proofs.Viewer.Opening

namespace ArchDiagram

namespace Entries

universe u

variable {α : Type u} {entries : Entries α} {name : String} {pairs : List (String × α)}

theorem lookup_putAll_of_notMem (h : name ∉ names pairs) :
    (putAll entries pairs).lookup name = entries.lookup name := by
  have hnone : pairs.reverse.lookup name = none :=
    lookup_eq_none_iff_notMem.mpr (by simpa [names] using h)
  rw [lookup_putAll, hnone, Option.none_or]

theorem mem_names_putAll : name ∈ names (putAll entries pairs) ↔
    name ∈ names entries ∨ name ∈ names pairs := by
  induction pairs generalizing entries with
  | nil => simp [putAll, names]
  | cons pair rest ih =>
      change name ∈ names (putAll (put entries pair.1 pair.2) rest) ↔ _
      rw [ih, mem_names_put, or_assoc]
      simp [names]

end Entries

/-- What drops several views drops each of them and no other one. -/
theorem Store.get?_foldl_invalidate (store : Store) (names : List String) (name : String) :
    (names.foldl Store.invalidate store).get? name =
      if name ∈ names then none else store.get? name := by
  induction names generalizing store with
  | nil => simp
  | cons first rest ih =>
      rw [List.foldl_cons, ih]
      by_cases hrest : name ∈ rest
      · simp [hrest]
      · by_cases hfirst : name = first
        · simp [hfirst]
        · simp [hrest, hfirst, Store.get?_invalidate_of_ne]

namespace Registry

variable {registry : Registry} {architectures : Architectures} {name : String}

/-! ### What does not depend on the architectures -/

theorem architecture?_mergeArchitectures_of_notMem (h : name ∉ Entries.names architectures) :
    (registry.mergeArchitectures architectures).architecture? name = registry.architecture? name :=
  Entries.lookup_putAll_of_notMem h

theorem isSome_architecture?_mergeArchitectures (h : name ∈ Entries.names architectures) :
    ((registry.mergeArchitectures architectures).architecture? name).isSome := by
  rw [architecture?, ← Entries.mem_names_iff_lookup_isSome]
  exact Entries.mem_names_putAll.mpr (Or.inr h)

/-- A name that is not merged opens what it opened before. -/
theorem opening?_mergeArchitectures (h : name ∉ Entries.names architectures) :
    (registry.mergeArchitectures architectures).opening? name = registry.opening? name := by
  have hdetail : (registry.mergeArchitectures architectures).detailOf? name =
      registry.detailOf? name := rfl
  have hsame : (registry.mergeArchitectures architectures).components = registry.components := rfl
  simp only [opening?, architecture?_mergeArchitectures_of_notMem h, hdetail,
    expandEntries_congr hsame, expandTemplate_congr hsame]

end Registry

namespace Viewer

/-- A request that leaves the registry as it is. -/
inductive Visit
  | view (name : String)
  | invalidate (name : String)
  | navigation

/-- A request to a viewer. -/
inductive Request
  | load (text : String)
  | visit (visit : Visit)

/-- The viewer after a request that leaves the registry as it is. -/
def visit (viewer : Viewer) : Visit → Viewer
  | .view name => (viewer.view name).1
  | .invalidate name => (viewer.invalidate name).1
  | .navigation => viewer

/-- The viewer after a request. -/
def serve (viewer : Viewer) : Request → Viewer
  | .load text => (viewer.load text).1
  | .visit visit => viewer.visit visit

/-- The viewer after some requests that leave the registry as it is. -/
def visitAll (viewer : Viewer) (visits : List Visit) : Viewer :=
  visits.foldl Viewer.visit viewer

/-- The viewer after some requests. -/
def serveAll (viewer : Viewer) (requests : List Request) : Viewer :=
  requests.foldl Viewer.serve viewer

theorem registry_visit (viewer : Viewer) (visit : Visit) :
    (viewer.visit visit).registry = viewer.registry := by
  cases visit <;> rfl

theorem registry_visitAll (viewer : Viewer) (visits : List Visit) :
    (viewer.visitAll visits).registry = viewer.registry := by
  induction visits generalizing viewer with
  | nil => rfl
  | cons visit rest ih => exact (ih (viewer.visit visit)).trans (registry_visit viewer visit)

theorem visitAll_append (viewer : Viewer) (first second : List Visit) :
    viewer.visitAll (first ++ second) = (viewer.visitAll first).visitAll second :=
  List.foldl_append

theorem store_visitAll_invalidate (viewer : Viewer) (names : List String) :
    (viewer.visitAll (names.map .invalidate)).store =
      names.foldl Store.invalidate viewer.store := by
  induction names generalizing viewer with
  | nil => rfl
  | cons name rest ih => exact ih (viewer.invalidate name).1

theorem load_of_parse {viewer : Viewer} {text : String} {architectures : Architectures}
    (h : Document.parse text = .ok architectures) :
    (viewer.load text).1 = viewer.addArchitectures architectures := by
  rw [load, h]

theorem load_of_fault {viewer : Viewer} {text : String} {fault : Document.Fault}
    (h : Document.parse text = .error fault) : (viewer.load text).1 = viewer := by
  rw [load, h]

/-- A loaded architecture has no view that is kept. -/
theorem get?_addArchitectures (viewer : Viewer) (architectures : Architectures) (name : String) :
    (viewer.addArchitectures architectures).store.get? name =
      if name ∈ Entries.names architectures then none else viewer.store.get? name :=
  Store.get?_foldl_invalidate _ _ _

end Viewer

/-- A template with one box. -/
def Template.boxed (details : Option String) : Template :=
  ⟨[], [], details, none,
    [("box", .leaf ⟨some "box", none, none, none, none, none, none, none, []⟩)]⟩

/-- A diagram with a depth and one unit, and an annex beside it. Both open a view. -/
def Registry.drillable : Registry where
  components := [("unit", .boxed (some "inside")), ("annex", .boxed (some "beyond"))]
  details := [("inside", .boxed none), ("beyond", .boxed none)]
  architectures := [("plan", ⟨[("properties", .properties [("depth", .integer 1)]),
    ("unit", .default)]⟩)]

end ArchDiagram

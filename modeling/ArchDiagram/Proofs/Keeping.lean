/-
# What requests leave alone

A request may keep views that were not kept before, and it may start the navigation of the
view that it asks for anew. Everything else that a store holds stays as it is
(`extends_serve`), and a request for something that the registry does not have changes
nothing at all (`serve_of_misses`).
-/

import ArchDiagram.Proofs.Requests
import ArchDiagram.Proofs.Steps

namespace ArchDiagram

namespace Store

/-- A later store keeps every view that this one keeps, as it is, and lists below it what is
listed there now, except below the views in `roots`. -/
structure Extends (store : Store) (roots : List String) (after : Store) : Prop where
  views : ∀ name view, store.get? name = some view → after.get? name = some view
  lists : ∀ name, store.contains name → name ∉ roots →
    after.navigation.lookup name = store.navigation.lookup name

namespace Extends

variable {store after : Store} {roots : List String} {name : String}

theorem refl (store : Store) (roots : List String) : store.Extends roots store :=
  ⟨fun _ _ => id, fun _ _ _ => rfl⟩

theorem contains (h : store.Extends roots after) (hkept : store.contains name) :
    after.contains name := by
  obtain ⟨view, hview⟩ := contains_iff.mp hkept
  exact contains_iff.mpr ⟨view, h.views name view hview⟩

/-- A view is kept under a name that was free. -/
theorem insert (h : store.Extends roots after) (hnew : ¬store.contains name) (view : View) :
    store.Extends roots (after.insert name view) where
  views other kept hkept := by
    have hne : other ≠ name := fun heq => hnew (contains_iff.mpr ⟨kept, heq ▸ hkept⟩)
    rw [get?_insert_of_ne _ _ hne]
    exact h.views other kept hkept
  lists := h.lists

end Extends

end Store

/-- Carrying out steps changes only the list of the view that they belong to. -/
theorem Registry.extends_perform (registry : Registry) (properties : Entries Property)
    (parent : String) (building : List String) (store : Store) (steps : List Step) :
    store.Extends [parent]
      (registry.perform properties parent building (store.resetNavigation parent) steps).store where
  views name view hview := get?_perform_of_get? (by simpa using hview)
  lists name hkept hout := by
    rw [List.mem_singleton] at hout
    rw [lookup_navigation_perform (fun _ => by simpa using hkept) hout]
    exact Navigation.lookup_reset_of_ne store.navigation hout

namespace Request

/-- The names that a request asks for. -/
def names : Request → List String
  | .architecture name | .detail name _ | .view name => [name]
  | .renew => []

/-- A request for a name that the registry does not have. -/
def Misses (registry : Registry) : Request → Prop
  | .architecture name => registry.architecture? name = none
  | .detail name _ => registry.detailOf? name = none
  | .view name => registry.architecture? name = none ∧ registry.detailOf? name = none
  | .renew => False

end Request

namespace Session

variable {session : Session} {registry : Registry}

theorem extends_resolveArchitecture (session : Session) (registry : Registry) (name : String) :
    session.store.Extends [name] (session.resolveArchitecture registry name).session.store := by
  unfold resolveArchitecture
  cases registry.architecture? name with
  | none => exact .refl _ _
  | some architecture => exact registry.extends_perform _ name [] session.store _

theorem extends_resolveDetail (session : Session) (registry : Registry) (name : String)
    (overrides : Entries Override) :
    session.store.Extends [name]
      (session.resolveDetail registry name overrides).session.store := by
  unfold resolveDetail
  cases registry.detailOf? name with
  | none => exact .refl _ _
  | some template => exact registry.extends_perform _ name [name] session.store _

theorem extends_viewOf (session : Session) (registry : Registry) (name : String) :
    session.store.Extends [name] (session.viewOf registry name).session.store := by
  unfold viewOf
  cases hkept : session.store.get? name with
  | some view => exact .refl _ _
  | none =>
      have hresolve : session.store.Extends [name]
          (session.resolve registry name).session.store := by
        unfold resolve
        split
        · exact session.extends_resolveArchitecture registry name
        · exact session.extends_resolveDetail registry name []
      simp only
      split
      · exact hresolve
      · exact hresolve.insert (Store.not_contains_iff.mpr hkept) _

/-- A request changes no view that is kept, and no list but that of the view it asks for. -/
theorem extends_serve (session : Session) (registry : Registry) (request : Request) :
    session.store.Extends request.names (session.serve registry request).session.store := by
  cases request with
  | architecture name => exact session.extends_resolveArchitecture registry name
  | detail name overrides => exact session.extends_resolveDetail registry name overrides
  | view name => exact session.extends_viewOf registry name
  | renew => exact .refl _ _

theorem contains_serveAll {requests : List Request} {name : String}
    (h : session.store.contains name) :
    (session.serveAll registry requests).session.store.contains name := by
  induction requests generalizing session with
  | nil => exact h
  | cons request rest ih => exact ih ((session.extends_serve registry request).contains h)

/-- A request for a name that the registry does not have leaves the session as it is. -/
theorem serve_of_misses {request : Request} (h : request.Misses registry) :
    (session.serve registry request).session = session := by
  cases request with
  | architecture name =>
      have hmissing : registry.architecture? name = none := h
      simp [serve, resolveArchitecture, hmissing]
  | detail name overrides =>
      have hmissing : registry.detailOf? name = none := h
      simp [serve, resolveDetail, hmissing]
  | view name =>
      obtain ⟨harchitecture, hdetail⟩ := h
      rw [serve, viewOf]
      cases session.store.get? name with
      | some view => rfl
      | none => simp [resolve, harchitecture, resolveDetail, hdetail]
  | renew => exact h.elim

end Session

end ArchDiagram

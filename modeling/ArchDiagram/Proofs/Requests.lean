/-
# Requests

A session is asked for architectures, for details and for the views it keeps, in
any order. This file runs a session along a list of requests and carries a
property of freshly built views over to every view that is handed out or kept on
the way (`forall_views_serveAll`).
-/

import ArchDiagram.Proofs.Entries
import ArchDiagram.Session

namespace ArchDiagram

namespace Store

/-- Every view that is kept has a property. -/
def AllViews (P : View → Prop) (store : Store) : Prop :=
  ∀ entry ∈ store.views, P entry.2

variable {P : View → Prop} {store : Store}

theorem AllViews.resetNavigation (h : store.AllViews P) (name : String) :
    (store.resetNavigation name).AllViews P := h

theorem AllViews.link (h : store.AllViews P) (parent child : String) :
    (store.link parent child).AllViews P := h

theorem AllViews.insert (h : store.AllViews P) (name : String) {view : View} (hview : P view) :
    (store.insert name view).AllViews P := by
  intro entry hentry
  rcases Entries.mem_of_mem_put hentry with hold | hnew
  · exact h entry hold
  · rw [hnew]
    exact hview

theorem AllViews.get? (h : store.AllViews P) {name : String} {view : View}
    (hview : store.get? name = some view) : P view := by
  obtain ⟨before, after, heq, -⟩ := List.lookup_eq_some_iff.mp hview
  exact h (name, view) (by rw [heq]; simp)

end Store

namespace Registry

/-- A registry ensures a property of views if every view built from it has the
property: of any entries of an architecture, and of any detail it has, however the
expansion came to the detail. -/
structure Ensures (registry : Registry) (P : View → Prop) : Prop where
  entries : ∀ entries, P (registry.expandEntries View.empty entries).view
  detail : ∀ name template, registry.detailOf? name = some template →
    ∀ chain swaps properties,
      P (registry.expandTemplate name template chain swaps (blankView properties)).view

variable {registry : Registry} {P : View → Prop}

/-- Carrying out steps keeps only views that are built from the registry. -/
theorem allViews_perform (hensures : registry.Ensures P) (properties : Entries Property)
    (parent : String) (building : List String) (store : Store) (steps : List Step)
    (h : store.AllViews P) :
    (registry.perform properties parent building store steps).store.AllViews P := by
  fun_induction perform registry properties parent building store steps with
  | case1 => exact h
  | case2 parent building store rest event after ih => exact ih h
  -- the detail is kept or being built: at most a link is added
  | case3 parent building store name chain swaps rest linked hheld ih =>
      apply ih
      simp only [linked]
      split
      · exact h
      · exact h.link parent name
  | case4 parent building store name chain swaps rest hheld hmissing after ih => exact ih h
  | case5 parent building store name chain swaps rest linked hheld template hfound expanded inner
      after ihInner _ ihRest =>
      -- the details below come first, so their views are kept before this one is
      have hinner : inner.store.AllViews P := ihInner (h.resetNavigation name)
      have hkept : (inner.store.insert name expanded.view).AllViews P :=
        hinner.insert name (hensures.detail name template hfound chain swaps properties)
      apply ihRest
      simp only [linked]
      split
      · exact hkept
      · exact hkept.link parent name

end Registry

/-- What a session can be asked for. -/
inductive Request
  /-- The flattening of an architecture. -/
  | architecture (name : String)
  /-- The flattening of a detail under some overrides. -/
  | detail (name : String) (overrides : Entries Override)
  /-- The view of a name, which is kept. -/
  | view (name : String)
  /-- Nothing; the properties of the architecture resolved last are forgotten. -/
  | renew

/-- A request that keeps the view it asks for, or one that asks for none. -/
def Request.Opens : Request → Prop
  | .view _ | .renew => True
  | .architecture _ | .detail _ _ => False

namespace Session

/-- Serve one request. -/
def serve (session : Session) (registry : Registry) : Request → Answer (Option View)
  | .architecture name =>
      let answer := session.resolveArchitecture registry name
      ⟨some answer.view, answer.session, answer.events⟩
  | .detail name overrides => session.resolveDetail registry name overrides
  | .view name => session.viewOf registry name
  | .renew => ⟨none, start session.store, []⟩

/-- Serve requests in order; the answer holds all the views handed out. -/
def serveAll (session : Session) (registry : Registry) : List Request → Answer (List View)
  | [] => ⟨[], session, []⟩
  | request :: rest =>
      let first := session.serve registry request
      let after := first.session.serveAll registry rest
      ⟨first.view.toList ++ after.view, after.session, first.events ++ after.events⟩

variable {registry : Registry} {P : View → Prop} {session : Session}

/-- A flattening is built from the registry alone, whatever views the session keeps. -/
theorem view_resolveArchitecture (hensures : registry.Ensures P) (session : Session)
    (name : String) : P (session.resolveArchitecture registry name).view := by
  unfold resolveArchitecture
  cases registry.architecture? name with
  | none => exact hensures.entries []
  | some architecture => exact hensures.entries _

theorem view_resolveDetail (hensures : registry.Ensures P) (session : Session) (name : String)
    (overrides : Entries Override) :
    ∀ view ∈ (session.resolveDetail registry name overrides).view, P view := by
  unfold resolveDetail
  cases hfound : registry.detailOf? name with
  | none => simp
  | some template =>
      rintro view ⟨⟩
      exact hensures.detail name template hfound _ _ _

theorem forall_view_resolveArchitecture (hensures : registry.Ensures P) (name : String)
    (h : session.store.AllViews P) :
    P (session.resolveArchitecture registry name).view ∧
      (session.resolveArchitecture registry name).session.store.AllViews P := by
  refine ⟨view_resolveArchitecture hensures session name, ?_⟩
  unfold resolveArchitecture
  cases registry.architecture? name with
  | none => exact h
  | some architecture =>
      exact Registry.allViews_perform hensures _ _ _ _ _ (h.resetNavigation name)

theorem forall_view_resolveDetail (hensures : registry.Ensures P) (name : String)
    (overrides : Entries Override) (h : session.store.AllViews P) :
    (∀ view ∈ (session.resolveDetail registry name overrides).view, P view) ∧
      (session.resolveDetail registry name overrides).session.store.AllViews P := by
  refine ⟨view_resolveDetail hensures session name overrides, ?_⟩
  unfold resolveDetail
  cases registry.detailOf? name with
  | none => exact h
  | some template =>
      exact Registry.allViews_perform hensures _ _ _ _ _ (h.resetNavigation name)

theorem forall_view_resolve (hensures : registry.Ensures P) (name : String)
    (h : session.store.AllViews P) :
    (∀ view ∈ (session.resolve registry name).view, P view) ∧
      (session.resolve registry name).session.store.AllViews P := by
  unfold resolve
  split
  · obtain ⟨hview, hstore⟩ := forall_view_resolveArchitecture hensures name h
    refine ⟨?_, hstore⟩
    rintro view ⟨⟩
    exact hview
  · exact forall_view_resolveDetail hensures name [] h

theorem forall_view_viewOf (hensures : registry.Ensures P) (name : String)
    (h : session.store.AllViews P) :
    (∀ view ∈ (session.viewOf registry name).view, P view) ∧
      (session.viewOf registry name).session.store.AllViews P := by
  unfold viewOf
  cases hkept : session.store.get? name with
  | some view =>
      refine ⟨?_, h⟩
      rintro view ⟨⟩
      exact h.get? hkept
  | none =>
      obtain ⟨hview, hstore⟩ := forall_view_resolve hensures name h
      simp only
      cases hbuilt : (session.resolve registry name).view with
      | none => simpa [hbuilt] using hstore
      | some view =>
          have hnew : P view := hview view hbuilt
          exact ⟨by rintro _ ⟨⟩; exact hnew, hstore.insert name hnew⟩

/-- One request hands out and keeps only views that have the property. -/
theorem forall_view_serve (hensures : registry.Ensures P) (request : Request)
    (h : session.store.AllViews P) :
    (∀ view ∈ (session.serve registry request).view, P view) ∧
      (session.serve registry request).session.store.AllViews P := by
  cases request with
  | architecture name =>
      obtain ⟨hview, hstore⟩ := forall_view_resolveArchitecture hensures name h
      refine ⟨?_, hstore⟩
      rintro view ⟨⟩
      exact hview
  | detail name overrides => exact forall_view_resolveDetail hensures name overrides h
  | view name => exact forall_view_viewOf hensures name h
  | renew => exact ⟨by simp [serve], h⟩

/-- Along any requests only views that have the property are handed out and kept. -/
theorem forall_views_serveAll (hensures : registry.Ensures P) (requests : List Request)
    (h : session.store.AllViews P) :
    (∀ view ∈ (session.serveAll registry requests).view, P view) ∧
      (session.serveAll registry requests).session.store.AllViews P := by
  induction requests generalizing session with
  | nil => exact ⟨by simp [serveAll], h⟩
  | cons request rest ih =>
      obtain ⟨hfirst, hstore⟩ := forall_view_serve hensures request h
      obtain ⟨hafter, hlast⟩ := ih hstore
      refine ⟨fun view hview => ?_, hlast⟩
      rcases List.mem_append.mp hview with hview | hview
      · exact hfirst view (by simpa using hview)
      · exact hafter view hview

end Session

end ArchDiagram

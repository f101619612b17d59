/-
# Drilling down

An item of a view opens other views. In a session that is only ever asked for views to
keep, each of them can be drilled into at once: if the registry has it, it is kept as well
and is listed below the view (`drillsDown_serveAll`). While a view is being built this holds
only up to the views that are being built around it, so that is what one step preserves
(`drillsDown_perform`).
-/

import ArchDiagram.Proofs.Flattening
import ArchDiagram.Proofs.Linking
import ArchDiagram.Proofs.Nesting
import ArchDiagram.Proofs.Requests

namespace ArchDiagram

/-- What the items of a kept view open is kept or being built, if the registry has it, and is
listed below the view unless it is the view itself. -/
def Store.DrillsDown (store : Store) (registry : Registry) (building : List String) : Prop :=
  ∀ name view, store.get? name = some view →
    ∀ link ∈ view.links, (registry.detailOf? link).isSome →
      (store.contains link ∨ link ∈ building) ∧
        (link ≠ name → link ∈ store.navigation.children name)

namespace Store.DrillsDown

variable {registry : Registry} {store : Store} {building building' : List String}
  {name : String} {view : View}

theorem mono (h : store.DrillsDown registry building) (hsubset : building ⊆ building') :
    store.DrillsDown registry building' := by
  intro other kept hkept link hlink hdetail
  obtain ⟨hhad, hlisted⟩ := h other kept hkept link hlink hdetail
  exact ⟨hhad.imp_right fun hmem => hsubset hmem, hlisted⟩

theorem linked (h : store.DrillsDown registry building) (parent name : String) :
    (store.linked parent name).DrillsDown registry building := by
  intro other view hview link hlink hdetail
  rw [Store.get?_linked] at hview
  obtain ⟨hhad, hlisted⟩ := h other view hview link hlink hdetail
  rw [Store.contains_linked]
  exact ⟨hhad, fun hne => store.children_subset_linked parent name other (hlisted hne)⟩

/-- Only the list of a view that is not kept may start anew. -/
theorem resetNavigation (h : store.DrillsDown registry building) (hnew : ¬store.contains name) :
    (store.resetNavigation name).DrillsDown registry building := by
  intro other view hview link hlink hdetail
  obtain ⟨hhad, hlisted⟩ := h other view hview link hlink hdetail
  refine ⟨hhad, fun hne => ?_⟩
  have hother : other ≠ name := fun heq => hnew (Store.contains_iff.mpr ⟨view, heq ▸ hview⟩)
  rw [Store.resetNavigation, Navigation.children_reset_of_ne _ hother]
  exact hlisted hne

/-- A view that can be drilled into while it is being built is kept. -/
theorem insert (h : store.DrillsDown registry building) (hbuilding : building ⊆ name :: building')
    (hview : ∀ link ∈ view.links, (registry.detailOf? link).isSome →
      (store.contains link ∨ link ∈ building) ∧
        (link ≠ name → link ∈ store.navigation.children name)) :
    (store.insert name view).DrillsDown registry building' := by
  -- what was being built is now kept, or it is still being built
  have hstill {link : String} (hhad : store.contains link ∨ link ∈ building) :
      (store.insert name view).contains link ∨ link ∈ building' := by
    rw [Store.contains_insert]
    rcases hhad with hkept | hmem
    · exact Or.inl (Or.inl hkept)
    · exact (List.mem_cons.mp (hbuilding hmem)).imp_left Or.inr
  intro other kept hkept link hlink hdetail
  rw [Store.navigation_insert]
  by_cases hother : other = name
  · subst hother
    rw [Store.get?_insert_self, Option.some_inj] at hkept
    subst hkept
    exact (hview link hlink hdetail).imp_left hstill
  · rw [Store.get?_insert_of_ne _ _ hother] at hkept
    exact (h other kept hkept link hlink hdetail).imp_left hstill

end Store.DrillsDown

namespace Registry

variable {registry : Registry} {properties : Entries Property} {parent name : String}
  {building building' : List String} {store : Store}

/-- A view whose steps have been carried out is kept. -/
theorem drillsDown_insert_perform {expanded : Expansion} {view : View}
    (h : (registry.perform properties name building (store.resetNavigation name)
      expanded.steps).store.DrillsDown registry building)
    (hbuilding : building ⊆ name :: building')
    (hself : ¬(registry.perform properties name building (store.resetNavigation name)
      expanded.steps).store.contains name)
    (hasks : expanded.Asks view) (hview : view.links = []) :
    ((registry.perform properties name building (store.resetNavigation name)
      expanded.steps).store.insert name expanded.view).DrillsDown registry building' := by
  refine h.insert hbuilding fun link hlink hdetail => ?_
  have hasked : link ∈ Step.attached expanded.steps :=
    (hasks link hlink).resolve_left (by simp [hview])
  exact ⟨contains_or_mem_of_attached hasked hdetail, fun hne =>
    (mem_children_perform hself).mpr (Or.inr ⟨hne, hasked, Or.inr hdetail⟩)⟩

/-- Carrying out steps keeps only views that can be drilled into. -/
theorem drillsDown_perform {steps : List Step} (h : store.DrillsDown registry building) :
    (registry.perform properties parent building store steps).store.DrillsDown registry
      building := by
  induction parent, building, store, steps using perform_induction registry properties with
  | nil parent building store => rwa [perform_nil]
  | note parent building store event rest ih =>
      rw [perform_note]
      exact ih h
  | held parent building store name chain swaps rest hheld ih =>
      rw [perform_held hheld]
      exact ih (h.linked parent name)
  | missing parent building store name chain swaps rest hheld hmissing ih =>
      rw [perform_missing hheld hmissing]
      exact ih h
  | build parent building store name chain swaps rest template hheld hfound ihInner ihRest =>
      rw [perform_build hheld hfound]
      have hnew : ¬store.contains name := fun hkept => hheld (Or.inl hkept)
      have hinner := ihInner ((h.mono (List.subset_cons_self name building)).resetNavigation hnew)
      refine ihRest (Store.DrillsDown.linked ?_ parent name)
      refine drillsDown_insert_perform hinner (List.Subset.refl _) ?_
        (registry.asks_expandTemplate name template chain swaps (blankView properties)) rfl
      -- a view is not kept while it is being built
      rw [Store.not_contains_iff, get?_perform_of_mem_building List.mem_cons_self]
      exact Store.not_contains_iff.mp hnew

end Registry

namespace Session

variable {registry : Registry} {session : Session}

/-- The view of an architecture that no link names can be drilled into once it is kept. -/
theorem drillsDown_resolveArchitecture {name : String} (h : session.store.DrillsDown registry [])
    (hnew : ¬session.store.contains name) (hlinks : name ∉ registry.linkNames)
    (hfound : (registry.architecture? name).isSome) :
    let answer := session.resolveArchitecture registry name
    (answer.session.store.insert name answer.view).DrillsDown registry [] := by
  obtain ⟨architecture, hfound⟩ := Option.isSome_iff_exists.mp hfound
  simp only [resolveArchitecture, hfound]
  refine Registry.drillsDown_insert_perform (Registry.drillsDown_perform (h.resetNavigation hnew))
    (List.nil_subset _) (fun hbuilt => ?_)
    (registry.asks_expandEntries View.empty architecture.entries) rfl
  -- what is newly kept has been asked for by a link
  rcases Registry.built_of_contains_perform hbuilt with hold | ⟨-, -, hasked, -⟩
  · exact hnew (by simpa using hold)
  · rcases List.mem_append.mp hasked with hasked | hlink
    · exact hlinks (Registry.mem_linkNames_of_attached_expandEntries hasked)
    · exact hlinks hlink

/-- The view of a detail can be drilled into once it is kept. -/
theorem drillsDown_resolveDetail {name : String} {overrides : Entries Override}
    (h : session.store.DrillsDown registry []) (hnew : ¬session.store.contains name) {view : View}
    (hview : (session.resolveDetail registry name overrides).view = some view) :
    ((session.resolveDetail registry name overrides).session.store.insert name view).DrillsDown
      registry [] := by
  cases hfound : registry.detailOf? name with
  | none => simp [resolveDetail, hfound] at hview
  | some template =>
      simp only [resolveDetail, hfound, Option.some_inj] at hview ⊢
      subst hview
      refine Registry.drillsDown_insert_perform (Registry.drillsDown_perform
        ((h.mono (List.nil_subset [name])).resetNavigation hnew)) (List.Subset.refl _) ?_
        (registry.asks_expandTemplate name template [] overrides _) rfl
      rw [Store.not_contains_iff, Registry.get?_perform_of_mem_building List.mem_cons_self]
      exact Store.not_contains_iff.mp hnew

/-- Asking for a view keeps only views that can be drilled into. -/
theorem drillsDown_viewOf (hlinks : ∀ link ∈ registry.linkNames, registry.architecture? link = none)
    (h : session.store.DrillsDown registry []) (name : String) :
    (session.viewOf registry name).session.store.DrillsDown registry [] := by
  unfold viewOf
  cases hkept : session.store.get? name with
  | some view => exact h
  | none =>
      have hnew := Store.not_contains_iff.mpr hkept
      by_cases harchitecture : (registry.architecture? name).isSome
      · have hname : name ∉ registry.linkNames := fun hmem => by
          simp [hlinks name hmem] at harchitecture
        simpa [resolve, harchitecture] using
          drillsDown_resolveArchitecture h hnew hname harchitecture
      · cases hview : (session.resolveDetail registry name []).view with
        | none =>
            -- without a detail of this name nothing has changed
            have hmissing : registry.detailOf? name = none := by
              cases hfound : registry.detailOf? name with
              | none => rfl
              | some template => simp [resolveDetail, hfound] at hview
            simpa [resolve, harchitecture, resolveDetail, hmissing] using h
        | some view =>
            simpa [resolve, harchitecture, hview] using drillsDown_resolveDetail h hnew hview

theorem drillsDown_serveAll_of_drillsDown
    (hlinks : ∀ link ∈ registry.linkNames, registry.architecture? link = none)
    {requests : List Request} (hrequests : ∀ request ∈ requests, request.Opens)
    (h : session.store.DrillsDown registry []) :
    (session.serveAll registry requests).session.store.DrillsDown registry [] := by
  induction requests generalizing session with
  | nil => exact h
  | cons request rest ih =>
      refine ih (fun request hmem => hrequests request (List.mem_cons_of_mem _ hmem)) ?_
      cases request with
      | view name => exact drillsDown_viewOf hlinks h name
      | renew => exact h
      | architecture name | detail name overrides =>
          exact (hrequests _ List.mem_cons_self).elim

/-- If no link names an architecture, then whatever a session that started without views is
asked to keep, every view that an item of a kept view opens and that the registry has is kept
too, and is listed below that view unless it is the view itself. -/
theorem drillsDown_serveAll (registry : Registry)
    (hlinks : ∀ link ∈ registry.linkNames, registry.architecture? link = none)
    (properties : Entries Property) (requests : List Request)
    (hrequests : ∀ request ∈ requests, request.Opens) :
    let store := ((Session.mk Store.empty properties).serveAll registry requests).session.store
    ∀ name view, store.get? name = some view → ∀ entry ∈ view.content, ∀ link ∈ entry.2.links,
      (registry.detailOf? link).isSome →
        store.contains link ∧ (link ≠ name → link ∈ store.navigation.children name) := by
  intro store name view hview entry hentry link hlink hdetail
  have hempty : (Session.mk Store.empty properties).store.DrillsDown registry [] := by
    simp [Store.DrillsDown]
  obtain ⟨hhad, hlisted⟩ := drillsDown_serveAll_of_drillsDown hlinks hrequests hempty name view
    hview link (View.mem_links.mpr ⟨entry, hentry, hlink⟩) hdetail
  exact ⟨hhad.resolve_right List.not_mem_nil, hlisted⟩

end Session

/-! ### Details that open each other -/

/-- A leaf that opens a view. -/
def Item.opening (name : String) : Item :=
  { Item.blank with details := some name }

/-- A diagram that leads to a detail, which leads to another one. This leads back to the
first one, and to itself. -/
def Registry.circular : Registry where
  components := [("unit", .informed [("box", .leaf (.opening "ping"))])]
  details := [
    ("ping", .informed [("box", .leaf (.opening "pong"))]),
    ("pong", .informed [("box", .leaf (.opening "ping")), ("again", .leaf (.opening "pong"))])]
  architectures := [("plan", ⟨[("unit", .default)]⟩)]

namespace Session

/-- The second detail is built while the first one is. Both are kept, and the first one is
listed below the second one. -/
theorem drillsDown_circular :
    let store := ((Session.mk Store.empty []).serveAll .circular
      [.view "plan", .renew]).session.store
    (∀ link ∈ Registry.circular.linkNames, Registry.circular.architecture? link = none) ∧
      (∃ view, store.get? "pong" = some view ∧ ∃ entry ∈ view.content, "ping" ∈ entry.2.links) ∧
      store.contains "ping" ∧ ("ping" ≠ "pong" → "ping" ∈ store.navigation.children "pong") := by
  intro store
  have hlinks : ∀ link ∈ Registry.circular.linkNames,
      Registry.circular.architecture? link = none := by decide +kernel
  have hview : store.get? "pong" = some ⟨[], [], [],
      [("pong_box", { Item.opening "ping" with info := some "kept" }),
        ("pong_again", { Item.opening "pong" with info := some "kept" })]⟩ :=
    eq_of_viewOfWithin (fun answer => answer.session.store.get? "pong") (by decide +kernel)
  exact ⟨hlinks, ⟨_, hview, _, List.mem_cons_self, by decide +kernel⟩,
    drillsDown_serveAll .circular hlinks [] [.view "plan", .renew] (by simp [Request.Opens])
      "pong" _ hview _ List.mem_cons_self "ping" (by decide +kernel) (by decide +kernel)⟩

end Session

end ArchDiagram

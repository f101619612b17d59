/-
# Carrying out steps

How the steps that an expansion has left are carried out, one equation for each kind
of step (`perform_held`, `perform_missing`, `perform_build`), with an induction along
them (`perform_induction`). Carrying out some steps and then others is carrying out
all of them (`perform_append`). What has been kept stays kept as it is
(`get?_perform_of_get?`), and no view that is kept or being built loses what is listed
below it (`mem_children_perform_of_mem`).
-/

import ArchDiagram.Proofs.Store
import ArchDiagram.Session

namespace ArchDiagram.Registry

section Equations

variable {registry : Registry} {properties : Entries Property} {parent : String}
  {building : List String} {store : Store}

theorem perform_nil : registry.perform properties parent building store [] = ⟨store, []⟩ := by
  rw [perform]

theorem perform_note (event : Event) (rest : List Step) :
    registry.perform properties parent building store (.note event :: rest) =
      let after := registry.perform properties parent building store rest
      ⟨after.store, event :: after.events⟩ := by
  rw [perform]

variable {name : String} {chain : List String} {swaps : Entries Override} {rest : List Step}

/-- A view that is kept or being built is only linked. -/
theorem perform_held (h : store.contains name ∨ name ∈ building) :
    registry.perform properties parent building store (.attach name chain swaps :: rest) =
      registry.perform properties parent building (store.linked parent name) rest := by
  rw [perform]
  simp only [h, dite_true, Store.linked]

theorem perform_missing (h : ¬(store.contains name ∨ name ∈ building))
    (hmissing : registry.detailOf? name = none) :
    registry.perform properties parent building store (.attach name chain swaps :: rest) =
      let after := registry.perform properties parent building store rest
      ⟨after.store, .detailMissing name :: after.events⟩ := by
  rw [perform]
  simp only [h, dite_false]
  split
  · rfl
  · rename_i hfound
    simp [hmissing] at hfound

/-- Any other view is built, kept and linked. -/
theorem perform_build (h : ¬(store.contains name ∨ name ∈ building)) {template : Template}
    (hfound : registry.detailOf? name = some template) :
    registry.perform properties parent building store (.attach name chain swaps :: rest) =
      let expanded := registry.expandTemplate name template chain swaps (blankView properties)
      let inner := registry.perform properties name (name :: building)
        (store.resetNavigation name) expanded.steps
      let after := registry.perform properties parent building
        ((inner.store.insert name expanded.view).linked parent name) rest
      ⟨after.store, .viewStarted name :: inner.events ++ .viewFinished name :: after.events⟩ := by
  rw [perform]
  simp only [h, dite_false]
  split
  · rename_i hmissing
    simp [hfound] at hmissing
  · rename_i other hother
    obtain rfl : other = template := by simpa [hfound] using hother.symm
    rfl

end Equations

/-- Induction along the carrying out of steps: when a view is built, the statement may be used
for the steps of its own and for the steps that follow. -/
theorem perform_induction (registry : Registry) (properties : Entries Property)
    {motive : String → List String → Store → List Step → Prop}
    (nil : ∀ parent building store, motive parent building store [])
    (note : ∀ parent building store event rest,
      motive parent building store rest → motive parent building store (.note event :: rest))
    (held : ∀ parent building (store : Store) name chain swaps rest,
      store.contains name ∨ name ∈ building →
      motive parent building (store.linked parent name) rest →
      motive parent building store (.attach name chain swaps :: rest))
    (missing : ∀ parent building (store : Store) name chain swaps rest,
      ¬(store.contains name ∨ name ∈ building) → registry.detailOf? name = none →
      motive parent building store rest →
      motive parent building store (.attach name chain swaps :: rest))
    (build : ∀ parent building (store : Store) name chain swaps rest template,
      ¬(store.contains name ∨ name ∈ building) → registry.detailOf? name = some template →
      motive name (name :: building) (store.resetNavigation name)
        (registry.expandTemplate name template chain swaps (blankView properties)).steps →
      motive parent building
        (((registry.perform properties name (name :: building) (store.resetNavigation name)
            (registry.expandTemplate name template chain swaps (blankView properties)).steps).store
          |>.insert name
            (registry.expandTemplate name template chain swaps (blankView properties)).view)
          |>.linked parent name) rest →
      motive parent building store (.attach name chain swaps :: rest))
    (parent : String) (building : List String) (store : Store) (steps : List Step) :
    motive parent building store steps := by
  fun_induction perform registry properties parent building store steps with
  | case1 => exact nil _ _ _
  | case2 parent building store event rest after ih => exact note _ _ _ _ _ ih
  | case3 parent building store name chain swaps rest linked hheld ih =>
      exact held _ _ _ _ _ _ _ hheld ih
  | case4 parent building store name chain swaps rest hheld hmissing after ih =>
      exact missing _ _ _ _ _ _ _ hheld hmissing ih
  | case5 parent building store name chain swaps rest linked hheld template hfound expanded inner
      after ihInner _ ihRest =>
      exact build _ _ _ _ _ _ _ _ hheld hfound ihInner ihRest

variable {registry : Registry} {properties : Entries Property} {parent : String}
  {building : List String} {store : Store}

/-- The steps of a list may be carried out in two parts. -/
theorem perform_append (first second : List Step) :
    registry.perform properties parent building store (first ++ second) =
      let before := registry.perform properties parent building store first
      let after := registry.perform properties parent building before.store second
      ⟨after.store, before.events ++ after.events⟩ := by
  induction parent, building, store, first using perform_induction registry properties with
  | nil parent building store => simp [perform_nil]
  | note parent building store event rest ih => simp [perform_note, ih]
  | held parent building store name chain swaps rest hheld ih =>
      rw [List.cons_append, perform_held hheld, ih,
        perform_held hheld]
  | missing parent building store name chain swaps rest hheld hmissing ih =>
      simp [perform_missing hheld hmissing, ih]
  | build parent building store name chain swaps rest template hheld hfound _ ih =>
      simp [perform_build hheld hfound, ih]

/-! ## What stays -/

/-- A view that is kept stays kept as it is. -/
theorem get?_perform_of_get? {steps : List Step} {other : String} {view : View}
    (h : store.get? other = some view) :
    (registry.perform properties parent building store steps).store.get? other = some view := by
  induction parent, building, store, steps using perform_induction registry properties with
  | nil parent building store => rwa [perform_nil]
  | note parent building store event rest ih => simpa [perform_note] using ih h
  | held parent building store name chain swaps rest hheld ih =>
      rw [perform_held hheld]
      exact ih (by simpa using h)
  | missing parent building store name chain swaps rest hheld hmissing ih =>
      rw [perform_missing hheld hmissing]
      exact ih h
  | build parent building store name chain swaps rest template hheld hfound ihInner ihRest =>
      rw [perform_build hheld hfound]
      -- the view that is built was not kept, so it is another one
      have hne : other ≠ name := fun heq =>
        hheld (Or.inl (Store.contains_iff.mpr ⟨view, heq ▸ h⟩))
      apply ihRest
      rw [Store.get?_linked, Store.get?_insert_of_ne _ _ hne]
      exact ihInner (by simpa using h)

theorem contains_perform_of_contains {steps : List Step} {other : String}
    (h : store.contains other) :
    (registry.perform properties parent building store steps).store.contains other := by
  obtain ⟨view, hview⟩ := Store.contains_iff.mp h
  exact Store.contains_iff.mpr ⟨view, get?_perform_of_get? hview⟩

/-- The same, after a view has been built, kept and linked. -/
theorem contains_perform_insert {steps : List Step} {inner : Store} {name other : String}
    {view : View} (h : inner.contains other ∨ other = name) :
    (registry.perform properties parent building ((inner.insert name view).linked parent name)
      steps).store.contains other :=
  contains_perform_of_contains (by rwa [Store.contains_linked, Store.contains_insert])

/-- What is listed below a view that is kept or being built stays listed. -/
theorem mem_children_perform_of_mem {steps : List Step} {other child : String}
    (h : store.contains other ∨ other ∈ building)
    (hchild : child ∈ store.navigation.children other) :
    child ∈ (registry.perform properties parent building store steps).store.navigation.children
      other := by
  induction parent, building, store, steps using perform_induction registry properties with
  | nil parent building store => rwa [perform_nil]
  | note parent building store event rest ih => simpa [perform_note] using ih h hchild
  | held parent building store name chain swaps rest hheld ih =>
      rw [perform_held hheld]
      exact ih (by simpa using h) (store.children_subset_linked parent name other hchild)
  | missing parent building store name chain swaps rest hheld hmissing ih =>
      rw [perform_missing hheld hmissing]
      exact ih h hchild
  | build parent building store name chain swaps rest template hheld hfound ihInner ihRest =>
      rw [perform_build hheld hfound]
      -- only the list of the view that is built starts anew
      have hne : other ≠ name := fun heq => hheld (heq ▸ h)
      have hinner := ihInner (h.imp id (List.mem_cons_of_mem _))
        (by rwa [Store.resetNavigation, Navigation.children_reset_of_ne _ hne])
      refine ihRest (h.imp (fun hkept => ?_) id) ?_
      · rw [Store.contains_linked, Store.contains_insert]
        exact Or.inl (contains_perform_of_contains hkept)
      · exact Store.children_subset_linked _ parent name other hinner

/-- Nothing is kept under the name of a view that is being built. -/
theorem get?_perform_of_mem_building {steps : List Step} {other : String}
    (h : other ∈ building) :
    (registry.perform properties parent building store steps).store.get? other =
      store.get? other := by
  induction parent, building, store, steps using perform_induction registry properties with
  | nil parent building store => rw [perform_nil]
  | note parent building store event rest ih => simpa [perform_note] using ih h
  | held parent building store name chain swaps rest hheld ih =>
      rw [perform_held hheld]
      simpa using ih h
  | missing parent building store name chain swaps rest hheld hmissing ih =>
      rw [perform_missing hheld hmissing]
      exact ih h
  | build parent building store name chain swaps rest template hheld hfound ihInner ihRest =>
      rw [perform_build hheld hfound]
      -- what is built here is not being built around it
      have hne : other ≠ name := fun heq => hheld (Or.inr (heq ▸ h))
      refine (ihRest h).trans ?_
      rw [Store.get?_linked, Store.get?_insert_of_ne _ _ hne]
      simpa using ihInner (List.mem_cons_of_mem _ h)

/-- The entry of a view in the navigation stays as it is, unless the view is built here or the
steps belong to it. -/
theorem lookup_navigation_perform {steps : List Step} {other : String}
    (h : (registry.perform properties parent building store steps).store.contains other →
      store.contains other) (hne : other ≠ parent) :
    (registry.perform properties parent building store steps).store.navigation.lookup other =
      store.navigation.lookup other := by
  induction parent, building, store, steps using perform_induction registry properties with
  | nil parent building store => rw [perform_nil]
  | note parent building store event rest ih =>
      rw [perform_note] at h ⊢
      exact ih h hne
  | held parent building store name chain swaps rest hheld ih =>
      rw [perform_held hheld] at h ⊢
      exact (ih (by simpa using h) hne).trans (store.lookup_linked_of_ne name hne)
  | missing parent building store name chain swaps rest hheld hmissing ih =>
      rw [perform_missing hheld hmissing] at h ⊢
      exact ih h hne
  | build parent building store name chain swaps rest template hheld hfound ihInner ihRest =>
      rw [perform_build hheld hfound] at h ⊢
      -- the entry that starts anew belongs to a view that was not kept
      have hother : other ≠ name := fun heq =>
        hheld (Or.inl (heq ▸ h (contains_perform_insert (Or.inr heq))))
      refine (ihRest (fun hafter => ?_) hne).trans ?_
      · rw [Store.contains_linked, Store.contains_insert]
        exact Or.inl (contains_perform_of_contains (by simpa using h hafter))
      · rw [Store.lookup_linked_of_ne _ name hne, Store.navigation_insert,
          ihInner (fun hinner => by simpa using h (contains_perform_insert (Or.inl hinner))) hother]
        exact Navigation.lookup_reset_of_ne _ hother

/-- What is listed below a view that is kept stays as it is, except below the view that
the steps belong to. -/
theorem children_perform_of_contains {steps : List Step} {other : String}
    (h : store.contains other) (hne : other ≠ parent) :
    (registry.perform properties parent building store steps).store.navigation.children other =
      store.navigation.children other := by
  rw [Navigation.children, Navigation.children, lookup_navigation_perform (fun _ => h) hne]

end ArchDiagram.Registry

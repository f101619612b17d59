/-
# Views that are asked for

An expansion asks for every view that an item of its own view opens
(`asks_expandTemplate`, `asks_expandEntries`). Carrying out its steps has each of these
views kept that the registry has, unless it is being built further out
(`contains_or_mem_of_attached`), and lists it below the view that the steps belong to
(`mem_children_perform`). What is newly kept has been asked for (`built_of_contains_perform`).
-/

import ArchDiagram.Proofs.Steps

namespace ArchDiagram

/-- The views that the items of a view open. -/
def View.links (view : View) : List String :=
  view.content.flatMap fun entry => entry.2.links

theorem View.mem_links {view : View} {link : String} :
    link ∈ view.links ↔ ∃ entry ∈ view.content, link ∈ entry.2.links :=
  List.mem_flatMap

/-- An expansion into a view asks for whatever the items that it adds open. -/
def Expansion.Asks (expanded : Expansion) (view : View) : Prop :=
  ∀ link ∈ expanded.view.links, link ∈ view.links ∨ link ∈ Step.attached expanded.steps

namespace Expansion

variable {view : View}

theorem Asks.unchanged (steps : List Step) : (Expansion.mk view steps).Asks view :=
  fun _ => Or.inl

/-- Two expansions after each other ask for what both of them ask for. -/
theorem Asks.append {first after : Expansion} (hfirst : first.Asks view)
    (hafter : after.Asks first.view) :
    (Expansion.mk after.view (first.steps ++ after.steps)).Asks view := by
  intro link hlink
  rw [Step.attached_append, List.mem_append]
  rcases hafter link hlink with hbefore | hasked
  · exact (hfirst link hbefore).imp_right Or.inl
  · exact Or.inr (Or.inr hasked)

/-- More steps before an expansion take nothing away. -/
theorem Asks.prepend {expanded : Expansion} (h : expanded.Asks view) (steps : List Step) :
    (Expansion.mk expanded.view (steps ++ expanded.steps)).Asks view :=
  (Asks.unchanged steps).append h

end Expansion

/-- Placing an item asks for exactly the views that the item opens. -/
theorem Frame.links_place (frame : Frame) (isFirst : Bool) (anchors : Entries String)
    (key : String) (item : Item) (view : View) :
    (frame.place isFirst anchors key item view).view.links =
      view.links ++ Step.attached (frame.place isFirst anchors key item view).steps := by
  have hattached (details : List String) : Step.attached
      (details.map fun detail => .attach detail frame.chain frame.swaps) = details := by
    simp [Step.attached, List.filterMap_map]
  simp only [place, View.links, List.flatMap_append, List.flatMap_singleton, Step.attached_append,
    hattached]
  -- a report asks for no view
  congr 1
  rw [List.self_eq_append_left]
  split
  · rfl
  · rfl

namespace Registry

variable {registry : Registry} {view : View}

theorem asks_expandContent (registry : Registry) (frame : Frame) (isFirst : Bool)
    (anchors : Entries String) (view : View) (content : Entries Content) :
    (registry.expandContent frame isFirst anchors view content).Asks view := by
  induction frame, isFirst, anchors, view, content using expandContent_induction with
  | nil frame isFirst anchors view =>
      rw [expandContent_nil]
      exact fun link hlink => Or.inl hlink
  | leaf frame isFirst anchors view key item rest ih =>
      rw [expandContent_leaf]
      have hplace : (Expansion.mk (frame.place isFirst anchors key item view).view
          (frame.place isFirst anchors key item view).steps).Asks view := fun link hlink => by
        rwa [Frame.links_place, List.mem_append] at hlink
      exact hplace.append ih
  | slot frame isFirst anchors view key slot rest ihInside ihRest =>
      have hinside : (registry.expandComponent (frame.choose slot).owner frame.path
          (frame.choose slot).swaps view).Asks view := by
        unfold expandComponent expandTemplate
        cases hfound : registry.instanceOf? (frame.choose slot).owner with
        | none => exact .unchanged _
        | some template =>
            by_cases hcycle : (frame.choose slot).owner ∈ frame.path
            · simp only [hcycle, if_true]
              exact .unchanged _
            · simp only [hcycle, if_false]
              exact (ihInside template hfound hcycle).prepend _
      rw [expandContent_slot]
      exact (hinside.prepend (frame.choose slot).steps).append ihRest

/-- A detail asks for whatever its items open. -/
theorem asks_expandTemplate (registry : Registry) (owner : String) (template : Template)
    (chain : List String) (swaps : Entries Override) (view : View) :
    (registry.expandTemplate owner template chain swaps view).Asks view := by
  unfold expandTemplate
  split
  · exact .unchanged _
  · exact (registry.asks_expandContent _ true [] view template.content).prepend _

/-- An architecture asks for whatever its items open. -/
theorem asks_expandEntries (registry : Registry) (view : View)
    (entries : List (String × Override)) : (registry.expandEntries view entries).Asks view := by
  induction entries generalizing view with
  | nil => exact .unchanged _
  | cons entry rest ih =>
      obtain ⟨key, entry⟩ := entry
      have hcomponent (owner : String) (swaps : Entries Override) :
          (registry.expandComponent owner [] swaps view).Asks view := by
        unfold expandComponent
        split
        · exact .unchanged _
        · exact registry.asks_expandTemplate owner _ [] swaps view
      have hfirst : (registry.expandEntry view key entry).Asks view := by
        cases entry with
        | default | nested | swap => exact hcomponent _ _
        | references | properties | settings => exact fun link hlink => Or.inl hlink
      exact hfirst.append (ih _)

/-- The entries of an architecture ask only for views that the registry names. -/
theorem mem_linkNames_of_attached_expandEntries {entries : List (String × Override)}
    {name : String} (h : name ∈ Step.attached (registry.expandEntries view entries).steps) :
    name ∈ registry.linkNames := by
  induction entries generalizing view with
  | nil => simp [expandEntries, Step.attached] at h
  | cons entry rest ih =>
      obtain ⟨key, entry⟩ := entry
      have hcomponent {owner : String} {swaps : Entries Override} {name : String}
          (h : name ∈ Step.attached (registry.expandComponent owner [] swaps view).steps) :
          name ∈ registry.linkNames := by
        unfold expandComponent at h
        cases hfound : registry.instanceOf? owner with
        | none => simp [hfound, Step.attached] at h
        | some template =>
            simp only [hfound] at h
            exact mem_linkNames_of_attached_expandTemplate (instanceOf?_mem hfound) h
      simp only [expandEntries, Step.attached_append, List.mem_append] at h
      rcases h with h | h
      · cases entry with
        | default | nested | swap => exact hcomponent h
        | references | properties | settings => simp [expandEntry, Step.attached] at h
      · exact ih h

/-! ### What comes of the steps -/

variable {properties : Entries Property} {parent : String} {building : List String}
  {store : Store} {steps : List Step} {name : String}

/-- What is newly kept is a detail of the registry that has been asked for and that was not
being built already; its beginning is reported. -/
theorem built_of_contains_perform
    (h : (registry.perform properties parent building store steps).store.contains name) :
    store.contains name ∨ name ∉ building ∧ (registry.detailOf? name).isSome ∧
      name ∈ Step.attached steps ++ registry.linkNames ∧
      .viewStarted name ∈ (registry.perform properties parent building store steps).events := by
  induction parent, building, store, steps using perform_induction registry properties with
  | nil parent building store => exact Or.inl (by rwa [perform_nil] at h)
  | note parent building store event rest ih =>
      rw [perform_note] at h ⊢
      refine (ih h).imp_right ?_
      rintro ⟨hnew, hdetail, hasked, hevent⟩
      exact ⟨hnew, hdetail, hasked, List.mem_cons_of_mem _ hevent⟩
  | held parent building store other chain swaps rest hheld ih =>
      rw [perform_held hheld] at h ⊢
      rcases ih h with hkept | ⟨hnew, hdetail, hasked, hevent⟩
      · exact Or.inl (by simpa using hkept)
      · exact Or.inr ⟨hnew, hdetail, List.mem_cons_of_mem _ hasked, hevent⟩
  | missing parent building store other chain swaps rest hheld hmissing ih =>
      rw [perform_missing hheld hmissing] at h ⊢
      refine (ih h).imp_right ?_
      rintro ⟨hnew, hdetail, hasked, hevent⟩
      exact ⟨hnew, hdetail, List.mem_cons_of_mem _ hasked, List.mem_cons_of_mem _ hevent⟩
  | build parent building store other chain swaps rest template hheld hfound ihInner ihRest =>
      rw [perform_build hheld hfound] at h ⊢
      simp only [List.cons_append, List.mem_cons, List.mem_append]
      rcases ihRest h with hkept | ⟨hnew, hdetail, hasked, hevent⟩
      · rw [Store.contains_linked, Store.contains_insert] at hkept
        rcases hkept with hinner | rfl
        -- it is kept since before, or it has been built inside this view
        · rcases ihInner hinner with hold | ⟨hnew, hdetail, hasked, hevent⟩
          · exact Or.inl (by simpa using hold)
          · refine Or.inr ⟨fun hmem => hnew (List.mem_cons_of_mem _ hmem), hdetail, ?_,
              Or.inr (Or.inl hevent)⟩
            rcases List.mem_append.mp hasked with hasked | hlink
            · exact Or.inr (mem_linkNames_of_attached_expandTemplate (detailOf?_mem hfound) hasked)
            · exact Or.inr hlink
        · exact Or.inr ⟨fun hmem => hheld (Or.inr hmem), by simp [hfound], by simp [Step.attached],
            by simp⟩
      · refine Or.inr ⟨hnew, hdetail, ?_, Or.inr (Or.inr (Or.inr hevent))⟩
        exact List.mem_append.mp (List.mem_cons_of_mem _ hasked)

/-- A detail that is asked for is kept, or it is being built further out. -/
theorem contains_or_mem_of_attached (h : name ∈ Step.attached steps)
    (hdetail : (registry.detailOf? name).isSome) :
    (registry.perform properties parent building store steps).store.contains name ∨
      name ∈ building := by
  induction parent, building, store, steps using perform_induction registry properties with
  | nil parent building store => simp [Step.attached] at h
  | note parent building store event rest ih =>
      rw [perform_note]
      exact ih h
  | held parent building store other chain swaps rest hheld ih =>
      rw [perform_held hheld]
      rcases List.mem_cons.mp h with rfl | h
      · exact hheld.imp_left fun hkept => contains_perform_of_contains (by simpa using hkept)
      · exact ih h
  | missing parent building store other chain swaps rest hheld hmissing ih =>
      rw [perform_missing hheld hmissing]
      rcases List.mem_cons.mp h with rfl | h
      · simp [hmissing] at hdetail
      · exact ih h
  | build parent building store other chain swaps rest template hheld hfound _ ih =>
      rw [perform_build hheld hfound]
      rcases List.mem_cons.mp h with rfl | h
      · exact Or.inl (contains_perform_insert (Or.inr rfl))
      · exact ih h

/-- Unless the view itself is built inside, the steps that belong to it list below it exactly
the other views that they ask for and that can be had. -/
theorem mem_children_perform
    (hparent : ¬(registry.perform properties parent building store steps).store.contains parent) :
    name ∈ (registry.perform properties parent building store steps).store.navigation.children
        parent ↔
      name ∈ store.navigation.children parent ∨ name ≠ parent ∧ name ∈ Step.attached steps ∧
        ((store.contains name ∨ name ∈ building) ∨ (registry.detailOf? name).isSome) := by
  induction parent, building, store, steps using perform_induction registry properties with
  | nil parent building store => simp [perform_nil, Step.attached]
  | note parent building store event rest ih =>
      rw [perform_note] at hparent ⊢
      exact ih hparent
  | held parent building store other chain swaps rest hheld ih =>
      rw [perform_held hheld] at hparent ⊢
      rw [ih hparent, Store.mem_children_linked_self, Store.contains_linked]
      have hattached : name ∈ Step.attached (.attach other chain swaps :: rest) ↔
          name = other ∨ name ∈ Step.attached rest := List.mem_cons
      rw [hattached]
      grind
  | missing parent building store other chain swaps rest hheld hmissing ih =>
      rw [perform_missing hheld hmissing] at hparent ⊢
      rw [ih hparent]
      have hattached : name ∈ Step.attached (.attach other chain swaps :: rest) ↔
          name = other ∨ name ∈ Step.attached rest := List.mem_cons
      rw [hattached]
      grind
  | build parent building store other chain swaps rest template hheld hfound ihInner ihRest =>
      rw [perform_build hheld hfound] at hparent ⊢
      rw [ihRest hparent, Store.mem_children_linked_self, Store.navigation_insert,
        Store.contains_linked, Store.contains_insert]
      set inner := (registry.perform properties other (other :: building)
        (store.resetNavigation other) (registry.expandTemplate other template chain swaps
          (blankView properties)).steps).store with hinner
      have hattached : name ∈ Step.attached (.attach other chain swaps :: rest) ↔
          name = other ∨ name ∈ Step.attached rest := List.mem_cons
      have hother : (registry.detailOf? other).isSome := by simp [hfound]
      -- nothing is listed below the parent while the other view is built
      have hne : parent ≠ other := fun heq => hparent (contains_perform_insert (Or.inr heq))
      have hchildren : inner.navigation.children parent = store.navigation.children parent := by
        rw [hinner, Navigation.children, lookup_navigation_perform (fun hbuilt => absurd
          (contains_perform_insert (Or.inl hbuilt)) hparent) hne]
        exact Navigation.children_reset_of_ne _ hne
      -- and what is built inside could be had before
      have hnew : inner.contains name → store.contains name ∨ (registry.detailOf? name).isSome :=
        fun h => (built_of_contains_perform h).imp (by simp) fun h => h.2.1
      have hold : store.contains name → inner.contains name := fun h =>
        contains_perform_of_contains (by simpa using h)
      rw [hchildren, hattached]
      grind

end Registry

end ArchDiagram

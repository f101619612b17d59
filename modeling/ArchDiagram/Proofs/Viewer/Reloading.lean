/-
# Views after a document has been loaded

Loading a document drops the views of its architectures, but not the views of details
that were built for them; those stay until they are dropped. So what an architecture
leads to may have been built before it was loaded. A view that is not left from before is
built from what is loaded, and where the views that are left are those of a new viewer,
everything that the architecture leads to is shown as a new viewer shows it
(`toJson_view_after_load`).

The proof follows two runs of the same steps, one on an empty store and one on what is
left. Where the first builds a view, the second may find it; then everything that is built
inside the view is found as well, because it is listed below it.
-/

import Mathlib.Logic.Relation
import ArchDiagram.Proofs.Viewer.Drilling
import ArchDiagram.Proofs.Viewer.Evaluation

namespace ArchDiagram

/-- One view leads to another through views listed below each other. -/
def Navigation.Leads (navigation : Navigation) : String → String → Prop :=
  Relation.ReflTransGen fun parent child => child ∈ navigation.children parent

/-- What is kept in a store stays kept in a later one as it is, and what is listed below a
view that is kept or being built stays listed. -/
structure Store.Grows (building : List String) (store final : Store) : Prop where
  get? : ∀ name view, store.get? name = some view → final.get? name = some view
  children : ∀ name, store.contains name ∨ name ∈ building →
    store.navigation.children name ⊆ final.navigation.children name

variable {building : List String} {store final kept : Store} {name : String}

theorem Store.Grows.contains (h : store.Grows building final) (hname : store.contains name) :
    final.contains name := by
  obtain ⟨view, hview⟩ := Store.contains_iff.mp hname
  exact Store.contains_iff.mpr ⟨view, h.get? name view hview⟩

/-- The views that are left in `kept` go with those of `final`: of a view in both, it is the
same one, and everything that `final` lists below it is left as well. -/
structure Store.Agrees (kept final : Store) : Prop where
  get? : ∀ name, kept.contains name → final.contains name → kept.get? name = final.get? name
  children : ∀ name, kept.contains name → final.contains name →
    ∀ child ∈ final.navigation.children name, kept.contains child

/-- A store that also has what is left keeps what one of them keeps. -/
theorem Store.contains_iff_of_get?_eq_or {found : Store}
    (h : found.get? name = (store.get? name).or (kept.get? name)) :
    found.contains name ↔ store.contains name ∨ kept.contains name := by
  change (found.get? name).isSome ↔ (store.get? name).isSome ∨ (kept.get? name).isSome
  rw [h, Option.isSome_or, Bool.or_eq_true]

/-- Where all that is new in a store is left, it is left as it is there. -/
theorem Store.Agrees.get?_or_eq {after : Store} (hagrees : kept.Agrees final)
    (hafter : after.Grows building final)
    (hstore : ∀ view, store.get? name = some view → after.get? name = some view)
    (hnew : after.contains name → store.contains name ∨ kept.contains name) :
    (store.get? name).or (kept.get? name) = (after.get? name).or (kept.get? name) := by
  cases hbefore : store.get? name with
  | some view => rw [hstore view hbefore]
  | none =>
      cases hview : after.get? name with
      | none => rfl
      | some view =>
          have hcontains : after.contains name := Store.contains_iff.mpr ⟨view, hview⟩
          have hkept := (hnew hcontains).resolve_left (Store.not_contains_iff.mpr hbefore)
          rw [Option.none_or, Option.some_or, hagrees.get? name hkept (hafter.contains hcontains)]
          exact hafter.get? name view hview

namespace Registry

variable {registry : Registry} {properties : Entries Property} {parent : String}
  {steps : List Step}

theorem grows_of_grows_perform
    (h : (registry.perform properties parent building store steps).store.Grows building final) :
    store.Grows building final where
  get? other view hview := h.get? other view (get?_perform_of_get? hview)
  children other hother _ hchild :=
    h.children other (hother.imp contains_perform_of_contains id)
      (mem_children_perform_of_mem hother hchild)

/-- Where a store grows that a view has been built, kept and linked in, the store grows that
building it has left. -/
theorem grows_of_grows_insert {other : String} {inside : List Step} {view : View}
    (hnew : ¬(store.contains other ∨ other ∈ building))
    (h : ((((registry.perform properties other (other :: building) (store.resetNavigation other)
      inside).store.insert other view).linked parent other).Grows building final)) :
    (registry.perform properties other (other :: building) (store.resetNavigation other)
      inside).store.Grows (other :: building) final where
  get? inner value hvalue := by
    have hne : inner ≠ other := by
      rintro rfl
      rw [get?_perform_of_mem_building List.mem_cons_self] at hvalue
      exact hnew (Or.inl (Store.contains_iff.mpr ⟨value, hvalue⟩))
    refine h.get? inner value ?_
    rw [Store.get?_linked, Store.get?_insert_of_ne _ _ hne, hvalue]
  children inner hinner child hchild := by
    refine h.children inner ?_ (Store.children_subset_linked _ parent other inner hchild)
    rw [Store.contains_linked, Store.contains_insert]
    rcases hinner with hinner | hinner
    · exact Or.inl (Or.inl hinner)
    · exact (List.mem_cons.mp hinner).imp Or.inr id

/-- What is built inside a view that is left is left. -/
theorem contains_of_contains_perform (hagrees : kept.Agrees final) (hparent : kept.contains parent)
    (hparent' : final.contains parent) (hbuilding : parent ∈ building)
    (hgrows : (registry.perform properties parent building store steps).store.Grows building final)
    (h : (registry.perform properties parent building store steps).store.contains name) :
    store.contains name ∨ kept.contains name := by
  induction parent, building, store, steps using perform_induction registry properties
    generalizing name with
  | nil => rw [perform_nil] at h; exact Or.inl h
  | note parent building store event rest ih =>
      rw [perform_note] at h hgrows
      exact ih hparent hparent' hbuilding hgrows h
  | held parent building store other chain swaps rest hheld ih =>
      rw [perform_held hheld] at h hgrows
      simpa using ih hparent hparent' hbuilding hgrows h
  | missing parent building store other chain swaps rest hheld hmissing ih =>
      rw [perform_missing hheld hmissing] at h hgrows
      exact ih hparent hparent' hbuilding hgrows h
  | build parent building store other chain swaps rest template hheld hfound ihInner ihRest =>
      rw [perform_build hheld hfound] at h hgrows
      have hafter := grows_of_grows_perform hgrows
      have hne : other ≠ parent := fun heq => hheld (Or.inr (heq ▸ hbuilding))
      -- the view is listed below its parent, which is left
      have hother : kept.contains other := by
        refine hagrees.children parent hparent hparent' other ?_
        exact hafter.children parent (Or.inr hbuilding)
          (Store.mem_children_linked_self.mpr (Or.inr ⟨rfl, hne⟩))
      have hother' : final.contains other := hafter.contains (by simp [Store.contains_insert])
      rcases ihRest hparent hparent' hbuilding hgrows h with hafter' | hkept
      · rw [Store.contains_linked, Store.contains_insert] at hafter'
        rcases hafter' with hinner | rfl
        · simpa using ihInner hother hother' List.mem_cons_self (grows_of_grows_insert hheld hafter)
            hinner
        · exact Or.inr hother
      · exact Or.inr hkept

/-- The same steps on two stores, of which the second also has what is left: where the first
run builds a view, the second builds the same one or finds it. -/
theorem get?_perform_or {found : Store} (hagrees : kept.Agrees final)
    (hgrows : (registry.perform properties parent building store steps).store.Grows building final)
    (hfound : ∀ other, found.get? other = (store.get? other).or (kept.get? other)) (name : String) :
    (registry.perform properties parent building found steps).store.get? name =
      ((registry.perform properties parent building store steps).store.get? name).or
        (kept.get? name) := by
  induction parent, building, store, steps using perform_induction registry properties
    generalizing found name with
  | nil => rw [perform_nil, perform_nil]; exact hfound name
  | note parent building store event rest ih =>
      rw [perform_note] at hgrows
      rw [perform_note, perform_note]
      exact ih hgrows hfound name
  | held parent building store other chain swaps rest hheld ih =>
      have hheld' : found.contains other ∨ other ∈ building :=
        hheld.imp (fun h => (Store.contains_iff_of_get?_eq_or (hfound other)).mpr (Or.inl h)) id
      rw [perform_held hheld] at hgrows
      rw [perform_held hheld, perform_held hheld']
      exact ih hgrows (by simpa using hfound) name
  | missing parent building store other chain swaps rest hheld hmissing ih =>
      rw [perform_missing hheld hmissing] at hgrows
      rw [perform_missing hheld hmissing]
      -- a view that cannot be built may be left nevertheless
      by_cases hheld' : found.contains other ∨ other ∈ building
      · rw [perform_held hheld']
        exact ih hgrows (by simpa using hfound) name
      · rw [perform_missing hheld' hmissing]
        exact ih hgrows hfound name
  | build parent building store other chain swaps rest template hheld hdetail ihInner ihRest =>
      rw [perform_build hheld hdetail] at hgrows
      rw [perform_build hheld hdetail]
      have hafter := grows_of_grows_perform hgrows
      have hinner := grows_of_grows_insert hheld hafter
      have hother' : final.contains other := hafter.contains (by simp [Store.contains_insert])
      have hcontains := Store.contains_iff_of_get?_eq_or (hfound other)
      by_cases hkept : kept.contains other
      -- the second run finds the view, and so whatever the first one builds inside it
      · rw [perform_held (Or.inl (hcontains.mpr (Or.inr hkept)))]
        refine ihRest hgrows (fun inner => ?_) name
        rw [Store.get?_linked, hfound]
        refine hagrees.get?_or_eq hafter (fun view hview => ?_) fun hafter' => ?_
        · have hne : inner ≠ other := fun heq =>
            hheld (Or.inl (Store.contains_iff.mpr ⟨view, heq ▸ hview⟩))
          rw [Store.get?_linked, Store.get?_insert_of_ne _ _ hne]
          exact get?_perform_of_get? (by simpa using hview)
        · rw [Store.contains_linked, Store.contains_insert] at hafter'
          rcases hafter' with hinside | rfl
          · simpa using contains_of_contains_perform hagrees hkept hother' List.mem_cons_self hinner
              hinside
          · exact Or.inr hkept
      · have hheld' : ¬(found.contains other ∨ other ∈ building) := by
          rw [hcontains]
          tauto
        rw [perform_build hheld' hdetail]
        refine ihRest hgrows (fun inner => ?_) name
        rw [Store.get?_linked, Store.get?_linked]
        by_cases heq : inner = other
        · subst heq
          simp
        · rw [Store.get?_insert_of_ne _ _ heq, Store.get?_insert_of_ne _ _ heq]
          exact ihInner hinner (by simpa using hfound) inner

/-- What is listed below a view is kept or being built, unless it was listed before, and then
the view is not a new one. -/
theorem contains_of_mem_children_perform {other child : String}
    (h : child ∈ (registry.perform properties parent building store
      steps).store.navigation.children other) :
    ((registry.perform properties parent building store steps).store.contains child ∨
      child ∈ building) ∨ (child ∈ store.navigation.children other ∧
        ((registry.perform properties parent building store steps).store.contains other →
          store.contains other)) := by
  induction parent, building, store, steps using perform_induction registry properties with
  | nil parent building store => rw [perform_nil] at h ⊢; exact Or.inr ⟨h, id⟩
  | note parent building store event rest ih =>
      rw [perform_note] at h ⊢
      exact ih h
  | held parent building store name chain swaps rest hheld ih =>
      rw [perform_held hheld] at h ⊢
      rcases ih h with hgood | ⟨hchild, hnew⟩
      · exact Or.inl hgood
      · rcases Store.mem_children_of_mem_children_linked hchild with hchild | rfl
        · exact Or.inr ⟨hchild, by simpa using hnew⟩
        · refine Or.inl (hheld.imp (fun hkept => ?_) id)
          exact contains_perform_of_contains (by simpa using hkept)
  | missing parent building store name chain swaps rest hheld hmissing ih =>
      rw [perform_missing hheld hmissing] at h ⊢
      exact ih h
  | build parent building store name chain swaps rest template hheld hfound ihInner ihRest =>
      rw [perform_build hheld hfound] at h ⊢
      rcases ihRest h with hgood | ⟨hchild, hnew⟩
      · exact Or.inl hgood
      · rcases Store.mem_children_of_mem_children_linked hchild with hchild | rfl
        · rcases ihInner hchild with (hinner | hinner) | ⟨hold, hinner⟩
          · exact Or.inl (Or.inl (contains_perform_insert (Or.inl hinner)))
          · rcases List.mem_cons.mp hinner with heq | hinner
            · exact Or.inl (Or.inl (contains_perform_insert (Or.inr heq)))
            · exact Or.inl (Or.inr hinner)
          · by_cases heq : other = name
            · subst heq
              simp [Store.resetNavigation, Navigation.children_reset_self] at hold
            · rw [Store.resetNavigation, Navigation.children_reset_of_ne _ heq] at hold
              refine Or.inr ⟨hold, fun hafter => ?_⟩
              have hafter := hnew hafter
              rw [Store.contains_linked, Store.contains_insert] at hafter
              simpa using hinner (hafter.resolve_right heq)
        · exact Or.inl (Or.inl (contains_perform_insert (Or.inr rfl)))

end Registry

namespace Viewer

/-- A viewer keeps a view as another one shows it, together with whatever is listed below it
in either. -/
structure KeepsAs (viewer other : Viewer) (name : String) : Prop where
  shown : viewer.store.get? name = other.shown? name
  listed : ∀ child, child ∈ other.store.navigation.children name ∨
    child ∈ viewer.store.navigation.children name → viewer.store.contains child

/-- What a viewer has left over from before goes with what `other` shows of a name: each view
that the name leads to, or that `other` keeps. -/
def LeavesAs (viewer other : Viewer) (root : String) : Prop :=
  ∀ name, (viewer.view root).1.store.navigation.Leads root name ∨ other.store.contains name →
    viewer.store.contains name → viewer.KeepsAs other name

section Opened

variable {viewer : Viewer} {opening : Opening} {root name : String}

/-- What is kept when a view has been opened: what a new viewer keeps, and what is left. -/
theorem get?_carriedOut_of_leavesAs (hroot : viewer.store.get? root = none)
    (hopening : viewer.registry.opening? root = some opening)
    (hleft : viewer.LeavesAs ((start viewer.registry).view root).1 root) (name : String) :
    (viewer.registry.carriedOut root opening viewer.store).get? name =
      ((viewer.registry.carriedOut root opening Store.empty).get? name).or
        (viewer.store.get? name) := by
  have hfresh : ((start viewer.registry).view root).1 = _ := view_of_opening rfl hopening
  -- a view that is left and that the new viewer builds is kept as the new viewer shows it
  have hkeeps {other : String} (hkept : viewer.store.contains other)
      (hbuilt : (viewer.registry.carriedOut root opening Store.empty).contains other) :
      viewer.KeepsAs ((start viewer.registry).view root).1 other := by
    refine hleft other (Or.inr ?_) hkept
    rw [hfresh]
    exact Store.contains_insert.mpr (Or.inl hbuilt)
  have hagrees : viewer.store.Agrees (viewer.registry.carriedOut root opening Store.empty) := by
    refine ⟨fun other hkept hbuilt => ?_, fun other hkept hbuilt child hchild => ?_⟩
    · have hne : other ≠ root := by
        rintro rfl
        exact Store.not_contains_iff.mpr hroot hkept
      obtain ⟨view, hview⟩ := Store.contains_iff.mp hbuilt
      rw [(hkeeps hkept hbuilt).shown, hview]
      refine shown?_of_get? ?_
      rw [hfresh]
      exact (Store.get?_insert_of_ne _ _ hne).trans hview
    · refine (hkeeps hkept hbuilt).listed child (Or.inl ?_)
      rwa [hfresh]
  exact Registry.get?_perform_or hagrees ⟨fun _ _ => id, fun _ _ _ => id⟩
    (fun other => by simp) name

/-- Everything that the view of an architecture leads to is kept. -/
theorem contains_of_leads (hroot : viewer.store.get? root = none)
    (hopening : viewer.registry.opening? root = some opening) (hbuilding : opening.building = [])
    (hleft : viewer.LeavesAs ((start viewer.registry).view root).1 root)
    (h : (viewer.view root).1.store.navigation.Leads root name) :
    (viewer.view root).1.store.contains name := by
  have hopened := view_of_opening hroot hopening
  induction h with
  | refl => rw [hopened]; exact Store.contains_insert.mpr (Or.inr rfl)
  | @tail parent child hleads hchild ih =>
      by_cases hkept : viewer.store.contains parent
      -- below a view that is left, there is what has been listed there before
      · have hne : parent ≠ root := by
          rintro rfl
          exact Store.not_contains_iff.mpr hroot hkept
        have hlisted : (viewer.view root).1.store.navigation.children parent =
            viewer.store.navigation.children parent := by
          rw [hopened]
          refine (Registry.children_perform_of_contains (by simpa using hkept) hne).trans ?_
          exact Navigation.children_reset_of_ne _ hne
        rw [hlisted] at hchild
        have hkeeps := hleft parent (Or.inl hleads) hkept
        exact contains_view (Or.inl (hkeeps.listed child (Or.inr hchild)))
      · rw [hopened] at hchild ih ⊢
        rw [Store.contains_insert] at ih ⊢
        rcases Registry.contains_of_mem_children_perform hchild with
          (hcontains | hmem) | ⟨hold, hnew⟩
        · exact Or.inl hcontains
        · simp [hbuilding] at hmem
        · rcases ih with ih | rfl
          · exact absurd (by simpa using hnew ih) hkept
          · simp [Store.resetNavigation, Navigation.children_reset_self] at hold

/-- What the view of an architecture leads to is shown as by a new viewer. -/
theorem shown?_of_leads (hroot : viewer.store.get? root = none)
    (hopening : viewer.registry.opening? root = some opening) (hbuilding : opening.building = [])
    (hleft : viewer.LeavesAs ((start viewer.registry).view root).1 root)
    (h : (viewer.view root).1.store.navigation.Leads root name) :
    (viewer.view root).1.shown? name = ((start viewer.registry).view root).1.shown? name := by
  obtain ⟨view, hview⟩ := Store.contains_iff.mp
    (contains_of_leads hroot hopening hbuilding hleft h)
  have hopened := view_of_opening hroot hopening
  have hfresh : ((start viewer.registry).view root).1 = _ := view_of_opening rfl hopening
  rw [shown?_of_get? hview]
  by_cases heq : name = root
  · subst heq
    rw [hopened, Store.get?_insert_self] at hview
    exact (shown?_of_get? (by rw [hfresh, Store.get?_insert_self, hview])).symm
  · cases hkept : viewer.store.get? name with
    | some kept =>
        have hkeeps := hleft name (Or.inl h) (Store.contains_iff.mpr ⟨kept, hkept⟩)
        have hstays : (viewer.view root).1.store.get? name = some kept := by
          rw [hopened, Store.get?_insert_of_ne _ _ heq]
          exact Registry.get?_perform_of_get? (by simpa using hkept)
        rw [← hkeeps.shown, hkept, ← hview, hstays]
    | none =>
        refine (shown?_of_get? ?_).symm
        rw [hopened, Store.get?_insert_of_ne _ _ heq,
          get?_carriedOut_of_leavesAs hroot hopening hleft, hkept, Option.or_none] at hview
        rw [hfresh, Store.get?_insert_of_ne _ _ heq]
        exact hview

end Opened

/-! ### A diagram that is loaded anew -/

/-- What is left of the diagram when it is loaded anew: the view inside the unit, with the
depth that the diagram had before. -/
def leftover : Store where
  views := [("inside", ⟨[], [], [("depth", .integer 1)],
    [("inside_box", ⟨some "box", none, none, none, none, none, none, none, []⟩)]⟩)]
  navigation := [("inside", [])]

/-- The diagram has been opened. -/
def planned : Store where
  views := leftover.views ++ [("plan", ⟨[], [], [("depth", .integer 1)],
    [("unit_box", ⟨some "box", none, none, some "inside", none, none, none, none, []⟩)]⟩)]
  navigation := [("plan", ["inside"]), ("inside", [])]

theorem view_plan : ((start .drillable).view "plan").1 = ⟨.drillable, planned⟩ := by
  have hstore : ((start .drillable).view "plan").1.store = planned :=
    eq_of_viewBounded (fun served => served.1.store) (by decide +kernel)
  rw [← hstore]
  rfl

/-- The diagram is loaded anew. -/
def replanned (architecture : Architecture) : Viewer :=
  ⟨Registry.drillable.mergeArchitectures [("plan", architecture)], leftover⟩

theorem load_planned {text : String} {architecture : Architecture}
    (hparse : Document.parse text = .ok [("plan", architecture)]) :
    ((Viewer.mk .drillable planned).load text).1 = replanned architecture := by
  have hleft : planned.invalidate "plan" = leftover := by decide +kernel
  rw [load_of_parse hparse, addArchitectures, replanned, ← hleft]
  rfl

/-- The diagram with a depth, and with the annex. -/
def extended (depth : Int) : Architecture :=
  ⟨[("properties", .properties [("depth", .integer depth)]), ("unit", .default),
    ("annex", .default)]⟩

theorem leads_extended (depth : Int) (h : depth = 1 ∨ depth = 2) :
    ((replanned (extended depth)).view "plan").1.store.navigation.Leads "plan" "inside" := by
  have hchildren : ((replanned (extended depth)).view "plan").1.store.navigation.children "plan" =
      ["inside", "beyond"] := by
    refine eq_of_viewBounded (fun served => served.1.store.navigation.children "plan") ?_
    rcases h with rfl | rfl <;> decide +kernel
  exact .single (hchildren ▸ List.mem_cons_self)

/-- With the depth it had, the diagram leaves what a new viewer shows. -/
theorem leavesAs_extended :
    (replanned (extended 1)).LeavesAs
      ((start (replanned (extended 1)).registry).view "plan").1 "plan" := by
  rintro name - hkept
  obtain rfl : name = "inside" := by
    simpa [replanned, leftover, Store.contains, Entries.has, List.lookup_isSome_iff] using hkept
  have hview : ((start (replanned (extended 1)).registry).view "plan").1.store.get? "inside" =
      leftover.get? "inside" :=
    eq_of_viewBounded (fun served => served.1.store.get? "inside") (by decide +kernel)
  have hfresh : ((start (replanned (extended 1)).registry).view
      "plan").1.store.navigation.children "inside" = [] :=
    eq_of_viewBounded (fun served => served.1.store.navigation.children "inside")
      (by decide +kernel)
  have hleft : (replanned (extended 1)).store.navigation.children "inside" = [] := rfl
  exact ⟨(shown?_of_get? (hview.trans rfl)).symm, by simp [hfresh, hleft]⟩

/-! ### The views after loading -/

/-- An architecture is loaded and opened. Whatever has not been kept before is built from what
is loaded. And where what is left is what a new viewer shows, together with what is listed
below it, everything that the architecture leads to is answered as by the new viewer. -/
theorem toJson_view_after_load (viewer : Viewer) {text : String} {architectures : Architectures}
    (hparse : Document.parse text = .ok architectures) {root : String}
    (hroot : root ∈ Entries.names architectures) :
    let loaded := (viewer.load text).1
    let opened := (loaded.view root).1
    let fresh := ((start loaded.registry).view root).1
    (∀ name view, ¬loaded.store.contains name → opened.store.get? name = some view →
      loaded.registry.Opens root name view) ∧
    (loaded.LeavesAs fresh root → ∀ name, opened.store.navigation.Leads root name →
      (opened.view name).2.toJson = (fresh.view name).2.toJson) := by
  intro loaded opened fresh
  have hloaded : loaded = viewer.addArchitectures architectures := load_of_parse hparse
  have hdropped : loaded.store.get? root = none := by
    rw [hloaded, get?_addArchitectures, if_pos hroot]
  obtain ⟨architecture, harchitecture⟩ : ∃ architecture,
      loaded.registry.architecture? root = some architecture := by
    rw [hloaded]
    exact Option.isSome_iff_exists.mp (Registry.isSome_architecture?_mergeArchitectures hroot)
  refine ⟨fun name view hnew hview => ?_, fun hleft name hleads => ?_⟩
  · exact (get?_or_opens_of_get?_view hview).resolve_left fun hkept =>
      hnew (Store.contains_iff.mpr ⟨view, hkept⟩)
  · rw [toJson_view, toJson_view, shown?_of_leads hdropped
      (Registry.opening?_of_architecture harchitecture) rfl hleft hleads]

/-- The annex is added and the depth is kept: what is inside the unit is left, and what the
annex opens is built from what is loaded. -/
theorem toJson_view_after_load_extended :
    let loaded := (((start .drillable).view "plan").1.load
      "plan:\n    properties:\n        depth: 1\n    unit\n    annex\n").1
    let opened := (loaded.view "plan").1
    let fresh := ((start loaded.registry).view "plan").1
    (∃ view, ¬loaded.store.contains "beyond" ∧ opened.store.get? "beyond" = some view ∧
      loaded.registry.Opens "plan" "beyond" view) ∧
    loaded.LeavesAs fresh "plan" ∧ opened.store.navigation.Leads "plan" "inside" ∧
      (opened.view "inside").2.toJson = (fresh.view "inside").2.toJson := by
  have hparse : Document.parse "plan:\n    properties:\n        depth: 1\n    unit\n    annex\n" =
      .ok [("plan", extended 1)] := by decide +kernel
  have hafter := toJson_view_after_load ((start .drillable).view "plan").1 hparse
    (show "plan" ∈ Entries.names [("plan", extended 1)] by decide +kernel)
  simp only [view_plan, load_planned hparse] at hafter ⊢
  have hnew : ¬(replanned (extended 1)).store.contains "beyond" := by decide +kernel
  have hkept : ((replanned (extended 1)).view "plan").1.store.contains "beyond" = true :=
    eq_of_viewBounded (fun served => served.1.store.contains "beyond") (by decide +kernel)
  obtain ⟨view, hview⟩ := Store.contains_iff.mp hkept
  have hleads := leads_extended 1 (Or.inl rfl)
  exact ⟨⟨view, hnew, hview, hafter.1 "beyond" view hnew hview⟩, leavesAs_extended, hleads,
    hafter.2 leavesAs_extended "inside" hleads⟩

/-- The depth of the diagram changes, but what is inside the unit still has the one that the
diagram had before. -/
theorem not_forall_toJson_view_after_load_eq :
    ¬∀ (registry : Registry) (requests : List Request) (text : String)
      (architectures : Architectures) (root name : String),
      Document.parse text = .ok architectures → root ∈ Entries.names architectures →
      let loaded := (((start registry).serveAll requests).load text).1
      let opened := (loaded.view root).1
      opened.store.navigation.Leads root name →
      (opened.view name).2.toJson = (((start loaded.registry).view root).1.view name).2.toJson := by
  intro h
  have hparse : Document.parse "plan:\n    properties:\n        depth: 2\n    unit\n    annex\n" =
      .ok [("plan", extended 2)] := by decide +kernel
  have hserved : (start .drillable).serveAll [.visit (.view "plan")] = ⟨.drillable, planned⟩ := by
    rw [serveAll, List.foldl_cons, List.foldl_nil]
    exact view_plan
  have hsame := h .drillable [.visit (.view "plan")] _ _ "plan" "inside" hparse (by decide +kernel)
  simp only [hserved, load_planned hparse] at hsame
  rw [← Option.some_inj, ← answerBounded_view, ← answerBounded_view] at hsame
  exact absurd (hsame (leads_extended 2 (Or.inr rfl))) (by decide +kernel)

end Viewer

end ArchDiagram

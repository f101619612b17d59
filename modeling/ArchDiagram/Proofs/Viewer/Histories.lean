/-
# What a viewer shows under a name

A view that an architecture or a detail opens is built with the properties, the
overrides and the chain it is met in, and then kept. So what a viewer shows under a name
depends on what it has been asked for before, but only within bounds that the registry
sets: it is one of the views that opening some name can leave there (`Opens`), and each
of them can come about (`shows_iff`). If they are all written alike, then no request
tells two histories apart (`toJson_view_visitAll`).
-/

import ArchDiagram.Proofs.Viewer.Drilling
import ArchDiagram.Proofs.Viewer.Evaluation

namespace ArchDiagram

namespace Registry

/-- Opening some name can leave `view` under `name`. -/
def Shows (registry : Registry) (name : String) (view : View) : Prop :=
  ∃ root, registry.Opens root name view

/-- Whatever can be shown under a name is written alike. -/
def Determines (registry : Registry) (name : String) : Prop :=
  ∀ first second, registry.Shows name first → registry.Shows name second →
    first.fill.toJson = second.fill.toJson

variable {registry : Registry} {properties : Entries Property} {parent : String}
  {building : List String} {store : Store} {steps : List Step} {trail : List String}
  {name : String} {view : View}

/-- Only under the names of architectures and details can something be shown. -/
theorem isSome_viewAlone?_of_shows (h : registry.Shows name view) :
    (registry.viewAlone? name).isSome := by
  obtain ⟨root, hroot⟩ := h
  cases hroot with
  | itself halone => simp [halone]
  | drill _ hdrills _ _ =>
      obtain ⟨template, hfound⟩ := Option.isSome_iff_exists.mp
        (hdrills.isSome_detailOf? name List.mem_cons_self)
      exact isSome_viewAlone?_of_detailOf? hfound

/-! ### Every one of these can be kept -/

/-- Where every other view that is asked for is kept or cannot be had, the steps do drill
into the view. -/
theorem get?_perform_of_drills (h : registry.Drills properties steps trail name view)
    (hsteps : ∀ attached ∈ Step.attached steps, attached ∈ registry.linkNames)
    (hnew : ∀ other ∈ name :: trail, ¬(store.contains other ∨ other ∈ building))
    (hothers : ∀ other ∈ registry.linkNames, other ∉ name :: trail →
      (store.contains other ∨ other ∈ building) ∨ registry.detailOf? other = none) :
    (registry.perform properties parent building store steps).store.get? name = some view := by
  induction h generalizing parent building store with
  | @here name chain swaps template rest hfound =>
      rw [perform_build (hnew name List.mem_cons_self) hfound]
      exact get?_perform_of_get? (by simp)
  | @inside other chain swaps template trail name view rest hfound hother hdrills ih =>
      have hbuilt := hnew other (by simp)
      rw [perform_build hbuilt hfound]
      have hne : name ≠ other := fun heq => hother (heq ▸ List.mem_cons_self)
      refine get?_perform_of_get? ?_
      rw [Store.get?_linked, Store.get?_insert_of_ne _ _ hne]
      refine ih (fun attached => mem_linkNames_of_attached_expandTemplate (detailOf?_mem hfound))
        (fun inner hmem => ?_) (fun inner hlink hout => ?_)
      · have hinner := hnew inner (by simp only [List.mem_cons] at hmem ⊢; tauto)
        have hne : inner ≠ other := fun heq => hother (heq ▸ hmem)
        simpa [hne] using hinner
      · by_cases heq : inner = other
        · exact Or.inl (Or.inr (heq ▸ List.mem_cons_self))
        · refine (hothers inner hlink ?_).imp_left (Or.imp (by simp) (List.mem_cons_of_mem _))
          simp only [List.mem_cons, not_or] at hout ⊢
          exact ⟨hout.1, heq, hout.2⟩
  | note _ ih =>
      rw [perform_note]
      exact ih hsteps hnew hothers
  | @skip other chain swaps rest trail name view hout _ ih =>
      have hrest : ∀ attached ∈ Step.attached rest, attached ∈ registry.linkNames :=
        fun attached hattached => hsteps attached (List.mem_cons_of_mem _ hattached)
      -- a view that the trail does not go through is not built, so nothing is built inside it
      by_cases hheld : store.contains other ∨ other ∈ building
      · rw [perform_held hheld]
        exact ih hrest (by simpa using hnew) (by simpa using hothers)
      · have hmissing := (hothers other (hsteps other List.mem_cons_self) hout).resolve_left hheld
        rw [perform_missing hheld hmissing]
        exact ih hrest hnew hothers

/-! ### A unit without a diagram -/

/-- The unit alone. -/
def unplanned : Registry where
  components := [("unit", .boxed (some "inside"))]
  details := [("inside", .boxed none)]
  architectures := []

theorem attach_of_mem_unplanned {root other : String} {template : Template}
    {chain : List String} {swaps : List (String × Override)}
    (htemplate : template ∈ unplanned.templates)
    (h : Step.attach other chain swaps ∈
      (unplanned.expandTemplate root template [] [] View.empty).steps) :
    other = "inside" ∧ chain = [] ∧ swaps = [] := by
  simp only [unplanned, templates, List.cons_append, List.nil_append, List.map_cons,
    List.map_nil, List.mem_cons, List.not_mem_nil, or_false] at htemplate
  rcases htemplate with rfl | rfl
  · simpa [expandTemplate, Template.boxed, expandContent_leaf, expandContent_nil, Frame.opening,
      Frame.place, Frame.settle, Item.links, Item.arrows, View.empty] using h
  · simp [expandTemplate, Template.boxed, expandContent_leaf, expandContent_nil, Frame.opening,
      Frame.place, Frame.settle, Item.links, Item.arrows, View.empty] at h

/-- Without a diagram there is one way only to build what is inside the unit. -/
theorem determines_unplanned : unplanned.Determines "inside" := by
  have halone (view : View) (h : unplanned.Shows "inside" view) :
      unplanned.viewAlone? "inside" = some view := by
    obtain ⟨root, hroot⟩ := h
    cases hroot with
    | itself h => exact h
    | drill hopening hdrills _ _ =>
        obtain ⟨other, chain, swaps, template, hmem, hfound, h⟩ := hdrills.exists_attach
        obtain ⟨template, hroot, rfl⟩ := Option.map_eq_some_iff.mp hopening
        obtain ⟨rfl, rfl, rfl⟩ := attach_of_mem_unplanned (detailOf?_mem hroot) hmem
        obtain ⟨_, rfl⟩ := h.resolve_right fun h => h.1 rfl
        rw [viewAlone?, opening?_of_detail rfl hfound]
        rfl
  intro first second hfirst hsecond
  rw [Option.some_inj.mp ((halone first hfirst).symm.trans (halone second hsecond))]

end Registry

namespace Viewer

variable {viewer : Viewer} {registry : Registry} {name : String} {view : View}

/-- Whatever is kept can be shown. -/
theorem shows_of_get?_visitAll {visits : List Visit}
    (hkept : ∀ name view, viewer.store.get? name = some view → viewer.registry.Shows name view)
    (h : (viewer.visitAll visits).store.get? name = some view) :
    viewer.registry.Shows name view := by
  induction visits generalizing viewer with
  | nil => exact hkept name view h
  | cons visit rest ih =>
      rw [← registry_visit viewer visit]
      refine ih (fun other view hview => ?_) h
      rw [registry_visit]
      cases visit with
      | view root =>
          rcases get?_or_opens_of_get?_view hview with hview | hopens
          · exact hkept other view hview
          · exact ⟨root, hopens⟩
      | invalidate dropped => exact hkept other view (Store.get?_of_get?_invalidate hview)
      | navigation => exact hkept other view hview

/-- What is shown under a name, whatever has been asked for, can be shown. -/
theorem shows_of_shown? {visits : List Visit}
    (h : ((start registry).visitAll visits).shown? name = some view) :
    registry.Shows name view := by
  unfold shown? at h
  cases hkept : ((start registry).visitAll visits).store.get? name with
  | some kept =>
      rw [hkept, Option.some_or] at h
      have hshows : (start registry).registry.Shows name view :=
        shows_of_get?_visitAll (by simp [start]) (hkept.trans h)
      exact hshows
  | none =>
      rw [hkept, Option.none_or, registry_visitAll] at h
      exact ⟨name, .itself h⟩

/-- Something is shown under a name exactly if the name can be opened. -/
theorem isSome_shown? (registry : Registry) (visits : List Visit) (name : String) :
    (((start registry).visitAll visits).shown? name).isSome =
      (registry.viewAlone? name).isSome := by
  rw [Bool.eq_iff_iff]
  constructor
  · intro h
    obtain ⟨view, hview⟩ := Option.isSome_iff_exists.mp h
    exact Registry.isSome_viewAlone?_of_shows (shows_of_shown? hview)
  · intro h
    rw [shown?, registry_visitAll, Option.isSome_or, Bool.or_eq_true]
    exact Or.inr h

/-! ### Reaching a view -/

/-- Asking for views keeps them, together with everything that was kept. -/
theorem contains_visitAll_view {names : List String}
    (h : viewer.store.contains name ∨ name ∈ names ∧ (viewer.registry.viewAlone? name).isSome) :
    (viewer.visitAll (names.map .view)).store.contains name := by
  induction names generalizing viewer with
  | nil => simpa [visitAll] using h
  | cons root rest ih =>
      change ((viewer.view root).1.visitAll (rest.map .view)).store.contains name
      refine ih ?_
      rcases h with hkept | ⟨hmem, hview⟩
      · exact Or.inl (contains_view (Or.inl hkept))
      · rcases List.mem_cons.mp hmem with heq | hmem
        · exact Or.inl (contains_view (Or.inr ⟨heq, hview⟩))
        · exact Or.inr ⟨hmem, hview⟩

/-- If no link names an architecture, then every view that can be shown under a name is
shown there after some requests: all views are asked for, those on the way from the name
that is opened are dropped, and it is opened again. -/
theorem exists_shown?_of_shows
    (hlinks : ∀ link ∈ registry.linkNames, registry.architecture? link = none)
    (h : registry.Shows name view) :
    ∃ visits, ((start registry).visitAll visits).shown? name = some view := by
  obtain ⟨root, hroot⟩ := h
  cases hroot with
  | itself halone => exact ⟨[], by simp [visitAll, shown?, start, halone]⟩
  | @drill opening trail _ _ hopening hdrills hbuilding hne =>
      let full := (start registry).visitAll (registry.linkNames.map .view)
      let cleared := full.visitAll ((root :: name :: trail).map .invalidate)
      have hregistry : cleared.registry = registry := by
        rw [registry_visitAll, registry_visitAll, start]
      have hcleared (other : String) : cleared.store.get? other =
          if other ∈ root :: name :: trail then none else full.store.get? other := by
        rw [store_visitAll_invalidate, Store.get?_foldl_invalidate]
      refine ⟨registry.linkNames.map .view ++ (root :: name :: trail).map .invalidate ++
        [.view root], ?_⟩
      rw [visitAll_append, visitAll_append]
      refine shown?_of_get? ?_
      change (cleared.view root).1.store.get? name = some view
      rw [view_of_opening (by rw [hcleared, if_pos List.mem_cons_self]) (by rwa [hregistry]),
        Store.get?_insert_of_ne _ _ hne, hregistry]
      refine Registry.get?_perform_of_drills hdrills
        (fun attached => Registry.mem_linkNames_of_attached_opening hopening) (fun other hmem => ?_)
        (fun other hlink hout => ?_)
      · rintro (hkept | hbuilt)
        · obtain ⟨kept, hkept⟩ := Store.contains_iff.mp hkept
          rw [Store.get?_resetNavigation, hcleared, if_pos (List.mem_cons_of_mem _ hmem)] at hkept
          cases hkept
        · exact hbuilding other hmem hbuilt
      · cases hfound : registry.detailOf? other with
        | none => exact Or.inr rfl
        | some template =>
            refine Or.inl ?_
            by_cases heq : other = root
            -- the root is a detail, because a link names it, and it is being built
            · subst heq
              rw [Registry.opening?_of_detail (hlinks other hlink) hfound] at hopening
              obtain rfl := Option.some_inj.mp hopening
              exact Or.inr List.mem_cons_self
            · have hopens := Registry.isSome_viewAlone?_of_detailOf? hfound
              have hfull : full.store.contains other :=
                contains_visitAll_view (Or.inr ⟨hlink, hopens⟩)
              obtain ⟨kept, hkept⟩ := Store.contains_iff.mp hfull
              refine Or.inl (Store.contains_iff.mpr ⟨kept, ?_⟩)
              rw [Store.get?_resetNavigation, hcleared, if_neg (by
                rw [List.mem_cons, not_or]; exact ⟨heq, hout⟩), hkept]

/-- What a viewer shows under a name after some requests is exactly what can be shown. -/
theorem shows_iff (hlinks : ∀ link ∈ registry.linkNames, registry.architecture? link = none) :
    registry.Shows name view ↔
      ∃ visits, ((start registry).visitAll visits).shown? name = some view :=
  ⟨exists_shown?_of_shows hlinks, fun ⟨_, h⟩ => shows_of_shown? h⟩

/-- The answers to a request are the same after all histories if whatever can be shown
under the name is written alike, and, where no link names an architecture, only then. After
the view has been dropped, the answer is that of a new viewer. -/
theorem toJson_view_visitAll (registry : Registry) (name : String) :
    (registry.Determines name → ∀ first second : List Visit,
      (((start registry).visitAll first).view name).2.toJson =
        (((start registry).visitAll second).view name).2.toJson) ∧
    (∀ visits : List Visit,
      (((start registry).visitAll (visits ++ [.invalidate name])).view name).2.toJson =
        ((start registry).view name).2.toJson) ∧
    ((∀ link ∈ registry.linkNames, registry.architecture? link = none) →
      (∀ first second : List Visit, (((start registry).visitAll first).view name).2.toJson =
        (((start registry).visitAll second).view name).2.toJson) →
      registry.Determines name) := by
  refine ⟨fun hsame first second => ?_, fun visits => ?_, fun hlinks hsame first second => ?_⟩
  · rw [toJson_view, toJson_view]
    have hboth := (isSome_shown? registry first name).trans
      (isSome_shown? registry second name).symm
    cases hfirst : ((start registry).visitAll first).shown? name with
    | none =>
        have hsecond : ((start registry).visitAll second).shown? name = none := by
          simpa [hfirst] using hboth
        rw [hsecond]
    | some view =>
        rw [hfirst] at hboth
        obtain ⟨other, hother⟩ := Option.isSome_iff_exists.mp hboth.symm
        rw [hother, answer, answer,
          hsame view other (shows_of_shown? hfirst) (shows_of_shown? hother)]
  · rw [toJson_view, toJson_view, visitAll_append]
    have hdropped : (((start registry).visitAll visits).invalidate name).1.shown? name =
        (start registry).shown? name := by
      simp [shown?, invalidate, registry_visitAll, start]
    exact congrArg (answer name) hdropped
  · intro hfirst hsecond
    obtain ⟨visits, hvisits⟩ := exists_shown?_of_shows hlinks hfirst
    obtain ⟨others, hothers⟩ := exists_shown?_of_shows hlinks hsecond
    have hreply := hsame visits others
    rw [toJson_view, toJson_view, hvisits, hothers] at hreply
    simpa [answer] using hreply

/-- Without a diagram, nothing that was asked for before can be told from the answer. -/
theorem toJson_view_visitAll_unplanned :
    Registry.unplanned.Determines "inside" ∧
    (((start .unplanned).visitAll [.view "unit", .invalidate "unit"]).view "inside").2.toJson =
      (((start .unplanned).visitAll []).view "inside").2.toJson ∧
    (((start .unplanned).visitAll ([.view "unit"] ++ [.invalidate "inside"])).view
      "inside").2.toJson = ((start .unplanned).view "inside").2.toJson :=
  ⟨(toJson_view_visitAll .unplanned "inside").2.2 (fun _ _ => rfl)
      ((toJson_view_visitAll .unplanned "inside").1 Registry.determines_unplanned),
    (toJson_view_visitAll .unplanned "inside").1 Registry.determines_unplanned _ _,
    (toJson_view_visitAll .unplanned "inside").2.1 _⟩

/-- The unit opened by itself and from a diagram: what is inside it has the properties of
the diagram, or none. -/
theorem not_forall_toJson_view_visitAll_eq :
    ¬∀ (registry : Registry) (name : String), (registry.detailOf? name).isSome →
      ∀ first second : List Visit, (((start registry).visitAll first).view name).2.toJson =
        (((start registry).visitAll second).view name).2.toJson := by
  intro h
  have hsame := h .drillable "inside" (by decide +kernel) [.view "plan"] [.view "unit"]
  rw [← Option.some_inj, ← answerBounded_eq, ← answerBounded_eq] at hsame
  revert hsame
  decide +kernel

end Viewer

end ArchDiagram

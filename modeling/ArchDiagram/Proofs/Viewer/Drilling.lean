/-
# Which views are built on the way

Opening a name builds other views on the way, each with the properties, the overrides and
the chain it is met in. Which views can be built under which names is a matter of the
registry alone (`Opens`); what has been kept before only decides which of them are.
Opening a name leaves nothing else (`get?_or_opens_of_get?_view`), and under a name that
no link names it leaves the view of the name itself (`Opens.viewAlone?_eq`).
-/

import ArchDiagram.Proofs.Viewer.Opening

namespace ArchDiagram

namespace Registry

/-- Carrying out the steps drills into `name` through the views of `trail`: if none of
these is kept or being built, the first of the trail is built, inside it the second, and
so on, and inside the last one `name` is built as `view`. -/
inductive Drills (registry : Registry) (properties : Entries Property) :
    List Step → List String → String → View → Prop
  | here {name chain swaps template} (rest : List Step) :
      registry.detailOf? name = some template →
      Drills registry properties (.attach name chain swaps :: rest) [] name
        (registry.expandTemplate name template chain swaps (blankView properties)).view
  | inside {other chain swaps template trail name view} (rest : List Step) :
      registry.detailOf? other = some template → other ∉ name :: trail →
      Drills registry properties
        (registry.expandTemplate other template chain swaps (blankView properties)).steps
        trail name view →
      Drills registry properties (.attach other chain swaps :: rest) (other :: trail) name view
  | note {event rest trail name view} : Drills registry properties rest trail name view →
      Drills registry properties (.note event :: rest) trail name view
  | skip {other chain swaps rest trail name view} : other ∉ name :: trail →
      Drills registry properties rest trail name view →
      Drills registry properties (.attach other chain swaps :: rest) trail name view

/-- Opening `root` can leave `view` under `name`: the view of `root` itself, or one that is
built on the way. -/
inductive Opens (registry : Registry) (root : String) : String → View → Prop
  | itself {view} : registry.viewAlone? root = some view → Opens registry root root view
  | drill {opening trail name view} : registry.opening? root = some opening →
      Drills registry opening.properties opening.expanded.steps trail name view →
      (∀ other ∈ name :: trail, other ∉ opening.building) → name ≠ root →
      Opens registry root name view

variable {registry : Registry} {properties : Entries Property} {parent : String}
  {building : List String} {store : Store} {steps : List Step} {trail : List String}
  {name : String} {view : View}

theorem isSome_viewAlone?_of_detailOf? {template : Template}
    (h : registry.detailOf? name = some template) : (registry.viewAlone? name).isSome := by
  cases harchitecture : registry.architecture? name with
  | some architecture => simp [viewAlone?, opening?_of_architecture harchitecture]
  | none => simp [viewAlone?, opening?_of_detail harchitecture h]

/-- What is drilled through and into are details. -/
theorem Drills.isSome_detailOf? (h : registry.Drills properties steps trail name view) :
    ∀ other ∈ name :: trail, (registry.detailOf? other).isSome := by
  induction h with
  | here rest hfound => simp [hfound]
  | inside rest hfound _ _ ih =>
      simp only [List.mem_cons, forall_eq_or_imp] at ih ⊢
      exact ⟨ih.1, by simp [hfound], ih.2⟩
  | note _ ih | skip _ _ ih => exact ih

/-- The first view on the way is one that is asked for. -/
theorem Drills.exists_attach (h : registry.Drills properties steps trail name view) :
    ∃ other chain swaps template, Step.attach other chain swaps ∈ steps ∧
      registry.detailOf? other = some template ∧
      let expanded := registry.expandTemplate other template chain swaps (blankView properties)
      (name = other ∧ view = expanded.view) ∨
        name ≠ other ∧ ∃ trail, registry.Drills properties expanded.steps trail name view := by
  induction h with
  | here rest hfound => exact ⟨_, _, _, _, List.mem_cons_self, hfound, Or.inl ⟨rfl, rfl⟩⟩
  | inside rest hfound hother hinner _ =>
      exact ⟨_, _, _, _, List.mem_cons_self, hfound, Or.inr
        ⟨fun heq => hother (heq ▸ List.mem_cons_self), _, hinner⟩⟩
  | note _ ih | skip _ _ ih =>
      obtain ⟨other, chain, swaps, template, hmem, h⟩ := ih
      exact ⟨other, chain, swaps, template, List.mem_cons_of_mem _ hmem, h⟩

/-- Only what a link names is drilled into. -/
theorem Drills.mem_linkNames (h : registry.Drills properties steps trail name view)
    (hsteps : ∀ attached ∈ Step.attached steps, attached ∈ registry.linkNames) :
    name ∈ registry.linkNames := by
  induction h with
  | here rest hfound => exact hsteps _ List.mem_cons_self
  | inside rest hfound _ _ ih =>
      exact ih fun attached => mem_linkNames_of_attached_expandTemplate (detailOf?_mem hfound)
  | note _ ih => exact ih hsteps
  | skip _ _ ih =>
      exact ih fun attached hattached => hsteps attached (List.mem_cons_of_mem _ hattached)

/-- Under a name that no link names there is only the view of the name itself. -/
theorem Opens.viewAlone?_eq {root : String} (h : registry.Opens root name view)
    (hlinks : name ∉ registry.linkNames) : registry.viewAlone? name = some view := by
  cases h with
  | itself halone => exact halone
  | drill hopening hdrills _ _ =>
      exact absurd (hdrills.mem_linkNames fun attached =>
        mem_linkNames_of_attached_opening hopening) hlinks

/-! ### What is kept -/

/-- Carrying out steps keeps under a name what was kept there, or what the steps drill
into. No view on the way was kept or being built at the beginning. -/
theorem get?_or_drills_of_get?_perform
    (h : (registry.perform properties parent building store steps).store.get? name = some view) :
    store.get? name = some view ∨ ∃ trail, registry.Drills properties steps trail name view ∧
      ∀ other ∈ name :: trail, ¬(store.contains other ∨ other ∈ building) := by
  induction parent, building, store, steps using perform_induction registry properties with
  | nil => rw [perform_nil] at h; exact Or.inl h
  | note parent building store event rest ih =>
      rw [perform_note] at h
      refine (ih h).imp_right ?_
      rintro ⟨trail, hdrills, hnew⟩
      exact ⟨trail, hdrills.note, hnew⟩
  | held parent building store other chain swaps rest hheld ih =>
      rw [perform_held hheld] at h
      rcases ih h with hkept | ⟨trail, hdrills, hnew⟩
      · exact Or.inl (by simpa using hkept)
      · simp only [Store.contains_linked] at hnew
        exact Or.inr ⟨trail, hdrills.skip fun hmem => hnew other hmem hheld, hnew⟩
  | missing parent building store other chain swaps rest hheld hmissing ih =>
      rw [perform_missing hheld hmissing] at h
      refine (ih h).imp_right ?_
      rintro ⟨trail, hdrills, hnew⟩
      refine ⟨trail, hdrills.skip fun hmem => ?_, hnew⟩
      simpa [hmissing] using hdrills.isSome_detailOf? other hmem
  | build parent building store other chain swaps rest template hheld hfound ihInner ihRest =>
      rw [perform_build hheld hfound] at h
      -- it is built by a later step, or it is the view of this step, or it is built inside that
      rcases ihRest h with hkept | ⟨trail, hdrills, hnew⟩
      · rw [Store.get?_linked] at hkept
        by_cases heq : name = other
        · subst heq
          rw [Store.get?_insert_self] at hkept
          obtain rfl := Option.some_inj.mp hkept
          exact Or.inr ⟨[], .here rest hfound, by simpa using hheld⟩
        · rw [Store.get?_insert_of_ne _ _ heq] at hkept
          refine (ihInner hkept).imp_right ?_
          rintro ⟨trail, hdrills, hnew⟩
          -- a view inside is not the one that is being built around it
          have hother : other ∉ name :: trail := fun hmem =>
            hnew other hmem (Or.inr List.mem_cons_self)
          have hinner : ∀ inner ∈ name :: trail, ¬(store.contains inner ∨ inner ∈ building) :=
            fun inner hmem hinner => hnew inner hmem (hinner.imp id (List.mem_cons_of_mem _))
          refine ⟨other :: trail, .inside rest hfound hother hdrills, ?_⟩
          simp only [List.mem_cons, forall_eq_or_imp] at hinner ⊢
          exact ⟨hinner.1, hheld, hinner.2⟩
      · simp only [Store.contains_linked, Store.contains_insert] at hnew
        refine Or.inr ⟨trail, hdrills.skip fun hmem => hnew other hmem (Or.inl (Or.inr rfl)),
          fun inner hmem hinner => hnew inner hmem (hinner.imp (fun hkept => Or.inl ?_) id)⟩
        exact contains_perform_of_contains (by simpa using hkept)

end Registry

namespace Viewer

variable {viewer : Viewer} {name : String} {view : View}

/-- Opening a name leaves under another one what was kept there or what it drills into. -/
theorem get?_or_opens_of_get?_view {root : String}
    (h : (viewer.view root).1.store.get? name = some view) :
    viewer.store.get? name = some view ∨ viewer.registry.Opens root name view := by
  rcases viewer.view_cases root with ⟨hsame, -⟩ | ⟨opening, -, hopening, hopened⟩
  · rw [hsame] at h
    exact Or.inl h
  · rw [hopened] at h
    by_cases heq : name = root
    · subst heq
      rw [Store.get?_insert_self] at h
      exact Or.inr (.itself (by simpa [Registry.viewAlone?, hopening] using h))
    · rw [Store.get?_insert_of_ne _ _ heq] at h
      refine (Registry.get?_or_drills_of_get?_perform h).imp (by simp) ?_
      rintro ⟨trail, hdrills, hnew⟩
      exact .drill hopening hdrills (fun other hmem hbuilding =>
        hnew other hmem (Or.inr hbuilding)) heq

end Viewer

end ArchDiagram

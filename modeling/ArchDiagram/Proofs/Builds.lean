/-
# Views built around each other

The reports of a resolution tell when a view is begun and when it is finished. Read
in order, they show that no view is begun that is kept already or that is being built
around it (`buildsNew_perform`).
-/

import ArchDiagram.Proofs.Chains

namespace ArchDiagram

/-- Some reports, read while the views of `kept` are kept and those of `building` are
being built: only another view is begun, which is being built until it is finished and
is kept from then on. -/
def Event.BuildsNew (kept building : List String) : List Event → Prop
  | [] => True
  | .viewStarted name :: rest =>
      name ∉ kept ∧ name ∉ building ∧ BuildsNew kept (name :: building) rest
  | .viewFinished name :: rest => BuildsNew (name :: kept) (building.erase name) rest
  | _ :: rest => BuildsNew kept building rest

namespace Event

variable {kept kept' building : List String}

/-- The fewer views are kept, the more may be begun. -/
theorem BuildsNew.mono {events : List Event} (h : BuildsNew kept building events)
    (hsubset : kept' ⊆ kept) : BuildsNew kept' building events := by
  induction events generalizing kept kept' building with
  | nil => trivial
  | cons event rest ih =>
      cases event with
      | viewStarted name => exact ⟨fun hmem => h.1 (hsubset hmem), h.2.1, ih h.2.2 hsubset⟩
      | viewFinished name => exact ih h (List.cons_subset_cons name hsubset)
      | _ => exact ih h hsubset

/-- A report of an expansion begins and finishes no view. -/
theorem buildsNew_cons_of_sound {registry : Registry} {pool : List String}
    {begun : List String → Prop} {event : Event} {rest : List Event}
    (hevent : (Step.note event).Sound registry pool begun) (h : BuildsNew kept building rest) :
    BuildsNew kept building (event :: rest) := by
  cases event with
  | viewStarted name | viewFinished name => exact hevent.elim
  | _ => exact h

end Event

namespace Registry

variable {registry : Registry} {pool : List String} {properties : Entries Property}
  {parent : String} {building : List String}

/-- Carrying out sound steps begins only views that are neither kept nor being built;
`rest` is what is reported afterwards. -/
theorem buildsNew_perform (store : Store) (hpool : registry.Covered pool) {steps : List Step}
    (rest : List Event)
    (hsteps : ∀ step ∈ steps, step.Sound registry pool fun _ => True)
    (hrest : Event.BuildsNew (Entries.names
      (registry.perform properties parent building store steps).store.views) building rest) :
    Event.BuildsNew (Entries.names store.views) building
      ((registry.perform properties parent building store steps).events ++ rest) := by
  induction parent, building, store, steps using perform_induction registry properties
    generalizing rest with
  | nil => simpa [perform_nil] using hrest
  | note parent building store event steps ih =>
      rw [perform_note] at hrest ⊢
      exact Event.buildsNew_cons_of_sound (hsteps _ List.mem_cons_self)
        (ih rest (fun step hstep => hsteps step (List.mem_cons_of_mem _ hstep)) hrest)
  | held parent building store name chain swaps steps hheld ih =>
      rw [perform_held hheld] at hrest ⊢
      simpa using ih rest (fun step hstep => hsteps step (List.mem_cons_of_mem _ hstep)) hrest
  | missing parent building store name chain swaps steps hheld hmissing ih =>
      rw [perform_missing hheld hmissing] at hrest ⊢
      exact ih rest (fun step hstep => hsteps step (List.mem_cons_of_mem _ hstep)) hrest
  | build parent building store name chain swaps steps template hheld hfound ihInner ihRest =>
      rw [perform_build hheld hfound] at hrest ⊢
      have hafter := ihRest rest
        (fun step hstep => hsteps step (List.mem_cons_of_mem _ hstep)) hrest
      rw [not_or] at hheld
      simp only [List.cons_append, List.append_assoc]
      refine ⟨?_, hheld.2, ihInner _ ?_ ?_⟩
      · rw [Entries.mem_names_iff_lookup_isSome]
        exact hheld.1
      · exact sound_expandTemplate hpool ((hsteps _ List.mem_cons_self).known hpool hfound)
          fun _ _ => trivial
      -- when the view is finished, it is kept and no longer being built
      · rw [Store.views_linked] at hafter
        change Event.BuildsNew _ ((name :: building).erase name) _
        rw [List.erase_cons_head]
        refine hafter.mono fun other hother => (Entries.mem_names_put _).mpr ?_
        exact (List.mem_cons.mp hother).symm

end Registry

end ArchDiagram

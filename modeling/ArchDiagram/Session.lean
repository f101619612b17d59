/-
# Sessions

A session keeps the views it has built and the properties of the architecture it
resolved last. Resolving a name expands its template and then carries out the
steps that the expansion left: the views it asks for are built, unless they are
there already or are being built around it, and are entered in the navigation.
Nothing here fails; what cannot be found is reported and left out.

Main definitions: `Registry.perform`, `Session.resolveArchitecture`,
`Session.resolveDetail`, `Session.viewOf`. Building ends because the views being
built around each other have different names, all of which the registry
mentions.
-/

import ArchDiagram.Expansion
import ArchDiagram.Store

namespace ArchDiagram

/-- The names of the views some steps ask for. -/
def Step.attached (steps : List Step) : List String :=
  steps.filterMap fun step =>
    match step with
    | .note _ => none
    | .attach detail _ _ => some detail

@[simp]
theorem Step.attached_append (first second : List Step) :
    Step.attached (first ++ second) = Step.attached first ++ Step.attached second :=
  List.filterMap_append

namespace Frame

theorem attached_choose (frame : Frame) (slot : Slot) :
    Step.attached (frame.choose slot).steps = [] := by
  refine List.filterMap_eq_nil_iff.mpr fun step hstep => ?_
  obtain ⟨slotClass, rfl⟩ := eq_note_of_mem_choose hstep
  rfl

theorem attached_opening (frame : Frame) :
    Step.attached frame.opening = frame.template.details.toList := by
  cases h : frame.template.details <;> simp [opening, Step.attached, h]

theorem mem_links_settle {frame : Frame} {previous : Option String} {anchors : Entries String}
    {item : Item} {name : String} (h : name ∈ (frame.settle previous anchors item).links) :
    name ∈ frame.template.details.toList ∨ name ∈ item.links := by
  have harrows : (frame.settle previous anchors item).arrows.filterMap Arrow.details =
      item.arrows.filterMap Arrow.details := by
    rw [arrows_settle, List.filterMap_map]
    rfl
  simp only [Item.links, harrows, List.mem_append] at h ⊢
  rcases h with h | h
  · cases hdetails : item.details with
    | none => simp [settle, hdetails] at h; exact Or.inl (by simpa using h)
    | some own => simp [settle, hdetails] at h; exact Or.inr (Or.inl (by simp [h]))
  · exact Or.inr (Or.inr h)

theorem mem_attached_place {frame : Frame} {isFirst : Bool} {anchors : Entries String}
    {key : String} {item : Item} {view : View} {name : String}
    (h : name ∈ Step.attached (frame.place isFirst anchors key item view).steps) :
    name ∈ frame.template.details.toList ∨ name ∈ item.links := by
  simp only [place, Step.attached_append, List.mem_append] at h
  rcases h with h | h
  · split at h <;> simp [Step.attached] at h
  · have hmap (details : List String) : Step.attached
        (details.map fun detail => .attach detail frame.chain frame.swaps) = details := by
      rw [Step.attached, List.filterMap_map]
      exact List.filterMap_some
    rw [hmap] at h
    exact mem_links_settle h

end Frame

namespace Registry

/-- An expansion asks only for views that its template or the registry names. -/
theorem mem_attached_expandContent {registry : Registry} {frame : Frame} {isFirst : Bool}
    {anchors : Entries String} {view : View} {content : Entries Content} {name : String}
    (h : name ∈ Step.attached (registry.expandContent frame isFirst anchors view content).steps) :
    name ∈ frame.template.details.toList ∨ name ∈ Template.linkNames content ∨
      name ∈ registry.linkNames := by
  induction frame, isFirst, anchors, view, content using expandContent_induction with
  | nil => simp [expandContent_nil, Step.attached] at h
  | leaf frame isFirst anchors view key item rest ih =>
      simp only [expandContent_leaf, Step.attached_append, List.mem_append] at h
      rcases h with h | h
      · rcases Frame.mem_attached_place h with h | h
        · exact Or.inl h
        · exact Or.inr (Or.inl (by simp [Template.linkNames, h]))
      · rcases ih h with h | h | h
        · exact Or.inl h
        · exact Or.inr (Or.inl (List.mem_append_right _ h))
        · exact Or.inr (Or.inr h)
  | slot frame isFirst anchors view key place rest ihInside ihRest =>
      simp only [expandContent_slot, Step.attached_append, List.mem_append,
        Frame.attached_choose, List.not_mem_nil, false_or] at h
      rcases h with h | h
      · refine Or.inr (Or.inr ?_)
        unfold expandComponent at h
        cases hfound : registry.instanceOf? (frame.choose place).owner with
        | none => simp [hfound, Step.attached] at h
        | some template =>
            have htemplate := instanceOf?_mem hfound
            simp only [hfound, expandTemplate] at h
            by_cases hcycle : (frame.choose place).owner ∈ frame.path
            · simp [hcycle, Step.attached] at h
            · simp only [hcycle, if_false, Step.attached_append, List.mem_append,
                Frame.attached_opening] at h
              have hlinks (hin : name ∈ template.details.toList ∨
                  name ∈ Template.linkNames template.content) : name ∈ registry.linkNames :=
                linkNames_subset htemplate (by simpa [Template.links] using hin)
              rcases h with h | h
              · exact hlinks (Or.inl h)
              · rcases ihInside template hfound hcycle h with h | h | h
                · exact hlinks (Or.inl h)
                · exact hlinks (Or.inr h)
                · exact h
      · rcases ihRest h with h | h | h
        · exact Or.inl h
        · exact Or.inr (Or.inl (by simpa [Template.linkNames] using h))
        · exact Or.inr (Or.inr h)

/-- The same, of the expansion of a template of the registry. -/
theorem mem_linkNames_of_attached_expandTemplate {registry : Registry} {owner : String}
    {template : Template} (htemplate : template ∈ registry.templates) {chain : List String}
    {swaps : Entries Override} {view : View} {name : String}
    (h : name ∈ Step.attached (registry.expandTemplate owner template chain swaps view).steps) :
    name ∈ registry.linkNames := by
  have hlinks (hin : name ∈ template.details.toList ∨
      name ∈ Template.linkNames template.content) : name ∈ registry.linkNames :=
    linkNames_subset htemplate (by simpa [Template.links] using hin)
  unfold expandTemplate at h
  split at h
  · simp [Step.attached] at h
  · simp only [Step.attached_append, List.mem_append, Frame.attached_opening] at h
    rcases h with h | h
    · exact hlinks (Or.inl h)
    · rcases mem_attached_expandContent h with h | h | h
      · exact hlinks (Or.inl h)
      · exact hlinks (Or.inr h)
      · exact h

/-! ## Carrying out the steps -/

/-- What carrying out some steps leaves: the store and what there is to report. -/
structure Outcome where
  store : Store
  events : List Event
deriving Repr

/-- The view a detail starts from: empty, with the properties of the architecture. -/
def blankView (properties : Entries Property) : View :=
  { View.empty with properties }

set_option linter.unusedVariables false in
/-- Carry out the steps left by an expansion into the view `parent`. A view that
is neither kept nor being built is built, with the steps of its own carried out
first, and kept; every view that can be had is entered below `parent`. -/
def perform (registry : Registry) (properties : Entries Property) (parent : String)
    (building : List String) (store : Store) (steps : List Step) : Outcome :=
  match steps with
  | [] => ⟨store, []⟩
  | .note event :: rest =>
      let after := perform registry properties parent building store rest
      ⟨after.store, event :: after.events⟩
  | .attach name chain swaps :: rest =>
      let linked (store : Store) : Store := if name = parent then store else store.link parent name
      if hheld : store.contains name ∨ name ∈ building then
        perform registry properties parent building (linked store) rest
      else
        match hfound : registry.detailOf? name with
        | none =>
            let after := perform registry properties parent building store rest
            ⟨after.store, .detailMissing name :: after.events⟩
        | some template =>
            let expanded := registry.expandTemplate name template chain swaps (blankView properties)
            let inner := perform registry properties name (name :: building)
              (store.resetNavigation name) expanded.steps
            let after := perform registry properties parent building
              (linked (inner.store.insert name expanded.view)) rest
            ⟨after.store,
              .viewStarted name :: inner.events ++ .viewFinished name :: after.events⟩
termination_by (Supply.left building (Step.attached steps ++ registry.linkNames), steps.length)
decreasing_by
  · exact Supply.lex_of_le_of_lt (Supply.left_le fun other hother hnew =>
      ⟨by simpa [Step.attached] using hother, hnew⟩) (by simp)
  · refine Supply.lex_of_le_of_lt (Supply.left_le fun other hother hnew => ⟨?_, hnew⟩) (by simp)
    simp only [Step.attached, List.filterMap_cons, List.cons_append, List.mem_cons]
    exact Or.inr hother
  · refine Supply.lex_of_le_of_lt (Supply.left_le fun other hother hnew => ⟨?_, hnew⟩) (by simp)
    simp only [Step.attached, List.filterMap_cons, List.cons_append, List.mem_cons]
    exact Or.inr hother
  · have hnew : name ∉ building := fun h => hheld (Or.inr h)
    have hname : name ∈ Step.attached (.attach name chain swaps :: rest) ++ registry.linkNames := by
      simp [Step.attached]
    refine Prod.Lex.left _ _ (Supply.left_lt hname hnew fun other hother hout => ?_)
    simp only [List.mem_cons, not_or] at hout
    refine ⟨List.mem_append_right _ ?_, hout.2, hout.1⟩
    rcases List.mem_append.mp hother with h | h
    · exact mem_linkNames_of_attached_expandTemplate (detailOf?_mem hfound) h
    · exact h
  · refine Supply.lex_of_le_of_lt (Supply.left_le fun other hother hnew => ⟨?_, hnew⟩) (by simp)
    simp only [Step.attached, List.filterMap_cons, List.cons_append, List.mem_cons]
    exact Or.inr hother

/-! ## Architectures -/

/-- Add one entry of an architecture to its view. Settings and references are
taken over as they are, and components are expanded. -/
def expandEntry (registry : Registry) (view : View) (key : String) : Override → Expansion
  | .settings listed => ⟨{ view with settings := view.settings ++ listed }, []⟩
  | .references listed => ⟨{ view with references := view.references ++ listed }, []⟩
  | .properties listed => ⟨{ view with properties := listed }, []⟩
  | .default => registry.expandComponent key [] [] view
  | .nested swaps => registry.expandComponent key [] swaps view
  | .swap replacement overrides => registry.expandComponent replacement [] (overrides.getD []) view

/-- Add the entries of an architecture to a view in order. -/
def expandEntries (registry : Registry) (view : View) : List (String × Override) → Expansion
  | [] => ⟨view, []⟩
  | (key, entry) :: rest =>
      let first := registry.expandEntry view key entry
      let after := registry.expandEntries first.view rest
      ⟨after.view, first.steps ++ after.steps⟩

end Registry

/-! ## Sessions -/

/-- The views built so far and the properties of the architecture resolved last. -/
structure Session where
  store : Store
  properties : Entries Property
deriving Repr

namespace Session

/-- The session in which nothing has been resolved yet. -/
def start (store : Store) : Session := ⟨store, []⟩

/-- A view with the session after it has been asked for. -/
structure Answer (α : Type) where
  view : α
  session : Session
  events : List Event

/-- Flatten an architecture; without one of this name the view is empty. -/
def resolveArchitecture (session : Session) (registry : Registry) (name : String) : Answer View :=
  match registry.architecture? name with
  | none => ⟨View.empty, session, [.architectureMissing name]⟩
  | some architecture =>
      let expanded := registry.expandEntries View.empty architecture.entries
      let outcome := registry.perform architecture.properties name []
        (session.store.resetNavigation name) expanded.steps
      ⟨expanded.view, ⟨outcome.store, architecture.properties⟩,
        .viewStarted name :: outcome.events ++ [.viewFinished name]⟩

/-- Flatten a detail, filling its slots with what the overrides put there. -/
def resolveDetail (session : Session) (registry : Registry) (name : String)
    (overrides : Entries Override) : Answer (Option View) :=
  match registry.detailOf? name with
  | none => ⟨none, session, [.detailMissing name]⟩
  | some template =>
      let expanded := registry.expandTemplate name template [] overrides
        (Registry.blankView session.properties)
      let outcome := registry.perform session.properties name [name]
        (session.store.resetNavigation name) expanded.steps
      ⟨some expanded.view, { session with store := outcome.store },
        .viewStarted name :: outcome.events ++ [.viewFinished name]⟩

/-- Resolve the architecture of a name, or else the detail of that name. -/
def resolve (session : Session) (registry : Registry) (name : String) : Answer (Option View) :=
  if (registry.architecture? name).isSome then
    let answer := session.resolveArchitecture registry name
    ⟨some answer.view, answer.session, answer.events⟩
  else session.resolveDetail registry name []

/-- The view of a name: the one that is kept, or else a new one, which is kept. -/
def viewOf (session : Session) (registry : Registry) (name : String) : Answer (Option View) :=
  match session.store.get? name with
  | some view => ⟨some view, session, []⟩
  | none =>
      let answer := session.resolve registry name
      match answer.view with
      | none => answer
      | some view =>
          { answer with
            session := { answer.session with store := answer.session.store.insert name view } }

end Session

end ArchDiagram

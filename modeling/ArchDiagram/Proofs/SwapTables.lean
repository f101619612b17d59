/-
# What overrides have an effect

Of the overrides for an expansion only the swaps count. They are given here as a table that
forgets everything else: the order of the overrides, those that are no swaps, and the
difference between a swap without overrides and one with an empty list of them. What fills a
slot depends on the table alone (`Slot.table_filling`), and so do the view of an expansion and
the views it asks for (`agree_expandContent`); what may differ is what is reported. Hence
overrides with the same table leave the same views and the same session behind
(`Session.same_resolveDetail`, `Session.same_resolveArchitecture`).
-/

import ArchDiagram.Proofs.Flattening
import ArchDiagram.Proofs.Nesting
import ArchDiagram.Proofs.Steps

namespace ArchDiagram

/-! ## Tables of swaps -/

/-- For every class of slots what is put there, if anything: a replacement, with a table for
the slots below it. Tables with the same values are the same table. -/
inductive SwapTable where
  | mk (at? : String → Option (String × SwapTable))

namespace SwapTable

/-- What is put in the slots of a class. -/
def at? : SwapTable → String → Option (String × SwapTable)
  | mk at? => at?

/-- Nothing is put anywhere. -/
def empty : SwapTable := mk fun _ => none

@[ext]
theorem ext {first second : SwapTable}
    (h : ∀ slotClass, first.at? slotClass = second.at? slotClass) : first = second := by
  obtain ⟨first⟩ := first
  obtain ⟨second⟩ := second
  exact congrArg mk (funext h)

end SwapTable

namespace Override

mutual

/-- What an entry puts in a slot. Only a swap does; without overrides it is a swap with
none of them. -/
def swap? : Override → Option (String × SwapTable)
  | .swap replacement none => some (replacement, .empty)
  | .swap replacement (some overrides) => some (replacement, swapTable overrides)
  | .default | .nested _ | .references _ | .properties _ | .settings _ => none

/-- The swaps of some overrides; the first entry of a class counts. -/
def swapTable : List (String × Override) → SwapTable
  | [] => .empty
  | (key, entry) :: rest =>
      .mk fun slotClass => if slotClass = key then entry.swap? else (swapTable rest).at? slotClass

end

theorem swap?_swap (replacement : String) (overrides : Option (List (String × Override))) :
    (Override.swap replacement overrides).swap? =
      some (replacement, swapTable (overrides.getD [])) := by
  cases overrides <;> simp [swap?, swapTable]

theorem at?_swapTable (overrides : Entries Override) (slotClass : String) :
    (swapTable overrides).at? slotClass = (overrides.lookup slotClass).bind swap? := by
  induction overrides with
  | nil => rfl
  | cons entry rest ih =>
      obtain ⟨key, entry⟩ := entry
      rw [swapTable, SwapTable.at?, List.lookup_cons]
      by_cases hkey : slotClass = key
      · simp [hkey]
      · simp [hkey, ih, beq_eq_false_iff_ne.mpr hkey]

/-- The order of overrides for different classes does not matter. -/
theorem swapTable_eq_of_perm {overrides overrides' : Entries Override}
    (hnodup : overrides.names.Nodup) (h : overrides.Perm overrides') :
    swapTable overrides = swapTable overrides' := by
  ext1 slotClass
  rw [at?_swapTable, at?_swapTable, Entries.lookup_eq_of_perm hnodup h]

/-- Of an override only what it puts in a slot counts. -/
theorem swapTable_cons_congr {entry entry' : Override} (h : entry.swap? = entry'.swap?)
    (key : String) (rest : Entries Override) :
    swapTable ((key, entry) :: rest) = swapTable ((key, entry') :: rest) := by
  rw [swapTable, swapTable, h]

/-- An override that is no swap can be left out. -/
theorem swapTable_cons_of_not_swap {key : String} {entry : Override} {rest : Entries Override}
    (hentry : entry.swap? = none) (hnew : key ∉ rest.names) :
    swapTable ((key, entry) :: rest) = swapTable rest := by
  ext1 slotClass
  rw [swapTable, SwapTable.at?]
  split
  · rename_i hkey
    have hnone : rest.lookup slotClass = none := by
      rwa [← Option.not_isSome_iff_eq_none, ← Entries.has, Entries.has_iff_mem_names, hkey]
    rw [hentry, at?_swapTable, hnone, Option.bind_none]
  · rfl

end Override

open Override (swapTable)

/-- What fills a slot is what the table puts there, or else the component of the slot under
the same table. -/
theorem Slot.table_filling (slot : Slot) (swaps : Entries Override) :
    ((slot.filling swaps).1, swapTable (slot.filling swaps).2) =
      (slot.slotClass.bind (swapTable swaps).at?).getD (slot.component, swapTable swaps) := by
  unfold filling
  cases slot.slotClass with
  | none => rfl
  | some slotClass =>
      simp only [Option.bind_some, Override.at?_swapTable]
      cases swaps.lookup slotClass with
      | none => rfl
      | some entry =>
          cases entry with
          | swap => rw [Option.bind_some, Override.swap?_swap, Option.getD_some]
          | default | nested | references | properties | settings => rfl

namespace Frame

/-- Under the same table the same component fills a slot, again under the same table. -/
theorem choose_eq_of_swapTable (frame : Frame) {swaps : Entries Override}
    (h : swapTable frame.swaps = swapTable swaps) (slot : Slot) :
    (frame.choose slot).owner = ({ frame with swaps }.choose slot).owner ∧
      swapTable (frame.choose slot).swaps = swapTable ({ frame with swaps }.choose slot).swaps := by
  have hfilling := slot.table_filling frame.swaps
  have hchoice := Frame.choose_eq_filling { frame with swaps } slot
  rw [h, ← slot.table_filling swaps, ← frame.choose_eq_filling slot, ← hchoice] at hfilling
  exact ⟨congrArg Prod.fst hfilling, congrArg Prod.snd hfilling⟩

end Frame

/-! ## Expansions -/

/-- The view that a step asks for, with the expansions around it and with the table of its
overrides. -/
def Step.ask? : Step → Option (String × List String × SwapTable)
  | .note _ => none
  | .attach detail chain swaps => some (detail, chain, swapTable swaps)

/-- What some steps ask for. -/
def Step.asks (steps : List Step) : List (String × List String × SwapTable) :=
  steps.filterMap ask?

namespace Step

@[simp]
theorem asks_append (first second : List Step) :
    asks (first ++ second) = asks first ++ asks second :=
  List.filterMap_append

theorem asks_map_attach (details : List String) (chain : List String) (swaps : Entries Override) :
    asks (details.map fun detail => .attach detail chain swaps) =
      details.map fun detail => (detail, chain, swapTable swaps) := by
  simp [asks, List.filterMap_map, Function.comp_def, ask?]

end Step

/-- Two expansions that leave the same view and ask for the same views. -/
structure Expansion.Agree (first second : Expansion) : Prop where
  view : first.view = second.view
  asks : Step.asks first.steps = Step.asks second.steps

theorem Expansion.Agree.refl (expansion : Expansion) : expansion.Agree expansion := ⟨rfl, rfl⟩

namespace Frame

variable {frame : Frame} {swaps : Entries Override}

theorem asks_choose (frame : Frame) (slot : Slot) : Step.asks (frame.choose slot).steps = [] := by
  refine List.filterMap_eq_nil_iff.mpr fun step hstep => ?_
  obtain ⟨slotClass, rfl⟩ := eq_note_of_mem_choose hstep
  rfl

theorem asks_opening (frame : Frame) (h : swapTable frame.swaps = swapTable swaps) :
    Step.asks frame.opening = Step.asks { frame with swaps }.opening := by
  have hopening (frame : Frame) : Step.asks frame.opening =
      frame.template.details.toList.map fun detail =>
        (detail, frame.chain, swapTable frame.swaps) :=
    Step.asks_map_attach _ frame.chain frame.swaps
  rw [hopening, hopening, h]

theorem asks_place (h : swapTable frame.swaps = swapTable swaps) (isFirst : Bool)
    (anchors : Entries String) (key : String) (item : Item) (view : View) :
    Step.asks (frame.place isFirst anchors key item view).steps =
      Step.asks ({ frame with swaps }.place isFirst anchors key item view).steps := by
  simp only [place, Step.asks_append, Step.asks_map_attach, h, settle]

end Frame

namespace Registry

variable {registry : Registry}

/-- Under the same table a template leaves the same view and asks for the same views, if its
content does so. -/
theorem agree_expandTemplate_of_content {owner : String} {template : Template}
    {chain : List String} {swaps swaps' : Entries Override} {view : View}
    (h : swapTable swaps = swapTable swaps')
    (hcontent : owner ∉ chain →
      (registry.expandContent ⟨owner, template, chain, swaps⟩ true [] view template.content).Agree
        (registry.expandContent ⟨owner, template, chain, swaps'⟩ true [] view
          template.content)) :
    (registry.expandTemplate owner template chain swaps view).Agree
      (registry.expandTemplate owner template chain swaps' view) := by
  unfold expandTemplate
  by_cases hcycle : owner ∈ chain
  · simp only [hcycle, if_true]
    exact .refl _
  · obtain ⟨hview, hasks⟩ := hcontent hcycle
    simp only [hcycle, if_false]
    refine ⟨hview, ?_⟩
    rw [Step.asks_append, Step.asks_append, hasks,
      Frame.asks_opening ⟨owner, template, chain, swaps⟩ h]

/-- The same of some content, whatever it contains. -/
theorem agree_expandContent (frame : Frame) (isFirst : Bool) (anchors : Entries String)
    (view : View) (content : Entries Content) {swaps : Entries Override}
    (h : swapTable frame.swaps = swapTable swaps) :
    (registry.expandContent frame isFirst anchors view content).Agree
      (registry.expandContent { frame with swaps } isFirst anchors view content) := by
  induction frame, isFirst, anchors, view, content using @expandContent_induction registry
    generalizing swaps with
  | nil frame isFirst anchors view =>
      rw [expandContent_nil, expandContent_nil]
      exact .refl _
  | leaf frame isFirst anchors view key item rest ih =>
      -- a leaf is placed without a look at the swaps
      obtain ⟨hview, hasks⟩ := ih h
      rw [expandContent_leaf, expandContent_leaf]
      refine ⟨hview, ?_⟩
      rw [Step.asks_append, Step.asks_append, Frame.asks_place h, hasks]
      rfl
  | slot frame isFirst anchors view key slot rest ihInside ihRest =>
      obtain ⟨howner, hswaps⟩ := frame.choose_eq_of_swapTable h slot
      have hinside : (registry.expandComponent (frame.choose slot).owner frame.path
          (frame.choose slot).swaps view).Agree
          (registry.expandComponent ({ frame with swaps }.choose slot).owner frame.path
            ({ frame with swaps }.choose slot).swaps view) := by
        rw [← howner]
        unfold expandComponent
        cases hfound : registry.instanceOf? (frame.choose slot).owner with
        | none => exact .refl _
        | some template =>
            exact agree_expandTemplate_of_content hswaps fun hcycle =>
              ihInside template hfound hcycle hswaps
      obtain ⟨hview, hasks⟩ := ihRest h
      rw [hinside.view] at hview hasks
      rw [expandContent_slot, expandContent_slot]
      refine ⟨?_, ?_⟩
      · simp only [hinside.view]
        exact hview
      · simp only [Step.asks_append, Frame.asks_choose, hinside.view, hinside.asks]
        rw [hasks]
        rfl

variable (registry)

theorem agree_expandTemplate (owner : String) (template : Template) (chain : List String)
    (view : View) {swaps swaps' : Entries Override} (h : swapTable swaps = swapTable swaps') :
    (registry.expandTemplate owner template chain swaps view).Agree
      (registry.expandTemplate owner template chain swaps' view) :=
  agree_expandTemplate_of_content h fun _ =>
    agree_expandContent ⟨owner, template, chain, swaps⟩ true [] view template.content h

theorem agree_expandComponent (owner : String) (chain : List String) (view : View)
    {swaps swaps' : Entries Override} (h : swapTable swaps = swapTable swaps') :
    (registry.expandComponent owner chain swaps view).Agree
      (registry.expandComponent owner chain swaps' view) := by
  unfold expandComponent
  cases registry.instanceOf? owner with
  | none => exact .refl _
  | some template => exact registry.agree_expandTemplate owner template chain view h

end Registry

/-! ## Architectures -/

/-- Two entries under one name that are the same, or expand the same component under the same
table. So an entry without overrides is like a block without swaps. -/
inductive Override.Alike : String × Override → String × Override → Prop
  | same (entry : String × Override) : Alike entry entry
  | component {key owner : String} {entry entry' : Override} {swaps swaps' : Entries Override} :
      entry.component? key = some (owner, swaps) → entry'.component? key = some (owner, swaps') →
      swapTable swaps = swapTable swaps' → Alike (key, entry) (key, entry')

/-- Two architectures whose entries are alike one by one. -/
def Architecture.Alike (first second : Architecture) : Prop :=
  List.Forall₂ Override.Alike first.entries second.entries

/-- Architectures that are alike have the same properties. -/
theorem Architecture.properties_eq_of_forall₂ {entries entries' : Entries Override}
    (h : List.Forall₂ Override.Alike entries entries') :
    (Architecture.mk entries).properties = (Architecture.mk entries').properties := by
  unfold Architecture.properties
  induction h with
  | nil => rfl
  | @cons entry _ _ _ halike _ ih =>
      cases halike with
      | same =>
          obtain ⟨key, entry⟩ := entry
          by_cases hkey : "properties" = key
          · subst hkey
            rw [List.lookup_cons_self, List.lookup_cons_self]
          · simpa only [List.lookup_cons, beq_eq_false_iff_ne.mpr hkey] using ih
      | @component key _ entry entry' _ _ hfirst hsecond =>
          by_cases hkey : "properties" = key
          -- the entries under this name are no sections
          · subst hkey
            rw [List.lookup_cons_self, List.lookup_cons_self]
            cases entry <;> cases entry' <;>
              first
              | rfl
              | simp [Override.component?] at hfirst hsecond
          · simpa only [List.lookup_cons, beq_eq_false_iff_ne.mpr hkey] using ih

namespace Registry

variable (registry : Registry)

theorem agree_expandEntry {entry entry' : String × Override} (h : Override.Alike entry entry')
    (view : View) : (registry.expandEntry view entry.1 entry.2).Agree
      (registry.expandEntry view entry'.1 entry'.2) := by
  cases h with
  | same => exact .refl _
  | component hfirst hsecond htable =>
      rw [expandEntry_of_component? hfirst, expandEntry_of_component? hsecond]
      exact registry.agree_expandComponent _ _ view htable

theorem agree_expandEntries {entries entries' : List (String × Override)}
    (h : List.Forall₂ Override.Alike entries entries') (view : View) :
    (registry.expandEntries view entries).Agree (registry.expandEntries view entries') := by
  induction h generalizing view with
  | nil => exact .refl _
  | @cons entry entry' rest rest' hentry _ ih =>
      obtain ⟨hview, hasks⟩ := registry.agree_expandEntry hentry view
      have hrest := ih (registry.expandEntry view entry'.1 entry'.2).view
      rw [expandEntries, expandEntries]
      refine ⟨?_, ?_⟩
      · rw [hview]
        exact hrest.view
      · simp only [Step.asks_append, hasks, hview, hrest.asks]

/-! ## Carrying out the steps -/

section Performing

variable {registry} {other : Registry} {properties : Entries Property} {parent : String}
  {building : List String} {store : Store}

/-- What is reported changes nothing in the store. -/
theorem store_perform_append_of_ask? {notes : List Step} (h : ∀ step ∈ notes, step.ask? = none)
    (rest : List Step) :
    (registry.perform properties parent building store (notes ++ rest)).store =
      (registry.perform properties parent building store rest).store := by
  induction notes with
  | nil => rfl
  | cons step notes ih =>
      rw [List.forall_mem_cons] at h
      cases step with
      | note event => rw [List.cons_append, perform_note, ← ih h.2]
      | attach detail chain swaps => exact absurd h.1 (by simp [Step.ask?])

theorem store_perform_of_asks_eq_nil {steps : List Step} (h : Step.asks steps = []) :
    (registry.perform properties parent building store steps).store = store := by
  rw [← List.append_nil steps, store_perform_append_of_ask? (List.filterMap_eq_nil_iff.mp h),
    perform_nil]

/-- Steps that ask for a view first do nothing else before. -/
theorem exists_attach_of_asks_eq_cons {steps : List Step} {name : String} {chain : List String}
    {table : SwapTable} {later : List (String × List String × SwapTable)}
    (h : Step.asks steps = (name, chain, table) :: later) :
    ∃ swaps rest, swapTable swaps = table ∧ Step.asks rest = later ∧
      (registry.perform properties parent building store steps).store =
        (registry.perform properties parent building store
          (.attach name chain swaps :: rest)).store := by
  obtain ⟨notes, step, rest, rfl, hnotes, hask, hlater⟩ := List.filterMap_eq_cons_iff.mp h
  cases step with
  | note event => simp [Step.ask?] at hask
  | attach detail around swaps =>
      simp only [Step.ask?, Option.some.injEq, Prod.mk.injEq] at hask
      obtain ⟨rfl, rfl, htable⟩ := hask
      exact ⟨swaps, rest, htable, hlater, store_perform_append_of_ask? hnotes _⟩

/-- Steps that ask for the same views leave the same store, also in a registry with other
architectures. -/
theorem store_perform_eq_of_asks (hcomponents : other.components = registry.components)
    (hdetails : other.details = registry.details) {steps steps' : List Step}
    (h : Step.asks steps = Step.asks steps') :
    (registry.perform properties parent building store steps).store =
      (other.perform properties parent building store steps').store := by
  have hdetail (name : String) : other.detailOf? name = registry.detailOf? name := by
    rw [detailOf?, detailOf?, detail?, detail?, hcomponents, hdetails]
  induction parent, building, store, steps using perform_induction registry properties
    generalizing steps' with
  | nil parent building store => rw [perform_nil, store_perform_of_asks_eq_nil h.symm]
  | note parent building store event rest ih =>
      rw [perform_note]
      exact ih h
  | held parent building store name chain swaps rest hheld ih =>
      obtain ⟨swaps', rest', -, hrest, hsteps⟩ := exists_attach_of_asks_eq_cons h.symm
      rw [hsteps, perform_held hheld, perform_held hheld]
      exact ih hrest.symm
  | missing parent building store name chain swaps rest hheld hmissing ih =>
      obtain ⟨swaps', rest', -, hrest, hsteps⟩ := exists_attach_of_asks_eq_cons h.symm
      rw [hsteps, perform_missing hheld hmissing,
        perform_missing hheld ((hdetail name).trans hmissing)]
      exact ih hrest.symm
  | build parent building store name chain swaps rest template hheld hfound ihInner ihRest =>
      obtain ⟨swaps', rest', htable, hrest, hsteps⟩ := exists_attach_of_asks_eq_cons h.symm
      -- the view is built under overrides of the same table, in the same store
      have hbuilt := registry.agree_expandTemplate name template chain (blankView properties)
        htable.symm
      have hinner := ihInner hbuilt.asks
      rw [hsteps, perform_build hheld hfound,
        perform_build hheld ((hdetail name).trans hfound), expandTemplate_congr hcomponents]
      simp only [← hinner, ← hbuilt.view]
      exact ihRest hrest.symm

end Performing

end Registry

open Registry

namespace Session

/-- Two answers with the same view that leave the same session. What they report may differ. -/
structure Answer.Same {α : Type} (first second : Answer α) : Prop where
  view : first.view = second.view
  session : first.session = second.session

variable (session : Session) (registry : Registry) (name : String)

/-- Overrides with the same swaps give the same detail and leave the same session. -/
theorem same_resolveDetail {swaps swaps' : Entries Override}
    (h : swapTable swaps = swapTable swaps') :
    (session.resolveDetail registry name swaps).Same
      (session.resolveDetail registry name swaps') := by
  unfold resolveDetail
  cases registry.detailOf? name with
  | none => exact ⟨rfl, rfl⟩
  | some template =>
      have hexpanded := registry.agree_expandTemplate name template []
        (blankView session.properties) h
      exact ⟨congrArg some hexpanded.view, congrArg (fun store => { session with store })
        (store_perform_eq_of_asks rfl rfl hexpanded.asks)⟩

/-- Architectures that are alike give the same view and leave the same session. -/
theorem same_resolveArchitecture {other : Registry}
    (hcomponents : other.components = registry.components)
    (hdetails : other.details = registry.details)
    (h : Option.Rel Architecture.Alike (registry.architecture? name) (other.architecture? name)) :
    (session.resolveArchitecture registry name).Same (session.resolveArchitecture other name) := by
  unfold resolveArchitecture
  generalize registry.architecture? name = first at h
  generalize other.architecture? name = second at h
  cases h with
  | none => exact ⟨rfl, rfl⟩
  | @some first second halike =>
      have hexpanded := registry.agree_expandEntries halike View.empty
      rw [← expandEntries_congr hcomponents View.empty second.entries] at hexpanded
      simp only [← Architecture.properties_eq_of_forall₂ halike]
      exact ⟨hexpanded.view, congrArg (fun store => Session.mk store _)
        (store_perform_eq_of_asks hcomponents hdetails hexpanded.asks)⟩

end Session

end ArchDiagram

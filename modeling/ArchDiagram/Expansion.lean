/-
# Expansion

A template is expanded under an instance name into the items of a view. An item
gets an identifier of its own, the anchors inside the template follow it, and a
slot is filled with the component it names or with what an override puts in its
place. An instance inside itself is cut off.

Expanding does not look at the views built so far. Which further views it asks
for is recorded in order, together with what it has to report, as a list of
steps; `ArchDiagram.Session` carries them out.

Main definition: `Registry.expandContent`. It ends because every expansion inside
another one uses up an instance name that the registry or the overrides mention.
-/

import ArchDiagram.Event
import ArchDiagram.Registry
import ArchDiagram.Supply
import ArchDiagram.View

namespace ArchDiagram

/-- What an expansion leaves to be done. -/
inductive Step
  /-- Report something. -/
  | note (event : Event)
  /-- Build the view `detail`, inside the expansions of `chain` and with these
  overrides, and enter it below the view at hand. -/
  | attach (detail : String) (chain : List String) (swaps : List (String × Override))
deriving DecidableEq

/-- A view with the steps that building it has left. -/
structure Expansion where
  view : View
  steps : List Step

/-- A template being expanded. -/
structure Frame where
  /-- The instance name. -/
  owner : String
  template : Template
  /-- The instance names of the expansions around this one, outermost first. -/
  chain : List String
  /-- What is put in the slots. -/
  swaps : Entries Override
deriving DecidableEq

namespace Frame

/-- The instance names of the expansions around this one and its own. -/
def path (frame : Frame) : List String :=
  frame.chain ++ [frame.owner]

/-! ## Slots -/

/-- What fills a slot: an instance name and the overrides for its own slots. -/
structure Choice where
  owner : String
  swaps : Entries Override
  steps : List Step

/-- What fills a slot of the template. Only a swap for the class of the slot puts
something else in it; other overrides of that class are reported. -/
def choose (frame : Frame) (slot : Slot) : Choice :=
  match slot.slotClass with
  | none => ⟨slot.component, frame.swaps, []⟩
  | some slotClass =>
      match frame.swaps.lookup slotClass with
      | some (.swap replacement overrides) => ⟨replacement, overrides.getD [], []⟩
      | none | some .default => ⟨slot.component, frame.swaps, []⟩
      | some _ => ⟨slot.component, frame.swaps, [.note (.notASwap slotClass frame.owner)]⟩

/-! ## Items -/

/-- The identifier an item gets: its own if it is free, and else the one with the
least number that is free. Among as many numbers as there are items and one more
there is a free one. -/
def freshIdent (owner item : String) (placed : Entries Item) : String :=
  if placed.has (Ident.namespaced owner item) then
    let candidates := (List.range (placed.length + 1)).map fun n => Ident.numbered owner (n + 1) item
    (candidates.find? fun ident => !placed.has ident).getD (Ident.namespaced owner item)
  else Ident.namespaced owner item

/-- The identifier of the last item of a view. -/
def lastIdent (placed : Entries Item) : Option String :=
  placed.getLast?.map Prod.fst

/-- An item as it stands in a view: its anchors are identifiers of the view, and
it has the details and the information of its template if it has none itself. -/
def settle (frame : Frame) (previous : Option String) (anchors : Entries String) (item : Item) :
    Item :=
  { item with
    previous
    arrow := item.arrow.map (OneOrMany.map fun arrow =>
      { arrow with previous := arrow.previous.bind fun name => anchors.lookup name })
    details := item.details.orElse fun _ => frame.template.details
    info := item.info.orElse fun _ => frame.template.info }

theorem arrows_settle (frame : Frame) (previous : Option String) (anchors : Entries String)
    (item : Item) : (frame.settle previous anchors item).arrows = item.arrows.map fun arrow =>
      { arrow with previous := arrow.previous.bind fun name => anchors.lookup name } := by
  cases harrow : item.arrow <;> simp [settle, Item.arrows, harrow]

/-- What placing an item leaves behind. -/
structure Placement where
  /-- The identifiers of the items of this expansion by their names. -/
  anchors : Entries String
  view : View
  steps : List Step

/-- Place an item. The first item of a template stands behind the last item of
the view; the anchors of the others are names of items placed by this expansion. -/
def place (frame : Frame) (isFirst : Bool) (anchors : Entries String) (key : String) (item : Item)
    (view : View) : Placement :=
  let ident := freshIdent frame.owner key view.content
  let anchors := anchors.put key ident
  let follows := isFirst && !view.content.isEmpty
  let previous :=
    if follows then lastIdent view.content else item.previous.bind fun name => anchors.lookup name
  let reports :=
    match follows, item.previous with
    | true, some previous => [Step.note (.firstPrevious ident frame.owner previous)]
    | _, _ => []
  let placed := frame.settle previous anchors item
  { anchors
    view := { view with content := view.content ++ [(ident, placed)] }
    steps := reports ++ placed.links.map fun detail => .attach detail frame.chain frame.swaps }

/-- The steps at the start of an expansion: the view of the template is asked for. -/
def opening (frame : Frame) : List Step :=
  .note (.expanded frame.path) ::
    frame.template.details.toList.map fun detail => .attach detail frame.chain frame.swaps

/-- The end of an expansion: the settings and references of the template are merged. -/
def finish (frame : Frame) (view : View) : View :=
  (view.mergeSettings frame.template.settings).mergeReferences frame.template.references

/-! ## Names that can still be used -/

theorem mem_replacementsIn_of_lookup {overrides : Entries Override} {slotClass name : String}
    {entry : Override} (hlookup : overrides.lookup slotClass = some entry)
    (hname : name ∈ entry.replacements) : name ∈ Override.replacementsIn overrides := by
  induction overrides with
  | nil => simp at hlookup
  | cons first rest ih =>
      obtain ⟨key, value⟩ := first
      simp only [Override.replacementsIn, List.mem_append]
      rw [List.lookup_cons] at hlookup
      split at hlookup
      · simp only [Option.some.injEq] at hlookup
        exact Or.inl (hlookup ▸ hname)
      · exact Or.inr (ih hlookup)

theorem choose_owner_mem (frame : Frame) (slot : Slot) :
    (frame.choose slot).owner = slot.component ∨
      (frame.choose slot).owner ∈ Override.replacementsIn frame.swaps := by
  unfold choose
  split
  · exact Or.inl rfl
  · split
    · rename_i hswap
      refine Or.inr (mem_replacementsIn_of_lookup hswap ?_)
      rename_i overrides
      cases overrides <;> simp [Override.replacements]
    · exact Or.inl rfl
    · exact Or.inl rfl
    · exact Or.inl rfl

theorem replacementsIn_choose_subset (frame : Frame) (slot : Slot) {name : String}
    (hname : name ∈ Override.replacementsIn (frame.choose slot).swaps) :
    name ∈ Override.replacementsIn frame.swaps := by
  revert hname
  unfold choose
  split
  · exact id
  · split
    · rename_i hswap
      rename_i overrides
      intro hname
      refine mem_replacementsIn_of_lookup hswap ?_
      cases overrides with
      | none => simp [Override.replacementsIn] at hname
      | some inner => exact List.mem_cons_of_mem _ hname
    · exact id
    · exact id
    · exact id

/-- Choosing what fills a slot does nothing but report an override that is no swap. -/
theorem eq_note_of_mem_choose {frame : Frame} {slot : Slot} {step : Step}
    (h : step ∈ (frame.choose slot).steps) :
    ∃ slotClass, step = .note (.notASwap slotClass frame.owner) := by
  unfold choose at h
  split at h
  · simp at h
  · split at h
    · simp at h
    · simp at h
    · simp at h
    · exact ⟨_, List.mem_singleton.mp h⟩

/-- The instance names an expansion of some content may still use. -/
def pool (frame : Frame) (registry : Registry) (content : Entries Content) : List String :=
  Template.slotNames content ++ registry.slotNames ++ Override.replacementsIn frame.swaps

end Frame

namespace Registry

theorem mem_of_lookup {α : Type} {entries : Entries α} {name : String} {value : α}
    (h : entries.lookup name = some value) : value ∈ entries.map Prod.snd := by
  obtain ⟨before, after, rfl, _⟩ := List.lookup_eq_some_iff.mp h
  simp

theorem instanceOf?_mem {registry : Registry} {name : String} {template : Template}
    (h : registry.instanceOf? name = some template) : template ∈ registry.templates := by
  have hmem := mem_of_lookup (show registry.components.lookup _ = some template from h)
  simp only [templates, List.map_append, List.mem_append]
  exact Or.inl hmem

theorem detailOf?_mem {registry : Registry} {name : String} {template : Template}
    (h : registry.detailOf? name = some template) : template ∈ registry.templates := by
  simp only [templates, List.map_append, List.mem_append]
  unfold detailOf? detail? at h
  cases hdetail : registry.details.lookup (Ident.templateKey name) with
  | none =>
      rw [hdetail] at h
      exact Or.inl (mem_of_lookup h)
  | some found =>
      rw [hdetail] at h
      obtain rfl : found = template := by simpa using h
      exact Or.inr (mem_of_lookup hdetail)

theorem slotNames_subset {registry : Registry} {template : Template}
    (h : template ∈ registry.templates) {name : String}
    (hname : name ∈ Template.slotNames template.content) : name ∈ registry.slotNames :=
  List.mem_flatMap.mpr ⟨template, h, hname⟩

theorem linkNames_subset {registry : Registry} {template : Template}
    (h : template ∈ registry.templates) {name : String} (hname : name ∈ template.links) :
    name ∈ registry.linkNames :=
  List.mem_flatMap.mpr ⟨template, h, hname⟩

/-! ## Expanding -/

set_option linter.unusedVariables false in
/-- Expand the rest of the content of a template. Items are placed, slots are
expanded in their place, and at the end the template adds its settings and
references. -/
def expandContent (registry : Registry) (frame : Frame) (isFirst : Bool) (anchors : Entries String)
    (view : View) (content : Entries Content) : Expansion :=
  match content with
  | [] => ⟨frame.finish view, []⟩
  | (key, .leaf item) :: rest =>
      let placement := frame.place isFirst anchors key item view
      let after := expandContent registry frame false placement.anchors placement.view rest
      ⟨after.view, placement.steps ++ after.steps⟩
  | (key, .slot slot) :: rest =>
      let choice := frame.choose slot
      let inside : Expansion :=
        match hfound : registry.instanceOf? choice.owner with
        | none => ⟨view, [.note (.componentMissing choice.owner)]⟩
        | some template =>
            if hcycle : choice.owner ∈ frame.path then ⟨view, [.note (.cycle choice.owner)]⟩
            else
              let inner : Frame := ⟨choice.owner, template, frame.path, choice.swaps⟩
              let expanded := expandContent registry inner true [] view template.content
              ⟨expanded.view, inner.opening ++ expanded.steps⟩
      let after := expandContent registry frame false anchors inside.view rest
      ⟨after.view, choice.steps ++ inside.steps ++ after.steps⟩
termination_by (Supply.left frame.path (frame.pool registry content), content.length)
decreasing_by
  · refine Supply.lex_of_le_of_lt (Supply.left_le fun other hother hnew => ⟨?_, hnew⟩) (by simp)
    simpa [Frame.pool, Template.slotNames] using hother
  · have howner : choice.owner ∈ frame.pool registry ((key, .slot slot) :: rest) := by
      simp only [Frame.pool, List.mem_append]
      rcases frame.choose_owner_mem slot with h | h
      · exact Or.inl (Or.inl (by simp [Template.slotNames, choice, h]))
      · exact Or.inr h
    refine Prod.Lex.left _ _ (Supply.left_lt howner hcycle fun other hother hnew => ?_)
    simp only [Frame.path, List.mem_append, List.mem_singleton, not_or] at hnew
    refine ⟨?_, by simpa [Frame.path] using hnew.1, hnew.2⟩
    simp only [Frame.pool, List.mem_append] at hother ⊢
    rcases hother with (h | h) | h
    · exact Or.inl (Or.inr (slotNames_subset (instanceOf?_mem hfound) h))
    · exact Or.inl (Or.inr h)
    · exact Or.inr (frame.replacementsIn_choose_subset slot h)
  · refine Supply.lex_of_le_of_lt (Supply.left_le fun other hother hnew => ⟨?_, hnew⟩) (by simp)
    simp only [Frame.pool, List.mem_append] at hother ⊢
    rcases hother with (h | h) | h
    · exact Or.inl (Or.inl (by simp only [Template.slotNames, List.mem_filterMap] at h ⊢; grind))
    · exact Or.inl (Or.inr h)
    · exact Or.inr h

/-- Expand a template under an instance name. Inside an expansion of the same
instance it is cut off. -/
def expandTemplate (registry : Registry) (owner : String) (template : Template)
    (chain : List String) (swaps : Entries Override) (view : View) : Expansion :=
  if owner ∈ chain then ⟨view, [.note (.cycle owner)]⟩
  else
    let frame : Frame := ⟨owner, template, chain, swaps⟩
    let expanded := registry.expandContent frame true [] view template.content
    ⟨expanded.view, frame.opening ++ expanded.steps⟩

/-- Expand the component an instance name stands for. -/
def expandComponent (registry : Registry) (owner : String) (chain : List String)
    (swaps : Entries Override) (view : View) : Expansion :=
  match registry.instanceOf? owner with
  | none => ⟨view, [.note (.componentMissing owner)]⟩
  | some template => registry.expandTemplate owner template chain swaps view

theorem expandContent_nil (registry : Registry) (frame : Frame) (isFirst : Bool)
    (anchors : Entries String) (view : View) :
    registry.expandContent frame isFirst anchors view [] = ⟨frame.finish view, []⟩ := by
  rw [expandContent]

theorem expandContent_leaf (registry : Registry) (frame : Frame) (isFirst : Bool)
    (anchors : Entries String) (view : View) (key : String) (item : Item)
    (rest : Entries Content) :
    registry.expandContent frame isFirst anchors view ((key, .leaf item) :: rest) =
      let placement := frame.place isFirst anchors key item view
      let after := registry.expandContent frame false placement.anchors placement.view rest
      ⟨after.view, placement.steps ++ after.steps⟩ := by
  rw [expandContent]

/-- A slot is filled by the expansion of the component that is chosen for it. -/
theorem expandContent_slot (registry : Registry) (frame : Frame) (isFirst : Bool)
    (anchors : Entries String) (view : View) (key : String) (slot : Slot)
    (rest : Entries Content) :
    registry.expandContent frame isFirst anchors view ((key, .slot slot) :: rest) =
      let choice := frame.choose slot
      let inside := registry.expandComponent choice.owner frame.path choice.swaps view
      let after := registry.expandContent frame false anchors inside.view rest
      ⟨after.view, choice.steps ++ inside.steps ++ after.steps⟩ := by
  rw [expandContent]
  simp only [expandComponent, expandTemplate]
  cases hfound : registry.instanceOf? (frame.choose slot).owner with
  | none => simp only
  | some template =>
      by_cases hcycle : (frame.choose slot).owner ∈ frame.path <;> simp [hcycle]

/-- Induction along an expansion: a slot may use the statement for the content of the
component that fills it, and every entry may use it for the entries that follow. -/
theorem expandContent_induction {registry : Registry}
    {motive : Frame → Bool → Entries String → View → Entries Content → Prop}
    (nil : ∀ frame isFirst anchors view, motive frame isFirst anchors view [])
    (leaf : ∀ frame isFirst anchors view key item rest,
      motive frame false (Frame.place frame isFirst anchors key item view).anchors
        (Frame.place frame isFirst anchors key item view).view rest →
      motive frame isFirst anchors view ((key, .leaf item) :: rest))
    (slot : ∀ frame isFirst anchors view key place rest,
      (∀ template, registry.instanceOf? (Frame.choose frame place).owner = some template →
        (Frame.choose frame place).owner ∉ Frame.path frame →
        motive ⟨(frame.choose place).owner, template, frame.path, (frame.choose place).swaps⟩ true []
          view template.content) →
      motive frame false anchors
        (registry.expandComponent (frame.choose place).owner frame.path (frame.choose place).swaps
          view).view rest →
      motive frame isFirst anchors view ((key, .slot place) :: rest))
    (frame : Frame) (isFirst : Bool) (anchors : Entries String) (view : View)
    (content : Entries Content) : motive frame isFirst anchors view content := by
  fun_induction expandContent registry frame isFirst anchors view content with
  | case1 => exact nil ..
  | case2 frame isFirst anchors view key item rest placement after ih => exact leaf _ _ _ _ _ _ _ ih
  | case3 frame isFirst anchors view key place rest choice inside after ihInner _ _ ihRest =>
      refine slot _ _ _ _ _ _ _ (fun template hfound hcycle => ihInner template hfound hcycle) ?_
      have hinside : registry.expandComponent choice.owner frame.path choice.swaps view = inside := by
        simp only [inside, expandComponent, expandTemplate, choice]
        cases hfound : registry.instanceOf? (frame.choose place).owner with
        | none => simp only
        | some template =>
            by_cases hcycle : (frame.choose place).owner ∈ frame.path <;> simp [hcycle]
      rw [hinside]
      exact ihRest

end Registry

end ArchDiagram

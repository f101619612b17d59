/-
# Slots and leaves told apart again

An entry of the content of a template is read as a slot if it can be, and else as a leaf. A
leaf keeps the members that are no fields of an item, those of the names `component` and
`class` among them. So a leaf that keeps what could be read as a slot is written as an object
that is read as one (`Item.PosesAsSlot`), and everything else is read back as it was
(`Content.rereads`). It only poses as a slot if one of the two names was given twice where the
leaf was read, which no decoder of slots accepts.
-/

import ArchDiagram.Proofs.Editing
import ArchDiagram.Proofs.Json.Depths
import ArchDiagram.Proofs.Json.Retraction
import ArchDiagram.Proofs.Nesting
import ArchDiagram.Proofs.Requests
import ArchDiagram.Proofs.Flattening

namespace ArchDiagram

open Json (Fields present)

/-! ## Slots -/

namespace Slot

/-- The names of the fields of a slot. -/
def fieldNames : List String := ["component", "class"]

/-- The members that have the names of fields of a slot. -/
def membersOf (members : List (String × Json)) : List (String × Json) :=
  members.filter fun member => fieldNames.contains member.1

variable {value : Json} {members : List (String × Json)} {slot : Slot}

theorem ofJson?_eq_some_iff : ofJson? value = some slot ↔
    ∃ fields, Fields.ofRecord? fieldNames value = some fields ∧
      fields.required? "component" Json.string? = some slot.component ∧
      fields.optional? "class" Json.string? = some slot.slotClass := by
  obtain ⟨component, slotClass⟩ := slot
  simp only [ofJson?, fieldNames, Option.bind_eq_bind, Option.bind_eq_some_iff, Option.pure_def,
    Option.some.injEq, Slot.mk.injEq]
  constructor
  · rintro ⟨fields, hfields, _, hcomponent, _, hslotClass, rfl, rfl⟩
    exact ⟨fields, hfields, hcomponent, hslotClass⟩
  · rintro ⟨fields, hfields, hcomponent, hslotClass⟩
    exact ⟨fields, hfields, _, hcomponent, _, hslotClass, rfl, rfl⟩

/-- Whether an object is a slot depends on the members with the names of its fields only. -/
theorem ofJson?_object_eq_some_iff : ofJson? (.object members) = some slot ↔
    (Entries.names (membersOf members)).Nodup ∧
      Fields.required? ⟨membersOf members, []⟩ "component" Json.string? = some slot.component ∧
      Fields.optional? ⟨membersOf members, []⟩ "class" Json.string? = some slot.slotClass := by
  rw [ofJson?_eq_some_iff]
  constructor
  · rintro ⟨⟨named, others⟩, hfields, hcomponent, hslotClass⟩
    obtain ⟨hnodup, rfl, -⟩ := Fields.ofMembers?_eq_some_iff.mp hfields
    exact ⟨hnodup, hcomponent, hslotClass⟩
  · rintro ⟨hnodup, hcomponent, hslotClass⟩
    exact ⟨⟨membersOf members, _⟩, Fields.ofMembers?_eq_some_iff.mpr ⟨hnodup, rfl, rfl⟩,
      hcomponent, hslotClass⟩

theorem ofJson?_object_congr {other : List (String × Json)}
    (h : membersOf members = membersOf other) :
    ofJson? (.object members) = ofJson? (.object other) := by
  ext slot
  rw [ofJson?_object_eq_some_iff, ofJson?_object_eq_some_iff, h]

/-- The fields of a slot as they are written. -/
def written (slot : Slot) : List (String × Option Json) :=
  [("component", some (.string slot.component)), ("class", slot.slotClass.map .string)]

theorem toJson_eq_present (slot : Slot) :
    slot.toJson = .object (present slot.written ++ []) := by
  simp [toJson, written, Json.present_cons_some, Json.present_cons_map, Json.present_nil]

/-- Every slot is read back from its JSON form. -/
theorem ofJson?_toJson (slot : Slot) : ofJson? slot.toJson = some slot := by
  have hlookup := Json.forall_lookup_present (show (slot.written.map Prod.fst).Nodup from
    (by decide : fieldNames.Nodup))
  simp only [written, List.forall_mem_cons] at hlookup
  obtain ⟨hcomponent, hslotClass, -⟩ := hlookup
  rw [toJson_eq_present, ofJson?_eq_some_iff]
  exact ⟨_, (Json.Remainder.nil fieldNames).ofMembers?_present (by decide) rfl,
    Fields.required?_eq_some_iff.mpr ⟨_, hcomponent, rfl⟩,
    Fields.optional?_of_lookup_string hslotClass⟩

/-- Values that are merged are read alike, and so are members that are collected, unless a
field is given twice. -/
theorem ofJson?_collect (hnodup : (Entries.names (membersOf members)).Nodup) :
    ofJson? (.object (Entries.collect (Json.mergedMembers members))) =
      ofJson? (.object members) := by
  have hmembers : membersOf (Entries.collect (Json.mergedMembers members)) =
      Json.mergedMembers (membersOf members) := by
    rw [membersOf, Entries.filter_collect (fun name => fieldNames.contains name),
      Json.filter_mergedMembers (fun name => fieldNames.contains name)]
    exact Entries.collect_eq_self (by rwa [Json.names_mergedMembers])
  -- a string is merged to itself, and only a string or `null` is read here
  have hrequired : Fields.required? ⟨Json.mergedMembers (membersOf members), []⟩ "component"
      Json.string? = Fields.required? ⟨membersOf members, []⟩ "component" Json.string? := by
    simp only [Fields.required?, Json.lookup_mergedMembers]
    cases (membersOf members).lookup "component" with
    | none => rfl
    | some value => exact Json.string?_merged value
  have hoptional : Fields.optional? ⟨Json.mergedMembers (membersOf members), []⟩ "class"
      Json.string? = Fields.optional? ⟨membersOf members, []⟩ "class" Json.string? := by
    simp only [Fields.optional?, Json.lookup_mergedMembers]
    cases (membersOf members).lookup "class" with
    | none => rfl
    | some value => cases value <;> rfl
  ext slot
  rw [ofJson?_object_eq_some_iff, ofJson?_object_eq_some_iff, hmembers, Json.names_mergedMembers,
    hrequired, hoptional]

end Slot

/-! ## Leaves -/

/-- An object that gives a field of a slot more than once. -/
def Json.RepeatsSlotField : Json → Prop
  | .object members => ¬(Entries.names (Slot.membersOf members)).Nodup
  | _ => False

namespace Item

variable {value : Json} {item : Item}

/-- An item whose further members could be read as a slot on their own. -/
def PosesAsSlot (item : Item) : Prop := (Slot.ofJson? (.object item.others)).isSome

instance (item : Item) : Decidable item.PosesAsSlot :=
  inferInstanceAs (Decidable (_ = true))

theorem notMem_slot_fieldNames : ∀ name ∈ fieldNames, name ∉ Slot.fieldNames := by
  decide

/-- The fields of an item have nothing to do with those of a slot. -/
theorem slot_ofJson?_toJson (item : Item) :
    Slot.ofJson? item.toJson = Slot.ofJson? (.object item.others) := by
  have hfields : Slot.membersOf (present item.written) = [] := by
    refine List.filter_eq_nil_iff.mpr fun member hmember => ?_
    have hname := (Json.names_present_sublist item.written).subset (List.mem_map_of_mem hmember)
    simpa using notMem_slot_fieldNames _ hname
  rw [toJson_eq_present]
  refine Slot.ofJson?_object_congr ?_
  rw [Slot.membersOf, List.filter_append]
  exact (congrArg (· ++ _) hfields).trans (List.nil_append _)

/-- A leaf poses as a slot only if a field of a slot was given twice where it was read. -/
theorem repeatsSlotField_of_posesAsSlot (hread : ofJson? value = some item)
    (hslot : Slot.ofJson? value = none) (h : item.PosesAsSlot) : value.RepeatsSlotField := by
  obtain ⟨fields, hfields, -, -, -, -, -, -, -, -, hothers⟩ := ofJson?_eq_some_iff.mp hread
  obtain ⟨members, rfl, hmembers⟩ := Fields.exists_of_ofObject? hfields
  intro hnodup
  -- the members with these names are all left over by the decoder of items
  have hleft : Slot.membersOf (members.filter fun member => !fieldNames.contains member.1) =
      Slot.membersOf members := by
    rw [Slot.membersOf, List.filter_filter]
    refine List.filter_congr fun member _ => ?_
    by_cases hmember : member.1 ∈ fieldNames
    · simp [hmember, notMem_slot_fieldNames _ hmember]
    · simp [hmember]
  rw [PosesAsSlot, ← hothers, (Fields.ofMembers?_eq_some_iff.mp hmembers).2.2,
    Slot.ofJson?_collect (by rwa [hleft]), Slot.ofJson?_object_congr hleft, hslot] at h
  exact Bool.false_ne_true h

end Item

/-! ## Entries read back -/

namespace Content

variable {value : Json} {content : Content} {item : Item}

/-- A leaf that is written as an object that could be a slot. -/
def PosesAsSlot : Content → Prop
  | .slot _ => False
  | .leaf item => item.PosesAsSlot

instance : DecidablePred PosesAsSlot
  | .slot _ => isFalse id
  | .leaf item => inferInstanceAs (Decidable item.PosesAsSlot)

/-- A leaf in canonical form is read back as a leaf, and the same, unless it poses as a slot. -/
theorem ofJson?_toJson_leaf_iff (h : item.Canonical) :
    ofJson? (leaf item).toJson = some (.leaf item) ↔ ¬item.PosesAsSlot := by
  rw [ofJson?, toJson, Item.slot_ofJson?_toJson, Item.PosesAsSlot]
  cases Slot.ofJson? (.object item.others) with
  | none => simp [h.ofJson?_toJson]
  | some place => simp

theorem exists_slot_of_posesAsSlot (h : content.PosesAsSlot) :
    ∃ place, ofJson? content.toJson = some (.slot place) := by
  cases content with
  | slot place => exact h.elim
  | leaf item =>
      obtain ⟨place, hplace⟩ := Option.isSome_iff_exists.mp h
      refine ⟨place, ?_⟩
      rw [ofJson?, toJson, Item.slot_ofJson?_toJson, hplace]

/-- What is read as a leaf is not to be read as a slot. -/
theorem ofJson?_eq_some_leaf_iff : ofJson? value = some (.leaf item) ↔
    Slot.ofJson? value = none ∧ Item.ofJson? value = some item := by
  rw [ofJson?]
  cases Slot.ofJson? value <;> simp

theorem ofJson?_eq_some_slot_iff {place : Slot} : ofJson? value = some (.slot place) ↔
    Slot.ofJson? value = some place := by
  rw [ofJson?]
  cases Slot.ofJson? value <;> simp

theorem depth_toJson_le (h : ofJson? value = some content) :
    content.toJson.depth ≤ value.depth := by
  cases content with
  | leaf item => exact Item.depth_toJson_le (ofJson?_eq_some_leaf_iff.mp h).2
  | slot place =>
      obtain ⟨fields, hfields, -, -⟩ := Slot.ofJson?_eq_some_iff.mp (ofJson?_eq_some_slot_iff.mp h)
      have hslot : place.toJson.depth = 1 := by
        obtain ⟨component, slotClass⟩ := place
        cases slotClass <;> rfl
      rw [toJson, hslot]
      cases value with
      | object _ | array _ => exact Nat.succ_le_succ (Nat.zero_le _)
      | null | bool _ | integer _ | real _ | string _ => cases hfields

/-- How an entry is read back that was read from a value. -/
structure Rereads (value : Json) (content : Content) : Prop where
  /-- It is read back the same, unless it poses as a slot. -/
  same : ofJson? content.toJson = some content ↔ ¬content.PosesAsSlot
  /-- If it does, it is read as one. -/
  slot : content.PosesAsSlot → ∃ place, ofJson? content.toJson = some (.slot place)
  /-- In that case a field of a slot was given more than once. -/
  repeats : content.PosesAsSlot → value.RepeatsSlotField
  /-- Its text is read as what was written, provided that the numbers in it are. -/
  text : content.toJson.reread? = some content.toJson →
    Json.read? .whole content.toJson.compact = some content.toJson

theorem rereads_of_ofJson? (hdepth : value.depth ≤ Json.depthLimit)
    (h : ofJson? value = some content) : content.Rereads value where
  same := by
    cases content with
    | slot place =>
        have hplace : ofJson? (slot place).toJson = some (.slot place) := by
          rw [ofJson?, toJson, place.ofJson?_toJson]
        exact ⟨fun _ => id, fun _ => hplace⟩
    | leaf item =>
        exact ofJson?_toJson_leaf_iff
          (Item.canonical_of_ofJson? (ofJson?_eq_some_leaf_iff.mp h).2)
  slot := exists_slot_of_posesAsSlot
  repeats hposes := by
    cases content with
    | slot place => exact hposes.elim
    | leaf item =>
        obtain ⟨hslot, hitem⟩ := ofJson?_eq_some_leaf_iff.mp h
        exact Item.repeatsSlotField_of_posesAsSlot hitem hslot hposes
  text hnumbers := by
    rw [Json.read?_of_writes (Json.writes_compact _), if_pos ((depth_toJson_le h).trans hdepth),
      hnumbers]

end Content

/-! ## Items of views -/

/-- The items of a view are leaves of the templates, but for what placing changes. -/
def View.DrawnFrom (registry : Registry) (view : View) : Prop :=
  ∀ entry ∈ view.content, ∃ template ∈ registry.templates, ∃ key leaf,
    (key, Content.leaf leaf) ∈ template.content ∧ entry.2.bare = leaf.bare

theorem Item.others_eq_of_bare_eq {item leaf : Item} (h : item.bare = leaf.bare) :
    item.others = leaf.others := by
  change item.bare.others = leaf.bare.others
  rw [h]

/-- Placing changes nothing that has to do with the canonical form. -/
theorem Item.canonical_bare_iff {item : Item} : item.bare.Canonical ↔ item.Canonical := by
  -- the canonical form of an arrow says nothing of its anchor
  have harrow {arrow : Arrow} : Arrow.Canonical { arrow with previous := none } ↔ arrow.Canonical :=
    ⟨fun h => ⟨h.others, h.text, h.segments⟩, fun h => ⟨h.others, h.text, h.segments⟩⟩
  have harrows : (∀ arrows ∈ item.bare.arrow, ∀ arrow ∈ arrows.toList, arrow.Canonical) ↔
      ∀ arrows ∈ item.arrow, ∀ arrow ∈ arrows.toList, arrow.Canonical := by
    cases hitem : item.arrow <;> simp [Item.bare, hitem, harrow]
  exact ⟨fun h => ⟨h.others, harrows.mp h.arrow, h.text, h.references⟩,
    fun h => ⟨h.others, harrows.mpr h.arrow, h.text, h.references⟩⟩

namespace Registry

variable {registry : Registry}

theorem drawnFrom_expandContent {frame : Frame} {isFirst : Bool} {anchors : Entries String}
    {view : View} {content : Entries Content} (hview : view.DrawnFrom registry)
    (htemplate : frame.template ∈ registry.templates)
    (hcontent : ∀ entry ∈ content, entry ∈ frame.template.content) :
    (registry.expandContent frame isFirst anchors view content).view.DrawnFrom registry := by
  induction frame, isFirst, anchors, view, content using expandContent_induction with
  | nil frame isFirst anchors view =>
      rw [expandContent_nil]
      exact hview
  | leaf frame isFirst anchors view key item rest ih =>
      rw [List.forall_mem_cons] at hcontent
      rw [expandContent_leaf]
      refine ih ?_ htemplate hcontent.2
      obtain ⟨ident, placed, hplace, -, hplaced⟩ :=
        frame.exists_placedAs_place isFirst anchors key item view
      intro entry hentry
      rw [hplace] at hentry
      rcases List.mem_append.mp hentry with hentry | hentry
      · exact hview entry hentry
      · obtain rfl := List.mem_singleton.mp hentry
        exact ⟨frame.template, htemplate, key, item, hcontent.1, hplaced.bare⟩
  | slot frame isFirst anchors view key slot rest ihInside ihRest =>
      rw [List.forall_mem_cons] at hcontent
      rw [expandContent_slot]
      refine ihRest ?_ htemplate hcontent.2
      unfold expandComponent expandTemplate
      cases hfound : registry.instanceOf? (frame.choose slot).owner with
      | none => exact hview
      | some template =>
          by_cases hcycle : (frame.choose slot).owner ∈ frame.path
          · simpa [hcycle] using hview
          · simpa [hcycle] using ihInside template hfound hcycle hview (instanceOf?_mem hfound)
              fun _ hentry => hentry

theorem drawnFrom_expandTemplate {owner : String} {template : Template} {chain : List String}
    {swaps : Entries Override} {view : View} (hview : view.DrawnFrom registry)
    (htemplate : template ∈ registry.templates) :
    (registry.expandTemplate owner template chain swaps view).view.DrawnFrom registry := by
  unfold expandTemplate
  split
  · exact hview
  · exact drawnFrom_expandContent hview htemplate fun _ hentry => hentry

theorem drawnFrom_expandEntries {view : View} (entries : List (String × Override))
    (hview : view.DrawnFrom registry) :
    (registry.expandEntries view entries).view.DrawnFrom registry := by
  have hcomponent (owner : String) (swaps : Entries Override) {view : View}
      (hview : view.DrawnFrom registry) :
      (registry.expandComponent owner [] swaps view).view.DrawnFrom registry := by
    unfold expandComponent
    split
    · exact hview
    · rename_i template hfound
      exact drawnFrom_expandTemplate hview (instanceOf?_mem hfound)
  induction entries generalizing view with
  | nil => exact hview
  | cons entry rest ih =>
      obtain ⟨key, entry⟩ := entry
      have hfirst : (registry.expandEntry view key entry).view.DrawnFrom registry := by
        cases entry with
        | default | nested | swap => exact hcomponent _ _ hview
        | references | properties | settings => exact hview
      exact ih hfirst

/-- Every view is drawn from the templates. -/
theorem ensures_drawnFrom (registry : Registry) :
    registry.Ensures (View.DrawnFrom registry) where
  entries entries := drawnFrom_expandEntries entries (List.forall_mem_nil _)
  detail _ _ hfound _ _ _ := drawnFrom_expandTemplate (List.forall_mem_nil _) (detailOf?_mem hfound)

/-! Templates that were read. -/

variable {P : Template → Prop}

/-- What holds of every template that is read holds of the templates of a registry that is
read. -/
theorem forall_templates_of_ofText (hread : ∀ value template,
    Template.ofJson? value = some template → P template) {text : String}
    (h : ofText text = .ok registry) : ∀ template ∈ registry.templates, P template := by
  unfold ofText at h
  split at h
  · rename_i parts hparts
    obtain ⟨value, -, hparts⟩ := Option.bind_eq_some_iff.mp hparts
    simp only [partsOfJson?, Option.bind_eq_bind, Option.bind_eq_some_iff, Option.pure_def,
      Option.some.injEq] at hparts
    obtain ⟨fields, -, components, hcomponents, details, hdetails, _, -, rfl⟩ := hparts
    have htable {name : String} {entries : Entries Template}
        (h : fields.defaulted? name [] (Json.table? Template.ofJson?) = some entries) :
        ∀ entry ∈ entries, P entry.2 := by
      rcases Fields.defaulted?_eq_some_iff.mp h with ⟨-, rfl⟩ | ⟨given, -, hgiven⟩
      · exact List.forall_mem_nil _
      · exact Json.forall_mem_of_table? hread hgiven
    intro template htemplate
    obtain ⟨entry, hentry, rfl⟩ := List.mem_map.mp htemplate
    rcases List.mem_append.mp hentry with hmem | hmem
    · have hsame : registry.components = Entries.collect components :=
        (table_of_ofParts h .component).1
      exact htable hcomponents entry (Entries.mem_of_mem_collect (hsame ▸ hmem))
    · have hsame : registry.details = Entries.collect details := (table_of_ofParts h .detail).1
      exact htable hdetails entry (Entries.mem_of_mem_collect (hsame ▸ hmem))
  · cases h

end Registry

/-! ## What survives -/

namespace Template

variable {value : Json} {template : Template}

/-- A template whose leaves are in canonical form. -/
def Canonical (template : Template) : Prop :=
  ∀ key leaf, (key, Content.leaf leaf) ∈ template.content → leaf.Canonical

theorem canonical_of_ofJson? (h : ofJson? value = some template) : template.Canonical := by
  intro key leaf hleaf
  simp only [ofJson?, Option.bind_eq_bind, Option.bind_eq_some_iff, Option.pure_def,
    Option.some.injEq] at h
  obtain ⟨fields, -, _, -, _, -, _, -, _, -, content, hcontent, rfl⟩ := h
  have hread : ∀ value content, Content.ofJson? value = some content →
      ∀ item, content = .leaf item → item.Canonical := by
    rintro value _ hcontent item rfl
    exact Item.canonical_of_ofJson? (Content.ofJson?_eq_some_leaf_iff.mp hcontent).2
  rcases Fields.defaulted?_eq_some_iff.mp hcontent with ⟨-, rfl⟩ | ⟨given, -, hgiven⟩
  · cases hleaf
  · exact Json.forall_mem_of_table? hread hgiven _ hleaf leaf rfl

end Template

/-- How an item of a view is read back, if the templates of the view have been read: the same,
unless it poses as a slot, which a leaf of a template does in that case. -/
structure Item.Drawn (registry : Registry) (item : Item) : Prop where
  same : Content.ofJson? (Content.leaf item).toJson = some (.leaf item) ↔ ¬item.PosesAsSlot
  leaf : ∃ template ∈ registry.templates, ∃ key leaf,
    (key, Content.leaf leaf) ∈ template.content ∧ (item.PosesAsSlot ↔ leaf.PosesAsSlot)

theorem Item.drawn_of_bare_eq {registry : Registry} {item leaf : Item} {template : Template}
    {key : String} (htemplate : template ∈ registry.templates)
    (hleaf : (key, Content.leaf leaf) ∈ template.content) (hcanonical : leaf.Canonical)
    (h : item.bare = leaf.bare) : item.Drawn registry where
  same := Content.ofJson?_toJson_leaf_iff
    (Item.canonical_bare_iff.mp (h ▸ Item.canonical_bare_iff.mpr hcanonical))
  leaf := ⟨template, htemplate, key, leaf, hleaf, by
    rw [PosesAsSlot, PosesAsSlot, Item.others_eq_of_bare_eq h]⟩

/-- An entry that is read of a text is read back the same unless it poses as a slot. So is an
item of any view that a session hands out, if the registry is read of the text. -/
theorem Content.rereads (text : String) :
    (∀ value content, Json.read? .whole text = some value → ofJson? value = some content →
      content.Rereads value) ∧
    ∀ registry, Registry.ofText text = .ok registry → ∀ properties requests,
      ∀ view ∈ ((Session.mk Store.empty properties).serveAll registry requests).view,
        ∀ entry ∈ view.content, entry.2.Drawn registry := by
  refine ⟨fun value content htext hcontent =>
    rereads_of_ofJson? (Json.depth_le_of_read? htext) hcontent, ?_⟩
  intro registry hregistry properties requests view hview entry hentry
  have hempty : (Session.mk Store.empty properties).store.AllViews (View.DrawnFrom registry) := by
    simp [Store.AllViews, Store.empty]
  have hdrawn := (Session.forall_views_serveAll registry.ensures_drawnFrom requests hempty).1
  obtain ⟨template, htemplate, key, leaf, hleaf, hbare⟩ := hdrawn view hview entry hentry
  have hcanonical : template.Canonical := Registry.forall_templates_of_ofText
    (fun _ _ => Template.canonical_of_ofJson?) hregistry template htemplate
  exact Item.drawn_of_bare_eq htemplate hleaf (hcanonical key leaf hleaf) hbare

/-! ## A leaf in disguise -/

/-- What is read of an object that names its component twice: the names are no fields of an
item, and the last one is kept. -/
def Item.disguised : Item := { Item.blank with others := [("component", .string "b")] }

/-- The object that names its component twice. -/
def Json.disguised : Json := .object [("component", .string "a"), ("component", .string "b")]

def Json.disguisedText : String := "\x7b\"component\":\"a\",\"component\":\"b\"\x7d"

theorem Json.read?_disguisedText : read? .whole disguisedText = some disguised := by
  decide +kernel

/-- The leaf is written as the slot of its second component. -/
theorem Content.not_forall_ofJson?_toJson_eq : ¬∀ text value content,
    Json.read? .whole text = some value → ofJson? value = some content →
      ofJson? content.toJson = some content := by
  intro h
  have hsame := h _ _ (.leaf .disguised) Json.read?_disguisedText (by decide +kernel)
  exact absurd hsame (by decide +kernel)

/-- A registry with a component that has the leaf for its content. -/
def Registry.disguised : Registry where
  components := [("cell", ⟨[], [], none, none, [("core", .leaf .disguised)]⟩)]
  details := []
  architectures := []

def Registry.disguisedText : String :=
  "\x7b\"components\":\x7b\"cell\":\x7b\"content\":\x7b\"core\":" ++
    "\x7b\"component\":\"a\",\"component\":\"b\"\x7d\x7d\x7d\x7d\x7d"

theorem Registry.ofText_disguisedText : ofText disguisedText = .ok disguised := by
  decide +kernel

/-- The view of the component has the leaf for its only item. -/
def View.disguised : View := { View.empty with content := [("cell_core", .disguised)] }

theorem Session.view_serveAll_disguised :
    ((Session.mk Store.empty []).serveAll .disguised [.view "cell"]).view = [.disguised] := by
  have hview : ((Session.mk Store.empty []).viewOf .disguised "cell").view = some .disguised :=
    eq_of_viewOfWithin Answer.view (by decide +kernel)
  simp [serveAll, serve, hview]

/-- The leaf is read back as a slot, and so is the item that is drawn of it. -/
theorem Content.rereads_disguised :
    (Content.leaf .disguised).Rereads .disguised ∧ Item.disguised.PosesAsSlot ∧
      Item.disguised.Drawn .disguised := by
  refine ⟨(rereads Json.disguisedText).1 _ _ Json.read?_disguisedText (by decide +kernel),
    by decide +kernel, ?_⟩
  refine (rereads Registry.disguisedText).2 _ Registry.ofText_disguisedText [] [.view "cell"]
    .disguised ?_ ("cell_core", .disguised) (List.mem_singleton_self _)
  rw [Session.view_serveAll_disguised]
  exact List.mem_singleton_self _

end ArchDiagram

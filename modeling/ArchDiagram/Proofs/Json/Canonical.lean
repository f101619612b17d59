/-
# Items read back from their JSON forms

What a decoder gives is in canonical form: the members it kept besides the fields have
different names, none of them that of a field, and are merged (`Item.Canonical` and its kin for
the parts of an item). Whatever is in canonical form is read back as it was written
(`Item.Canonical.ofJson?_toJson`). Each record is described by its decoder, as the fields that
have to be found (`Item.ofJson?_eq_some_iff`), and by its writer, as the fields that have a
value (`Item.toJson_eq_present`).
-/

import ArchDiagram.Item
import ArchDiagram.Proofs.Json.Members

namespace ArchDiagram

open Json (Fields Remainder present listValue)

/-! ## References -/

namespace Reference

variable {value : Json} {reference : Reference}

theorem ofJson?_eq_some_iff : ofJson? value = some reference ↔
    ∃ fields, Fields.ofObject? fieldNames value = some fields ∧
      fields.required? "title" Json.string? = some reference.title ∧
      fields.optional? "link" Json.string? = some reference.link ∧
      fields.optional? "info" Json.string? = some reference.info ∧
      fields.defaulted? "authors" [] (Json.list? Json.string?) = some reference.authors ∧
      fields.optional? "refType" Json.string? = some reference.refType ∧
      fields.others = reference.others := by
  obtain ⟨title, link, info, authors, refType, others⟩ := reference
  simp only [ofJson?, Option.bind_eq_bind, Option.bind_eq_some_iff, Option.pure_def,
    Option.some.injEq, Reference.mk.injEq]
  constructor
  · rintro ⟨fields, hfields, _, htitle, _, hlink, _, hinfo, _, hauthors, _, hrefType, rfl, rfl, rfl,
      rfl, rfl, rfl⟩
    exact ⟨fields, hfields, htitle, hlink, hinfo, hauthors, hrefType, rfl⟩
  · rintro ⟨fields, hfields, htitle, hlink, hinfo, hauthors, hrefType, rfl⟩
    exact ⟨fields, hfields, _, htitle, _, hlink, _, hinfo, _, hauthors, _, hrefType, rfl, rfl, rfl,
      rfl, rfl, rfl⟩

/-- The fields of a reference as they are written. -/
def written (reference : Reference) : List (String × Option Json) :=
  [("title", some (.string reference.title)), ("link", reference.link.map .string),
    ("info", reference.info.map .string), ("authors", listValue .string reference.authors),
    ("refType", reference.refType.map .string)]

theorem toJson_eq_present (reference : Reference) :
    reference.toJson = .object (present reference.written ++ reference.others) := by
  simp [toJson, written, Json.present_cons_some, Json.present_cons_map,
    Json.present_cons_listValue, Json.present_nil]

/-- A reference as it is read. -/
def Canonical (reference : Reference) : Prop := Remainder fieldNames reference.others

theorem canonical_of_ofJson? (h : ofJson? value = some reference) : reference.Canonical := by
  obtain ⟨fields, hfields, -, -, -, -, -, hothers⟩ := ofJson?_eq_some_iff.mp h
  obtain ⟨members, -, hmembers⟩ := Fields.exists_of_ofObject? hfields
  rw [Canonical, ← hothers]
  exact Fields.remainder_of_ofMembers? hmembers

theorem Canonical.ofJson?_toJson (h : reference.Canonical) :
    ofJson? reference.toJson = some reference := by
  have hlookup := Json.forall_lookup_present (show (reference.written.map Prod.fst).Nodup from
    (by decide : fieldNames.Nodup))
  simp only [written, List.forall_mem_cons] at hlookup
  obtain ⟨htitle, hlink, hinfo, hauthors, hrefType, -⟩ := hlookup
  rw [toJson_eq_present, ofJson?_eq_some_iff]
  exact ⟨_, h.ofMembers?_present (by decide) rfl,
    Fields.required?_eq_some_iff.mpr ⟨_, htitle, rfl⟩,
    Fields.optional?_of_lookup_string hlink,
    Fields.optional?_of_lookup_string hinfo,
    Fields.defaulted?_of_lookup hauthors fun _ _ => rfl,
    Fields.optional?_of_lookup_string hrefType, rfl⟩

end Reference

/-! ## One value or a list -/

namespace OneOrMany

variable {α : Type} {read? : Json → Option α} {write : α → Json} {value : Json}
  {values : OneOrMany α}

/-- An array is read as a list, and everything else as one value. -/
theorem cases_of_ofJson? (h : ofJson? read? value = some values) :
    (∃ elements listed, value = .array elements ∧ values = .many listed ∧
      List.Forall₂ (fun element content => read? element = some content) elements listed) ∨
    ∃ single, (∀ elements, value ≠ .array elements) ∧ values = .one single ∧
      read? value = some single := by
  unfold ofJson? at h
  split at h
  · rename_i elements
    obtain ⟨listed, hlisted, rfl⟩ := Option.map_eq_some_iff.mp h
    have hlisted : Json.list? read? (.array elements) = some listed := hlisted
    obtain ⟨_, ⟨⟩, hread⟩ := Json.forall₂_of_list? hlisted
    exact Or.inl ⟨elements, listed, rfl, rfl, hread⟩
  · rename_i hshape
    obtain ⟨single, hsingle, rfl⟩ := Option.map_eq_some_iff.mp h
    exact Or.inr ⟨single, hshape, rfl, hsingle⟩

theorem forall_mem_of_ofJson? {P : α → Prop} (hread : ∀ value content, read? value = some content →
    P content) (h : ofJson? read? value = some values) : ∀ content ∈ values.toList, P content := by
  intro content hcontent
  rcases cases_of_ofJson? h with ⟨elements, listed, rfl, rfl, hlisted⟩ | ⟨single, -, rfl, hsingle⟩
  · obtain ⟨element, -, helement⟩ := Json.exists_of_forall₂_of_mem hlisted hcontent
    exact hread element content helement
  · obtain rfl := List.mem_singleton.mp hcontent
    exact hread value content hsingle

/-- Values that are written as objects are read back in the form they have. -/
theorem ofJson?_toJson (hobject : ∀ content, ∃ members, write content = .object members)
    (h : ∀ content ∈ values.toList, read? (write content) = some content) :
    ofJson? read? (values.toJson write) = some values := by
  cases values with
  | many listed =>
      have hlist : Json.list? read? (.array (listed.map write)) = some listed := Json.list?_map h
      exact Option.map_eq_some_iff.mpr ⟨listed, hlist, rfl⟩
  | one single =>
      obtain ⟨members, hmembers⟩ := hobject single
      have hsingle := h single (List.mem_singleton_self _)
      rw [hmembers] at hsingle
      -- an object is no array, so it is read as one value
      rw [toJson, hmembers, ofJson?]
      · rw [hsingle, Option.map_some]
      · simp

theorem toJson_ne_null (hobject : ∀ content, ∃ members, write content = .object members) :
    values.toJson write ≠ .null := by
  cases values with
  | many listed => simp [toJson]
  | one single =>
      obtain ⟨members, hmembers⟩ := hobject single
      rw [toJson, hmembers]
      simp

/-! Fields that hold one value or a list. -/

variable {fields : Fields} {named others : Entries Json} {name : String}
  {value : Option (OneOrMany α)}

theorem forall_of_optional? {P : α → Prop} (hread : ∀ value content, read? value = some content →
    P content) (h : fields.optional? name (ofJson? read?) = some value) :
    ∀ values ∈ value, ∀ content ∈ values.toList, P content :=
  Fields.forall_of_optional? (fun _ _ hvalues => forall_mem_of_ofJson? hread hvalues) h

theorem optional?_of_lookup (hlookup : named.lookup name = value.map (toJson write))
    (hobject : ∀ content, ∃ members, write content = .object members)
    (h : ∀ values ∈ value, ∀ content ∈ values.toList, read? (write content) = some content) :
    Fields.optional? ⟨named, others⟩ name (ofJson? read?) = some value :=
  Fields.optional?_of_lookup hlookup fun values hvalues =>
    ⟨toJson_ne_null hobject, ofJson?_toJson hobject (h values hvalues)⟩

end OneOrMany

/-! ## Labels -/

namespace Label

variable {value : Json} {label : Label}

theorem ofJson?_eq_some_iff : ofJson? value = some label ↔
    ∃ fields, Fields.ofObject? fieldNames value = some fields ∧
      fields.optional? "text" Json.string? = some label.text ∧
      fields.optional? "latexText" Json.string? = some label.latexText ∧
      fields.optional? "default" (fun value => some value.merged) = some label.default ∧
      fields.optional? "details" Json.string? = some label.details ∧
      fields.optional? "info" Json.string? = some label.info ∧
      fields.optional? "references" (Json.list? Reference.ofJson?) = some label.references ∧
      fields.others = label.others := by
  obtain ⟨text, latexText, default, details, info, references, others⟩ := label
  simp only [ofJson?, Option.bind_eq_bind, Option.bind_eq_some_iff, Option.pure_def,
    Option.some.injEq, Label.mk.injEq]
  constructor
  · rintro ⟨fields, hfields, _, htext, _, hlatexText, _, hdefault, _, hdetails, _, hinfo, _,
      hreferences, rfl, rfl, rfl, rfl, rfl, rfl, rfl⟩
    exact ⟨fields, hfields, htext, hlatexText, hdefault, hdetails, hinfo, hreferences, rfl⟩
  · rintro ⟨fields, hfields, htext, hlatexText, hdefault, hdetails, hinfo, hreferences, rfl⟩
    exact ⟨fields, hfields, _, htext, _, hlatexText, _, hdefault, _, hdetails, _, hinfo, _,
      hreferences, rfl, rfl, rfl, rfl, rfl, rfl, rfl⟩

/-- The fields of a label as they are written. -/
def written (label : Label) : List (String × Option Json) :=
  [("text", label.text.map .string), ("latexText", label.latexText.map .string),
    ("default", label.default.map id), ("details", label.details.map .string),
    ("info", label.info.map .string),
    ("references", label.references.map fun listed => .array (listed.map Reference.toJson))]

theorem toJson_eq_present (label : Label) :
    label.toJson = .object (present label.written ++ label.others) := by
  simp only [toJson, written, Json.present_cons_map, Json.present_nil, List.append_assoc,
    List.nil_append]

theorem exists_toJson_eq (label : Label) : ∃ members, label.toJson = .object members :=
  ⟨_, rfl⟩

/-- A label as it is read. -/
structure Canonical (label : Label) : Prop where
  others : Remainder fieldNames label.others
  default : ∀ value ∈ label.default, value ≠ .null ∧ value.merged = value
  references : ∀ listed ∈ label.references, ∀ reference ∈ listed, reference.Canonical

theorem canonical_of_ofJson? (h : ofJson? value = some label) : label.Canonical := by
  obtain ⟨fields, hfields, -, -, hdefault, -, -, hreferences, hothers⟩ := ofJson?_eq_some_iff.mp h
  obtain ⟨members, -, hmembers⟩ := Fields.exists_of_ofObject? hfields
  refine ⟨hothers ▸ Fields.remainder_of_ofMembers? hmembers, ?_, ?_⟩
  · -- the default is merged when it is read, which does not make it `null`
    rintro value hvalue
    rw [hvalue] at hdefault
    obtain ⟨given, -, hnull, hmerged⟩ := Fields.optional?_eq_some_some_iff.mp hdefault
    obtain rfl := Option.some.inj hmerged
    exact ⟨mt Json.merged_eq_null.mp hnull, Json.merged_merged given⟩
  · exact Fields.forall_of_optional?_list (fun _ _ => Reference.canonical_of_ofJson?) hreferences

theorem Canonical.ofJson?_toJson (h : label.Canonical) : ofJson? label.toJson = some label := by
  have hlookup := Json.forall_lookup_present (show (label.written.map Prod.fst).Nodup from
    (by decide : fieldNames.Nodup))
  simp only [written, List.forall_mem_cons] at hlookup
  obtain ⟨htext, hlatexText, hdefault, hdetails, hinfo, hreferences, -⟩ := hlookup
  rw [toJson_eq_present, ofJson?_eq_some_iff]
  exact ⟨_, h.others.ofMembers?_present (by decide) rfl,
    Fields.optional?_of_lookup_string htext,
    Fields.optional?_of_lookup_string hlatexText,
    Fields.optional?_of_lookup hdefault fun value hvalue =>
      ⟨(h.default value hvalue).1, congrArg some (h.default value hvalue).2⟩,
    Fields.optional?_of_lookup_string hdetails,
    Fields.optional?_of_lookup_string hinfo,
    Fields.optional?_of_lookup_list hreferences fun listed hlisted reference hreference =>
      (h.references listed hlisted reference hreference).ofJson?_toJson, rfl⟩

end Label

/-! ## Segments and arrows -/

namespace Segment

variable {value : Json} {segment : Segment}

theorem ofJson?_eq_some_iff : ofJson? value = some segment ↔
    ∃ fields, Fields.ofObject? ["text"] value = some fields ∧
      fields.optional? "text" (OneOrMany.ofJson? Label.ofJson?) = some segment.text ∧
      fields.others = segment.others := by
  obtain ⟨text, others⟩ := segment
  simp only [ofJson?, Option.bind_eq_bind, Option.bind_eq_some_iff, Option.pure_def,
    Option.some.injEq, Segment.mk.injEq]
  constructor
  · rintro ⟨fields, hfields, _, htext, rfl, rfl⟩
    exact ⟨fields, hfields, htext, rfl⟩
  · rintro ⟨fields, hfields, htext, rfl⟩
    exact ⟨fields, hfields, _, htext, rfl, rfl⟩

/-- The fields of a segment as they are written. -/
def written (segment : Segment) : List (String × Option Json) :=
  [("text", segment.text.map (OneOrMany.toJson Label.toJson))]

theorem toJson_eq_present (segment : Segment) :
    segment.toJson = .object (present segment.written ++ segment.others) := by
  simp only [toJson, written, Json.present_cons_map, Json.present_nil, List.append_nil]

/-- A segment as it is read. -/
structure Canonical (segment : Segment) : Prop where
  others : Remainder ["text"] segment.others
  text : ∀ labels ∈ segment.text, ∀ label ∈ labels.toList, label.Canonical

theorem canonical_of_ofJson? (h : ofJson? value = some segment) : segment.Canonical := by
  obtain ⟨fields, hfields, htext, hothers⟩ := ofJson?_eq_some_iff.mp h
  obtain ⟨members, -, hmembers⟩ := Fields.exists_of_ofObject? hfields
  exact ⟨hothers ▸ Fields.remainder_of_ofMembers? hmembers,
    OneOrMany.forall_of_optional? (fun _ _ => Label.canonical_of_ofJson?) htext⟩

theorem Canonical.ofJson?_toJson (h : segment.Canonical) :
    ofJson? segment.toJson = some segment := by
  have hlookup := Json.forall_lookup_present (show (segment.written.map Prod.fst).Nodup from
    (by decide : ["text"].Nodup))
  simp only [written, List.forall_mem_cons] at hlookup
  obtain ⟨htext, -⟩ := hlookup
  rw [toJson_eq_present, ofJson?_eq_some_iff]
  exact ⟨_, h.others.ofMembers?_present (by decide) rfl,
    OneOrMany.optional?_of_lookup htext Label.exists_toJson_eq fun labels hlabels label hlabel =>
      (h.text labels hlabels label hlabel).ofJson?_toJson, rfl⟩

end Segment

namespace Arrow

variable {value : Json} {arrow : Arrow}

theorem ofJson?_eq_some_iff : ofJson? value = some arrow ↔
    ∃ fields, Fields.ofObject? fieldNames value = some fields ∧
      fields.optional? "previous" Json.string? = some arrow.previous ∧
      fields.optional? "details" Json.string? = some arrow.details ∧
      fields.optional? "text" (OneOrMany.ofJson? Label.ofJson?) = some arrow.text ∧
      fields.defaulted? "segments" [] (Json.list? Segment.ofJson?) = some arrow.segments ∧
      fields.others = arrow.others := by
  obtain ⟨previous, details, text, segments, others⟩ := arrow
  simp only [ofJson?, Option.bind_eq_bind, Option.bind_eq_some_iff, Option.pure_def,
    Option.some.injEq, Arrow.mk.injEq]
  constructor
  · rintro ⟨fields, hfields, _, hprevious, _, hdetails, _, htext, _, hsegments, rfl, rfl, rfl, rfl,
      rfl⟩
    exact ⟨fields, hfields, hprevious, hdetails, htext, hsegments, rfl⟩
  · rintro ⟨fields, hfields, hprevious, hdetails, htext, hsegments, rfl⟩
    exact ⟨fields, hfields, _, hprevious, _, hdetails, _, htext, _, hsegments, rfl, rfl, rfl, rfl,
      rfl⟩

/-- The fields of an arrow as they are written. -/
def written (arrow : Arrow) : List (String × Option Json) :=
  [("previous", arrow.previous.map .string), ("details", arrow.details.map .string),
    ("text", arrow.text.map (OneOrMany.toJson Label.toJson)),
    ("segments", listValue Segment.toJson arrow.segments)]

theorem toJson_eq_present (arrow : Arrow) :
    arrow.toJson = .object (present arrow.written ++ arrow.others) := by
  simp only [toJson, written, Json.present_cons_map, Json.present_cons_listValue,
    Json.present_nil, List.append_assoc, List.nil_append]

theorem exists_toJson_eq (arrow : Arrow) : ∃ members, arrow.toJson = .object members :=
  ⟨_, rfl⟩

/-- An arrow as it is read. -/
structure Canonical (arrow : Arrow) : Prop where
  others : Remainder fieldNames arrow.others
  text : ∀ labels ∈ arrow.text, ∀ label ∈ labels.toList, label.Canonical
  segments : ∀ segment ∈ arrow.segments, segment.Canonical

theorem canonical_of_ofJson? (h : ofJson? value = some arrow) : arrow.Canonical := by
  obtain ⟨fields, hfields, -, -, htext, hsegments, hothers⟩ := ofJson?_eq_some_iff.mp h
  obtain ⟨members, -, hmembers⟩ := Fields.exists_of_ofObject? hfields
  refine ⟨hothers ▸ Fields.remainder_of_ofMembers? hmembers, ?_, ?_⟩
  · exact OneOrMany.forall_of_optional? (fun _ _ => Label.canonical_of_ofJson?) htext
  · rcases Fields.defaulted?_eq_some_iff.mp hsegments with ⟨-, hnone⟩ | ⟨given, -, hlisted⟩
    · rw [hnone]
      exact List.forall_mem_nil _
    · exact Json.forall_mem_of_list? (fun _ _ => Segment.canonical_of_ofJson?) hlisted

theorem Canonical.ofJson?_toJson (h : arrow.Canonical) : ofJson? arrow.toJson = some arrow := by
  have hlookup := Json.forall_lookup_present (show (arrow.written.map Prod.fst).Nodup from
    (by decide : fieldNames.Nodup))
  simp only [written, List.forall_mem_cons] at hlookup
  obtain ⟨hprevious, hdetails, htext, hsegments, -⟩ := hlookup
  rw [toJson_eq_present, ofJson?_eq_some_iff]
  exact ⟨_, h.others.ofMembers?_present (by decide) rfl,
    Fields.optional?_of_lookup_string hprevious,
    Fields.optional?_of_lookup_string hdetails,
    OneOrMany.optional?_of_lookup htext Label.exists_toJson_eq fun labels hlabels label hlabel =>
      (h.text labels hlabels label hlabel).ofJson?_toJson,
    Fields.defaulted?_of_lookup hsegments fun segment hsegment =>
      (h.segments segment hsegment).ofJson?_toJson, rfl⟩

end Arrow

/-! ## Items -/

namespace Item

variable {value : Json} {item : Item}

theorem ofJson?_eq_some_iff : ofJson? value = some item ↔
    ∃ fields, Fields.ofObject? fieldNames value = some fields ∧
      fields.optional? "shape" Json.string? = some item.shape ∧
      fields.optional? "position" Json.string? = some item.position ∧
      fields.optional? "previous" Json.string? = some item.previous ∧
      fields.optional? "details" Json.string? = some item.details ∧
      fields.optional? "info" Json.string? = some item.info ∧
      fields.optional? "arrow" (OneOrMany.ofJson? Arrow.ofJson?) = some item.arrow ∧
      fields.optional? "text" (OneOrMany.ofJson? Label.ofJson?) = some item.text ∧
      fields.optional? "references" (Json.list? Reference.ofJson?) = some item.references ∧
      fields.others = item.others := by
  obtain ⟨shape, position, previous, details, info, arrow, text, references, others⟩ := item
  simp only [ofJson?, Option.bind_eq_bind, Option.bind_eq_some_iff, Option.pure_def,
    Option.some.injEq, Item.mk.injEq]
  constructor
  · rintro ⟨fields, hfields, _, hshape, _, hposition, _, hprevious, _, hdetails, _, hinfo, _,
      harrow, _, htext, _, hreferences, rfl, rfl, rfl, rfl, rfl, rfl, rfl, rfl, rfl⟩
    exact ⟨fields, hfields, hshape, hposition, hprevious, hdetails, hinfo, harrow, htext,
      hreferences, rfl⟩
  · rintro ⟨fields, hfields, hshape, hposition, hprevious, hdetails, hinfo, harrow, htext,
      hreferences, rfl⟩
    exact ⟨fields, hfields, _, hshape, _, hposition, _, hprevious, _, hdetails, _, hinfo, _, harrow,
      _, htext, _, hreferences, rfl, rfl, rfl, rfl, rfl, rfl, rfl, rfl, rfl⟩

/-- The fields of an item as they are written. -/
def written (item : Item) : List (String × Option Json) :=
  [("shape", item.shape.map .string), ("position", item.position.map .string),
    ("previous", item.previous.map .string), ("details", item.details.map .string),
    ("info", item.info.map .string), ("arrow", item.arrow.map (OneOrMany.toJson Arrow.toJson)),
    ("text", item.text.map (OneOrMany.toJson Label.toJson)),
    ("references", item.references.map fun listed => .array (listed.map Reference.toJson))]

theorem toJson_eq_present (item : Item) :
    item.toJson = .object (present item.written ++ item.others) := by
  simp only [toJson, written, Json.present_cons_map, Json.present_nil, List.append_assoc,
    List.nil_append]

/-- An item as it is read. -/
structure Canonical (item : Item) : Prop where
  others : Remainder fieldNames item.others
  arrow : ∀ arrows ∈ item.arrow, ∀ arrow ∈ arrows.toList, arrow.Canonical
  text : ∀ labels ∈ item.text, ∀ label ∈ labels.toList, label.Canonical
  references : ∀ listed ∈ item.references, ∀ reference ∈ listed, reference.Canonical

theorem canonical_of_ofJson? (h : ofJson? value = some item) : item.Canonical := by
  obtain ⟨fields, hfields, -, -, -, -, -, harrow, htext, hreferences, hothers⟩ :=
    ofJson?_eq_some_iff.mp h
  obtain ⟨members, -, hmembers⟩ := Fields.exists_of_ofObject? hfields
  refine ⟨hothers ▸ Fields.remainder_of_ofMembers? hmembers, ?_, ?_, ?_⟩
  · exact OneOrMany.forall_of_optional? (fun _ _ => Arrow.canonical_of_ofJson?) harrow
  · exact OneOrMany.forall_of_optional? (fun _ _ => Label.canonical_of_ofJson?) htext
  · exact Fields.forall_of_optional?_list (fun _ _ => Reference.canonical_of_ofJson?) hreferences

/-- An item in canonical form is read back from its JSON form. -/
theorem Canonical.ofJson?_toJson (h : item.Canonical) : ofJson? item.toJson = some item := by
  have hlookup := Json.forall_lookup_present (show (item.written.map Prod.fst).Nodup from
    (by decide : fieldNames.Nodup))
  simp only [written, List.forall_mem_cons] at hlookup
  obtain ⟨hshape, hposition, hprevious, hdetails, hinfo, harrow, htext, hreferences, -⟩ := hlookup
  rw [toJson_eq_present, ofJson?_eq_some_iff]
  exact ⟨_, h.others.ofMembers?_present (by decide) rfl,
    Fields.optional?_of_lookup_string hshape,
    Fields.optional?_of_lookup_string hposition,
    Fields.optional?_of_lookup_string hprevious,
    Fields.optional?_of_lookup_string hdetails,
    Fields.optional?_of_lookup_string hinfo,
    OneOrMany.optional?_of_lookup harrow Arrow.exists_toJson_eq fun arrows harrows arrow harrow =>
      (h.arrow arrows harrows arrow harrow).ofJson?_toJson,
    OneOrMany.optional?_of_lookup htext Label.exists_toJson_eq fun labels hlabels label hlabel =>
      (h.text labels hlabels label hlabel).ofJson?_toJson,
    Fields.optional?_of_lookup_list hreferences fun listed hlisted reference hreference =>
      (h.references listed hlisted reference hreference).ofJson?_toJson, rfl⟩

end Item

end ArchDiagram

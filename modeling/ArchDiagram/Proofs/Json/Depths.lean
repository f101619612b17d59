/-
# How deep items are nested

An item is written no deeper than what it was read from (`Item.depth_toJson_le`), and a JSON
text is read down to a certain depth only (`Json.depth_le_of_read?`). So what is read of a text
as an item can be read of the text it is written as.
-/

import ArchDiagram.Proofs.Json.Canonical
import ArchDiagram.Proofs.Json.Ranges
import ArchDiagram.Proofs.Json.Texts

namespace ArchDiagram

namespace Json

/-! ## Parts and wholes -/

theorem depthOfElements_le_iff {elements : List Json} {limit : ℕ} :
    depthOfElements elements ≤ limit ↔ ∀ element ∈ elements, element.depth ≤ limit := by
  induction elements with
  | nil => simp [depthOfElements]
  | cons element rest ih => rw [depthOfElements, max_le_iff, ih, List.forall_mem_cons]

theorem depthOfMembers_le_iff {members : List (String × Json)} {limit : ℕ} :
    depthOfMembers members ≤ limit ↔ ∀ member ∈ members, member.2.depth ≤ limit := by
  induction members with
  | nil => simp [depthOfMembers]
  | cons member rest ih => rw [depthOfMembers, max_le_iff, ih, List.forall_mem_cons]

mutual

/-- Merging makes nothing deeper. -/
theorem depth_merged_le : ∀ value : Json, value.merged.depth ≤ value.depth
  | .null | .bool _ | .integer _ | .real _ | .string _ => le_rfl
  | .array elements => Nat.succ_le_succ (depthOfElements_merged_le elements)
  | .object members => by
      have hmerged := depthOfMembers_le_iff.mp (depthOfMembers_merged_le members)
      exact Nat.succ_le_succ (depthOfMembers_le_iff.mpr fun member hmember =>
        hmerged member (Entries.mem_of_mem_collect hmember))

theorem depthOfElements_merged_le : ∀ elements : List Json,
    depthOfElements (mergedElements elements) ≤ depthOfElements elements
  | [] => le_rfl
  | element :: rest => max_le_max (depth_merged_le element) (depthOfElements_merged_le rest)

theorem depthOfMembers_merged_le : ∀ members : List (String × Json),
    depthOfMembers (mergedMembers members) ≤ depthOfMembers members
  | [] => le_rfl
  | (_, value) :: rest => max_le_max (depth_merged_le value) (depthOfMembers_merged_le rest)

end

/-! ## Values of texts -/

/-- A numeral stands for a number. -/
theorem Numeral.depth_of_value? {numeral : Numeral} {value : Json}
    (h : numeral.value? = some value) : value.depth = 0 := by
  have hsigned {found : Option Binary64} (h : (found.map fun magnitude =>
      Json.real (magnitude.withSign numeral.negative)) = some value) : value.depth = 0 := by
    obtain ⟨x, -, rfl⟩ := Option.map_eq_some_iff.mp h
    rfl
  unfold value? at h
  simp only at h
  split at h
  · exact hsigned h
  split at h
  · exact hsigned h
  split at h
  · obtain rfl := Option.some.inj h
    rfl
  split at h
  · exact hsigned h
  · obtain rfl := Option.some.inj h
    rfl

theorem carried_depth_le : Source.Carried fun limit value => value.depth ≤ limit where
  null := Nat.zero_le
  bool limit _ := Nat.zero_le limit
  string limit _ := Nat.zero_le limit
  number limit _ _ h := (Numeral.depth_of_value? h).trans_le (Nat.zero_le limit)
  array _ _ h := Nat.succ_le_succ (depthOfElements_le_iff.mpr h)
  object _ _ h := Nat.succ_le_succ (depthOfMembers_le_iff.mpr h)

/-- A JSON text is read down to the depth limit. -/
theorem depth_le_of_read? {interest : Interest} {text : String} {value : Json}
    (h : read? interest text = some value) : value.depth ≤ depthLimit :=
  carried_depth_le.of_read? h

/-! ## Records -/

section Records

variable {α : Type} {read? : Json → Option α} {write : α → Json} {fields : Fields}
  {name : String} {known : List String} {members : List (String × Json)}
  {written : List (String × Option Json)}

/-- A record is written no deeper than it was read if none of its fields is. -/
theorem depth_present_le (hread : Fields.ofMembers? known members = some fields)
    (h : ∀ field ∈ written, ∀ again ∈ field.2, again.depth ≤ depthOfMembers fields.named) :
    (Json.object (present written ++ fields.others)).depth ≤ (Json.object members).depth := by
  obtain ⟨-, hnamed, hothers⟩ := Fields.ofMembers?_eq_some_iff.mp hread
  have hparts := depthOfMembers_le_iff.mp (le_refl (depthOfMembers members))
  refine Nat.succ_le_succ (depthOfMembers_le_iff.mpr fun member hmember => ?_)
  rcases List.mem_append.mp hmember with hfield | hother
  · refine (h _ (mem_present.mp hfield) _ rfl).trans (depthOfMembers_le_iff.mpr ?_)
    rw [hnamed]
    exact fun source hsource => hparts source (List.mem_of_mem_filter hsource)
  -- the members left over were merged, which makes nothing deeper
  · rw [hothers] at hother
    have hmerged := Entries.mem_of_mem_collect hother
    refine depthOfMembers_le_iff.mp ((depthOfMembers_merged_le _).trans ?_) member hmerged
    exact depthOfMembers_le_iff.mpr fun source hsource =>
      hparts source (List.mem_of_mem_filter hsource)

theorem depth_le_of_lookup {given : Json} (h : fields.named.lookup name = some given) :
    given.depth ≤ depthOfMembers fields.named := by
  obtain ⟨before, after, heq, -⟩ := List.lookup_eq_some_iff.mp h
  exact depthOfMembers_le_iff.mp le_rfl (name, given) (by rw [heq]; simp)

theorem depth_le_of_optional? {value : Option α} (h : fields.optional? name read? = some value)
    (hread : ∀ given content, read? given = some content → (write content).depth ≤ given.depth) :
    ∀ again ∈ value.map write, again.depth ≤ depthOfMembers fields.named := by
  rintro again hagain
  obtain ⟨content, rfl, rfl⟩ := Option.map_eq_some_iff.mp hagain
  obtain ⟨given, hgiven, -, hcontent⟩ := Fields.optional?_eq_some_some_iff.mp h
  exact (hread given content hcontent).trans (depth_le_of_lookup hgiven)

theorem depth_le_of_optional?_string {value : Option String} :
    ∀ again ∈ value.map Json.string, again.depth ≤ depthOfMembers fields.named := by
  rintro again hagain
  obtain ⟨content, rfl, rfl⟩ := Option.map_eq_some_iff.mp hagain
  exact Nat.zero_le _

theorem depth_array_le {elements : List Json} {values : List α}
    (hread : ∀ given content, read? given = some content → (write content).depth ≤ given.depth)
    (h : List.Forall₂ (fun element content => read? element = some content) elements values) :
    (Json.array (values.map write)).depth ≤ (Json.array elements).depth := by
  refine Nat.succ_le_succ ?_
  induction h with
  | nil => exact le_rfl
  | cons hfirst _ ih => exact max_le_max (hread _ _ hfirst) ih

theorem depth_le_of_list? {given : Json} {values : List α}
    (hread : ∀ given content, read? given = some content → (write content).depth ≤ given.depth)
    (h : list? read? given = some values) :
    (Json.array (values.map write)).depth ≤ given.depth := by
  obtain ⟨elements, rfl, helements⟩ := forall₂_of_list? h
  exact depth_array_le hread helements

theorem depth_le_of_defaulted? {values : List α}
    (h : fields.defaulted? name [] (list? read?) = some values)
    (hread : ∀ given content, read? given = some content → (write content).depth ≤ given.depth) :
    ∀ again ∈ listValue write values, again.depth ≤ depthOfMembers fields.named := by
  rintro again hagain
  rcases Fields.defaulted?_eq_some_iff.mp h with ⟨-, rfl⟩ | ⟨given, hgiven, hvalues⟩
  · cases hagain
  · rw [listValue] at hagain
    split at hagain
    · cases hagain
    · obtain rfl := Option.some.inj hagain
      exact (depth_le_of_list? hread hvalues).trans (depth_le_of_lookup hgiven)

theorem depth_le_of_oneOrMany {given : Json} {values : OneOrMany α}
    (hread : ∀ given content, read? given = some content → (write content).depth ≤ given.depth)
    (h : OneOrMany.ofJson? read? given = some values) :
    (values.toJson write).depth ≤ given.depth := by
  rcases OneOrMany.cases_of_ofJson? h with ⟨elements, listed, rfl, rfl, hlisted⟩ |
    ⟨single, -, rfl, hsingle⟩
  · exact depth_array_le hread hlisted
  · exact hread given single hsingle

end Records

end Json

open Json (Fields)

variable {value : Json}

theorem Reference.depth_toJson_le {reference : Reference} (h : ofJson? value = some reference) :
    reference.toJson.depth ≤ value.depth := by
  obtain ⟨fields, hfields, -, -, -, hauthors, -, hothers⟩ := ofJson?_eq_some_iff.mp h
  obtain ⟨members, rfl, hmembers⟩ := Fields.exists_of_ofObject? hfields
  rw [toJson_eq_present, ← hothers]
  refine Json.depth_present_le hmembers ?_
  simp only [written, List.forall_mem_cons]
  refine ⟨?_, Json.depth_le_of_optional?_string, Json.depth_le_of_optional?_string,
    Json.depth_le_of_defaulted? hauthors fun _ _ _ => Nat.zero_le _,
    Json.depth_le_of_optional?_string, List.forall_mem_nil _⟩
  rintro again ⟨⟩
  exact Nat.zero_le _

theorem Label.depth_toJson_le {label : Label} (h : ofJson? value = some label) :
    label.toJson.depth ≤ value.depth := by
  obtain ⟨fields, hfields, -, -, hdefault, -, -, hreferences, hothers⟩ := ofJson?_eq_some_iff.mp h
  obtain ⟨members, rfl, hmembers⟩ := Fields.exists_of_ofObject? hfields
  rw [toJson_eq_present, ← hothers]
  refine Json.depth_present_le hmembers ?_
  simp only [written, List.forall_mem_cons]
  refine ⟨Json.depth_le_of_optional?_string, Json.depth_le_of_optional?_string,
    Json.depth_le_of_optional? hdefault ?_, Json.depth_le_of_optional?_string,
    Json.depth_le_of_optional?_string, Json.depth_le_of_optional? hreferences fun _ _ =>
      Json.depth_le_of_list? fun _ _ => Reference.depth_toJson_le, List.forall_mem_nil _⟩
  rintro given content hmerged
  obtain rfl := Option.some.inj hmerged
  exact Json.depth_merged_le given

theorem Segment.depth_toJson_le {segment : Segment} (h : ofJson? value = some segment) :
    segment.toJson.depth ≤ value.depth := by
  obtain ⟨fields, hfields, htext, hothers⟩ := ofJson?_eq_some_iff.mp h
  obtain ⟨members, rfl, hmembers⟩ := Fields.exists_of_ofObject? hfields
  rw [toJson_eq_present, ← hothers]
  refine Json.depth_present_le hmembers ?_
  simp only [written, List.forall_mem_cons]
  exact ⟨Json.depth_le_of_optional? htext fun _ _ =>
    Json.depth_le_of_oneOrMany fun _ _ => Label.depth_toJson_le, List.forall_mem_nil _⟩

theorem Arrow.depth_toJson_le {arrow : Arrow} (h : ofJson? value = some arrow) :
    arrow.toJson.depth ≤ value.depth := by
  obtain ⟨fields, hfields, -, -, htext, hsegments, hothers⟩ := ofJson?_eq_some_iff.mp h
  obtain ⟨members, rfl, hmembers⟩ := Fields.exists_of_ofObject? hfields
  rw [toJson_eq_present, ← hothers]
  refine Json.depth_present_le hmembers ?_
  simp only [written, List.forall_mem_cons]
  exact ⟨Json.depth_le_of_optional?_string, Json.depth_le_of_optional?_string,
    Json.depth_le_of_optional? htext fun _ _ =>
      Json.depth_le_of_oneOrMany fun _ _ => Label.depth_toJson_le,
    Json.depth_le_of_defaulted? hsegments fun _ _ => Segment.depth_toJson_le,
    List.forall_mem_nil _⟩

/-- An item is written no deeper than what it was read from. -/
theorem Item.depth_toJson_le {item : Item} (h : ofJson? value = some item) :
    item.toJson.depth ≤ value.depth := by
  obtain ⟨fields, hfields, -, -, -, -, -, harrow, htext, hreferences, hothers⟩ :=
    ofJson?_eq_some_iff.mp h
  obtain ⟨members, rfl, hmembers⟩ := Fields.exists_of_ofObject? hfields
  rw [toJson_eq_present, ← hothers]
  refine Json.depth_present_le hmembers ?_
  simp only [written, List.forall_mem_cons]
  exact ⟨Json.depth_le_of_optional?_string, Json.depth_le_of_optional?_string,
    Json.depth_le_of_optional?_string, Json.depth_le_of_optional?_string,
    Json.depth_le_of_optional?_string,
    Json.depth_le_of_optional? harrow fun _ _ =>
      Json.depth_le_of_oneOrMany fun _ _ => Arrow.depth_toJson_le,
    Json.depth_le_of_optional? htext fun _ _ =>
      Json.depth_le_of_oneOrMany fun _ _ => Label.depth_toJson_le,
    Json.depth_le_of_optional? hreferences fun _ _ =>
      Json.depth_le_of_list? fun _ _ => Reference.depth_toJson_le,
    List.forall_mem_nil _⟩

end ArchDiagram

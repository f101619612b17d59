/-
# The members of records

The decoder of a record takes the members of an object apart, into its fields and the others,
which it merges and keeps; the writer puts the fields that have a value in front of the
others. Here is what all records have in common: which members a decoder can leave over
(`Remainder`), that they are told apart from the fields when both are written and read again
(`Remainder.ofMembers?_present`), and what a field of each kind says about the member it was
read from.
-/

import ArchDiagram.Json.Fields
import ArchDiagram.Proofs.Entries

namespace ArchDiagram.Json

/-! ## Merged values -/

theorem mergedMembers_eq_self {members : List (String × Json)}
    (h : ∀ member ∈ members, member.2.merged = member.2) : mergedMembers members = members := by
  induction members with
  | nil => rfl
  | cons member rest ih =>
      rw [List.forall_mem_cons] at h
      rw [mergedMembers, h.1, ih h.2]

theorem names_mergedMembers (members : List (String × Json)) :
    Entries.names (mergedMembers members) = Entries.names members := by
  induction members with
  | nil => rfl
  | cons member rest ih => exact congrArg (member.1 :: ·) ih

theorem mergedMembers_eq_map (members : List (String × Json)) :
    mergedMembers members = members.map fun member => (member.1, member.2.merged) := by
  induction members with
  | nil => rfl
  | cons member rest ih => rw [mergedMembers, ih, List.map_cons]

theorem merged_eq_null {value : Json} : value.merged = .null ↔ value = .null := by
  cases value <;> simp [merged]

theorem filter_mergedMembers (selected : String → Bool) (members : List (String × Json)) :
    (mergedMembers members).filter (fun member => selected member.1) =
      mergedMembers (members.filter fun member => selected member.1) := by
  rw [mergedMembers_eq_map, mergedMembers_eq_map, List.filter_map]
  rfl

theorem lookup_mergedMembers (members : List (String × Json)) (name : String) :
    (mergedMembers members).lookup name = (members.lookup name).map merged := by
  rw [mergedMembers_eq_map, Entries.lookup_map]

theorem string?_merged (value : Json) : value.merged.string? = value.string? := by
  cases value <;> rfl

mutual

/-- Merging a second time changes nothing. -/
theorem merged_merged : ∀ value : Json, value.merged.merged = value.merged
  | .null | .bool _ | .integer _ | .real _ | .string _ => rfl
  | .array elements => by rw [merged, merged, mergedElements_mergedElements elements]
  | .object members => by
      have hmembers : ∀ member ∈ Entries.collect (mergedMembers members),
          member.2.merged = member.2 := fun member hmember =>
        merged_of_mem_mergedMembers members member (Entries.mem_of_mem_collect hmember)
      rw [merged, merged, mergedMembers_eq_self hmembers,
        Entries.collect_eq_self (Entries.nodup_names_collect _)]

theorem mergedElements_mergedElements : ∀ elements : List Json,
    mergedElements (mergedElements elements) = mergedElements elements
  | [] => rfl
  | element :: rest => by
      rw [mergedElements, mergedElements, merged_merged element, mergedElements_mergedElements rest]

theorem merged_of_mem_mergedMembers : ∀ (members : List (String × Json)),
    ∀ member ∈ mergedMembers members, member.2.merged = member.2
  | [], _, h => by cases h
  | (_, value) :: rest, member, h => by
      rw [mergedMembers, List.mem_cons] at h
      rcases h with rfl | h
      · exact merged_merged value
      · exact merged_of_mem_mergedMembers rest member h

end

/-! ## Written fields -/

/-- The value of a list, which is left out if the list is empty. -/
def listValue {α : Type} (write : α → Json) (values : List α) : Option Json :=
  if values.isEmpty then none else some (.array (values.map write))

/-- The members of the fields that have a value. -/
def present (fields : List (String × Option Json)) : Entries Json :=
  fields.filterMap fun field => field.2.map (Prod.mk field.1)

section Present

variable {α : Type} {fields : List (String × Option Json)}

theorem present_nil : present [] = [] := rfl

theorem present_cons_some (name : String) (value : Json) (rest : List (String × Option Json)) :
    present ((name, some value) :: rest) = (name, value) :: present rest := rfl

theorem present_cons_map (name : String) (write : α → Json) (value : Option α)
    (rest : List (String × Option Json)) :
    present ((name, value.map write) :: rest) =
      optionalMember name write value ++ present rest := by
  cases value <;> rfl

theorem present_cons_listValue (name : String) (write : α → Json) (values : List α)
    (rest : List (String × Option Json)) :
    present ((name, listValue write values) :: rest) =
      listMember name write values ++ present rest := by
  cases values <;> rfl

theorem mem_present {member : String × Json} :
    member ∈ present fields ↔ (member.1, some member.2) ∈ fields := by
  simp only [present, List.mem_filterMap, Option.map_eq_some_iff]
  constructor
  · rintro ⟨⟨name, _⟩, hfield, value, rfl, rfl⟩
    exact hfield
  · exact fun h => ⟨_, h, member.2, rfl, rfl⟩

theorem names_present_sublist (fields : List (String × Option Json)) :
    (Entries.names (present fields)).Sublist (fields.map Prod.fst) := by
  induction fields with
  | nil => exact List.Sublist.refl _
  | cons field rest ih =>
      obtain ⟨name, value⟩ := field
      cases value with
      | none => exact ih.cons name
      | some value => exact ih.cons_cons name

/-- A field is found under its name if it has a value. -/
theorem forall_lookup_present (hnodup : (fields.map Prod.fst).Nodup) :
    ∀ field ∈ fields, (present fields).lookup field.1 = field.2 := by
  rintro ⟨name, value⟩ hfield
  have hnames := (names_present_sublist fields).nodup hnodup
  cases value with
  | some value =>
      exact (Entries.lookup_eq_some_iff_mem hnames).mpr (mem_present.mpr hfield)
  | none =>
      refine Entries.lookup_eq_none_iff_notMem.mpr fun hname => ?_
      obtain ⟨member, hmember, rfl⟩ := List.mem_map.mp hname
      -- a name stands for one field only
      have hsame := List.inj_on_of_nodup_map hnodup hfield (mem_present.mp hmember) rfl
      cases congrArg Prod.snd hsame

end Present

/-! ## Members that are left over -/

/-- The members that a decoder of the fields `known` can leave over: different names, none of
them that of a field, and values that are merged already. -/
structure Remainder (known : List String) (others : Entries Json) : Prop where
  nodup : (Entries.names others).Nodup
  unknown : ∀ other ∈ others, other.1 ∉ known
  merged : ∀ other ∈ others, other.2.merged = other.2

theorem Remainder.nil (known : List String) : Remainder known [] :=
  ⟨List.nodup_nil, List.forall_mem_nil _, List.forall_mem_nil _⟩

namespace Fields

variable {known : List String} {members : List (String × Json)} {fields : Fields}

theorem ofMembers?_eq_some_iff : ofMembers? known members = some fields ↔
    (Entries.names fields.named).Nodup ∧
      fields.named = members.filter (fun member => known.contains member.1) ∧
      fields.others = Entries.collect
        (mergedMembers (members.filter fun member => !known.contains member.1)) := by
  obtain ⟨named, others⟩ := fields
  simp only [ofMembers?, Option.ite_none_right_eq_some, Option.some.injEq, Fields.mk.injEq]
  constructor
  · rintro ⟨hnodup, rfl, rfl⟩
    exact ⟨hnodup, rfl, rfl⟩
  · rintro ⟨hnodup, rfl, rfl⟩
    exact ⟨hnodup, rfl, rfl⟩

theorem exists_of_ofObject? {value : Json} (h : ofObject? known value = some fields) :
    ∃ members, value = .object members ∧ ofMembers? known members = some fields := by
  unfold ofObject? at h
  split at h
  · exact ⟨_, rfl, h⟩
  · cases h

theorem remainder_of_ofMembers? (h : ofMembers? known members = some fields) :
    Remainder known fields.others := by
  obtain ⟨-, -, hothers⟩ := ofMembers?_eq_some_iff.mp h
  rw [hothers]
  have hmem {other : String × Json} (hother : other ∈ Entries.collect
      (mergedMembers (members.filter fun member => !known.contains member.1))) :=
    Entries.mem_of_mem_collect hother
  refine ⟨Entries.nodup_names_collect _, fun other hother => ?_, fun other hother =>
    merged_of_mem_mergedMembers _ other (hmem hother)⟩
  -- merging keeps the names, so the name is one of those that were left over
  have hname := List.mem_map_of_mem (f := Prod.fst) (hmem hother)
  rw [← Entries.names, names_mergedMembers] at hname
  obtain ⟨member, hmember, hsame⟩ := List.mem_map.mp hname
  simpa [hsame] using (List.mem_filter.mp hmember).2

end Fields

/-- The fields and the members left over are told apart again. -/
theorem Remainder.ofMembers?_append {known : List String} {named others : Entries Json}
    (h : Remainder known others) (hknown : ∀ member ∈ named, member.1 ∈ known)
    (hnodup : (Entries.names named).Nodup) :
    Fields.ofMembers? known (named ++ others) = some ⟨named, others⟩ := by
  have hnamed : (named ++ others).filter (fun member => known.contains member.1) = named := by
    rw [List.filter_append, List.filter_eq_self.mpr fun member hmember => by
        simpa using hknown member hmember,
      List.filter_eq_nil_iff.mpr fun other hother => by simpa using h.unknown other hother,
      List.append_nil]
  have hothers : (named ++ others).filter (fun member => !known.contains member.1) = others := by
    rw [List.filter_append, List.filter_eq_nil_iff.mpr fun member hmember => by
        simpa using hknown member hmember,
      List.filter_eq_self.mpr fun other hother => by simpa using h.unknown other hother,
      List.nil_append]
  rw [Fields.ofMembers?_eq_some_iff, hnamed, hothers, mergedMembers_eq_self h.merged,
    Entries.collect_eq_self h.nodup]
  exact ⟨hnodup, rfl, rfl⟩

/-- The written fields and the members left over have different names. -/
theorem Remainder.nodup_names_append {known : List String} {others : Entries Json}
    (h : Remainder known others) (hknown : known.Nodup) {fields : List (String × Option Json)}
    (hfields : fields.map Prod.fst = known) :
    (Entries.names (present fields ++ others)).Nodup := by
  have hnames := names_present_sublist fields
  rw [hfields] at hnames
  rw [Entries.names_append]
  refine (hnames.nodup hknown).append h.nodup fun name hfield hother => ?_
  obtain ⟨other, hmember, rfl⟩ := List.mem_map.mp hother
  exact h.unknown other hmember (hnames.subset hfield)

theorem Remainder.ofMembers?_present {known : List String} {others : Entries Json}
    (h : Remainder known others) (hknown : known.Nodup) {fields : List (String × Option Json)}
    (hfields : fields.map Prod.fst = known) :
    Fields.ofMembers? known (present fields ++ others) = some ⟨present fields, others⟩ := by
  subst hfields
  exact h.ofMembers?_append
    (fun _ hmember => (names_present_sublist fields).subset (List.mem_map_of_mem hmember))
    ((names_present_sublist fields).nodup hknown)

/-! ## Arrays -/

section Arrays

variable {α : Type} {read? : Json → Option α}

theorem list?_map {write : α → Json} {values : List α}
    (h : ∀ value ∈ values, read? (write value) = some value) :
    list? read? (.array (values.map write)) = some values := by
  change (values.map write).mapM read? = some values
  induction values with
  | nil => rfl
  | cons value rest ih =>
      rw [List.forall_mem_cons] at h
      rw [List.map_cons, List.mapM_cons, h.1, ih h.2]
      rfl

/-- Each element of an array has been read as the value in its place. -/
theorem forall₂_of_list? {value : Json} {values : List α} (h : list? read? value = some values) :
    ∃ elements, value = .array elements ∧
      List.Forall₂ (fun element value => read? element = some value) elements values := by
  obtain ⟨elements, helements, hread⟩ := Option.bind_eq_some_iff.mp h
  unfold elements? at helements
  split at helements
  · obtain rfl := Option.some.inj helements
    refine ⟨_, rfl, ?_⟩
    clear h helements
    rename_i elements
    induction elements generalizing values with
    | nil =>
        obtain rfl := Option.some.inj hread
        exact .nil
    | cons element rest ih =>
        rw [List.mapM_cons] at hread
        obtain ⟨first, hfirst, hread⟩ := Option.bind_eq_some_iff.mp hread
        obtain ⟨others, hothers, hread⟩ := Option.bind_eq_some_iff.mp hread
        obtain rfl := Option.some.inj hread
        exact .cons hfirst (ih hothers)
  · cases helements

theorem exists_of_forall₂_of_mem {β γ : Type} {R : β → γ → Prop} {first : List β}
    {second : List γ} (h : List.Forall₂ R first second) {c : γ} (hc : c ∈ second) :
    ∃ b ∈ first, R b c := by
  induction h with
  | nil => cases hc
  | cons hfirst _ ih =>
      rcases List.mem_cons.mp hc with rfl | hc
      · exact ⟨_, List.mem_cons_self, hfirst⟩
      · obtain ⟨b, hb, hR⟩ := ih hc
        exact ⟨b, List.mem_cons_of_mem _ hb, hR⟩

theorem forall_mem_of_list? {P : α → Prop} (hread : ∀ value content, read? value = some content →
    P content) {value : Json} {values : List α} (h : list? read? value = some values) :
    ∀ content ∈ values, P content := by
  intro content hcontent
  obtain ⟨elements, -, helements⟩ := forall₂_of_list? h
  obtain ⟨element, -, helement⟩ := exists_of_forall₂_of_mem helements hcontent
  exact hread element content helement

end Arrays

/-! ## Fields of each kind -/

namespace Fields

variable {α : Type} {fields : Fields} {name : String} {read? : Json → Option α}

theorem required?_eq_some_iff {value : α} : fields.required? name read? = some value ↔
    ∃ given, fields.named.lookup name = some given ∧ read? given = some value :=
  Option.bind_eq_some_iff

theorem optional?_eq_some_none_iff : fields.optional? name read? = some none ↔
    fields.named.lookup name = none ∨ fields.named.lookup name = some .null := by
  unfold optional?
  generalize fields.named.lookup name = given
  split <;> simp_all

theorem optional?_eq_some_some_iff {value : α} : fields.optional? name read? = some (some value) ↔
    ∃ given, fields.named.lookup name = some given ∧ given ≠ .null ∧ read? given = some value := by
  unfold optional?
  generalize fields.named.lookup name = given
  split <;> simp_all

theorem defaulted?_eq_some_iff {default value : α} :
    fields.defaulted? name default read? = some value ↔
      fields.named.lookup name = none ∧ value = default ∨
        ∃ given, fields.named.lookup name = some given ∧ read? given = some value := by
  unfold defaulted?
  generalize fields.named.lookup name = given
  cases given <;> simp [eq_comm]

theorem forall_of_optional? {P : α → Prop} (hread : ∀ value content, read? value = some content →
    P content) {value : Option α} (h : fields.optional? name read? = some value) :
    ∀ content ∈ value, P content := by
  rintro content rfl
  obtain ⟨given, -, -, hgiven⟩ := optional?_eq_some_some_iff.mp h
  exact hread given content hgiven

theorem forall_of_optional?_list {P : α → Prop} (hread : ∀ value content,
    read? value = some content → P content) {value : Option (List α)}
    (h : fields.optional? name (list? read?) = some value) :
    ∀ listed ∈ value, ∀ content ∈ listed, P content :=
  forall_of_optional? (fun _ _ hlisted => forall_mem_of_list? hread hlisted) h

/-! A field is read back from the value it was written as. -/

variable {named others : Entries Json} {write : α → Json}

theorem optional?_of_lookup {value : Option α} (hlookup : named.lookup name = value.map write)
    (h : ∀ content ∈ value, write content ≠ .null ∧ read? (write content) = some content) :
    optional? ⟨named, others⟩ name read? = some value := by
  cases value with
  | none => exact optional?_eq_some_none_iff.mpr (Or.inl hlookup)
  | some content =>
      obtain ⟨hnull, hread⟩ := h content rfl
      exact optional?_eq_some_some_iff.mpr ⟨_, hlookup, hnull, hread⟩

theorem optional?_of_lookup_string {value : Option String}
    (hlookup : named.lookup name = value.map .string) :
    optional? ⟨named, others⟩ name string? = some value :=
  optional?_of_lookup hlookup fun _ _ => ⟨by simp, rfl⟩

theorem optional?_of_lookup_list {value : Option (List α)}
    (hlookup : named.lookup name = value.map fun listed => .array (listed.map write))
    (h : ∀ listed ∈ value, ∀ content ∈ listed, read? (write content) = some content) :
    optional? ⟨named, others⟩ name (list? read?) = some value :=
  optional?_of_lookup hlookup fun listed hlisted => ⟨by simp, list?_map (h listed hlisted)⟩

theorem defaulted?_of_lookup {values : List α}
    (hlookup : named.lookup name = listValue write values)
    (h : ∀ value ∈ values, read? (write value) = some value) :
    defaulted? ⟨named, others⟩ name [] (list? read?) = some values := by
  rw [listValue] at hlookup
  split at hlookup
  · rename_i hempty
    exact defaulted?_eq_some_iff.mpr (Or.inl ⟨hlookup, List.isEmpty_iff.mp hempty⟩)
  · exact defaulted?_eq_some_iff.mpr (Or.inr ⟨_, hlookup, list?_map h⟩)

end Fields

end ArchDiagram.Json

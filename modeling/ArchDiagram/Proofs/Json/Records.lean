/-
# Records read back from their JSON forms

A value without numbers and without repeated names is read as it stands (`Json.Steady`), and
a reference is written as such a value. A table is read back if every value in it is. A
property that is a text or a whole number of 64 bits is read back; a real number may be read
as another one, but not if it has few digits (`Property.portable_of_exact`), and infinity is
never read back.
-/

import ArchDiagram.Property
import ArchDiagram.Proofs.Json.Canonical
import ArchDiagram.Proofs.Json.Texts

namespace ArchDiagram

namespace Json

/-! ## Values read as they stand -/

/-- A value that is read as it stands, with no repeated names to be merged. -/
structure Steady (value : Json) : Prop where
  reread : value.reread? = some value
  merged : value.merged = value

theorem steady_string (value : String) : Steady (.string value) := ⟨rfl, rfl⟩

theorem steady_array {elements : List Json} (h : ∀ element ∈ elements, element.Steady) :
    Steady (.array elements) := by
  -- reading and merging go through the elements alike
  have hboth : rereadElements? elements = some elements ∧ mergedElements elements = elements := by
    induction elements with
    | nil => exact ⟨rfl, rfl⟩
    | cons element rest ih =>
        rw [List.forall_mem_cons] at h
        obtain ⟨hreread, hmerged⟩ := ih h.2
        simp [rereadElements?, mergedElements, h.1.reread, h.1.merged, hreread, hmerged]
  exact ⟨by rw [reread?, hboth.1, Option.map_some], by rw [Json.merged, hboth.2]⟩

theorem steady_object {members : List (String × Json)} (hnodup : (Entries.names members).Nodup)
    (h : ∀ member ∈ members, member.2.Steady) : Steady (.object members) := by
  have hreread : rereadMembers? members = some members := by
    clear hnodup
    induction members with
    | nil => rfl
    | cons member rest ih =>
        rw [List.forall_mem_cons] at h
        simp [rereadMembers?, h.1.reread, ih h.2]
  have hmerged : mergedMembers members = members :=
    mergedMembers_eq_self fun member hmember => (h member hmember).merged
  exact ⟨by rw [reread?, hreread, Option.map_some],
    by rw [Json.merged, hmerged, Entries.collect_eq_self hnodup]⟩

/-! ## Tables -/

theorem names_rereadMembers? {members read : List (String × Json)}
    (h : rereadMembers? members = some read) : Entries.names read = Entries.names members := by
  induction members generalizing read with
  | nil =>
      obtain rfl := Option.some.inj h
      rfl
  | cons member rest ih =>
      obtain ⟨first, -, h⟩ := Option.bind_eq_some_iff.mp h
      obtain ⟨others, hothers, rfl⟩ := Option.map_eq_some_iff.mp h
      exact congrArg (member.1 :: ·) (ih hothers)

/-- Without repeated names nothing is merged but inside the members. -/
theorem merged_object {members : List (String × Json)} (h : (Entries.names members).Nodup) :
    merged (.object members) = .object (mergedMembers members) := by
  rw [merged, Entries.collect_eq_self (by rwa [names_mergedMembers])]

section Tables

variable {α : Type} {readValue? : Json → Option α}

/-- The values of some members under their names. -/
def pairs? (readValue? : Json → Option α) (members : List (String × Json)) :
    Option (List (String × α)) :=
  members.mapM fun member => (readValue? member.2).map (Prod.mk member.1)

theorem pairs?_cons (member : String × Json) (rest : List (String × Json)) :
    pairs? readValue? (member :: rest) =
      (readValue? member.2).bind fun value =>
        (pairs? readValue? rest).map ((member.1, value) :: ·) := by
  rw [pairs?, List.mapM_cons]
  cases readValue? member.2 with
  | none => rfl
  | some value =>
      change (pairs? readValue? rest).bind _ = _
      cases pairs? readValue? rest <;> rfl

theorem names_pairs? {members : List (String × Json)} {pairs : List (String × α)}
    (h : pairs? readValue? members = some pairs) :
    Entries.names pairs = Entries.names members := by
  induction members generalizing pairs with
  | nil =>
      obtain rfl := Option.some.inj h
      rfl
  | cons member rest ih =>
      rw [pairs?_cons] at h
      obtain ⟨value, -, h⟩ := Option.bind_eq_some_iff.mp h
      obtain ⟨others, hothers, rfl⟩ := Option.map_eq_some_iff.mp h
      exact congrArg (member.1 :: ·) (ih hothers)

theorem pairs?_map {write : α → Json} {entries : Entries α}
    (h : ∀ entry ∈ entries, readValue? (write entry.2) = some entry.2) :
    pairs? readValue? (entries.map fun entry => (entry.1, write entry.2)) = some entries := by
  induction entries with
  | nil => rfl
  | cons entry rest ih =>
      rw [List.forall_mem_cons] at h
      rw [List.map_cons, pairs?_cons, h.1, Option.bind_some, ih h.2, Option.map_some]

theorem exists_of_mem_pairs? {members : List (String × Json)} {pairs : List (String × α)}
    (h : pairs? readValue? members = some pairs) {entry : String × α} (hentry : entry ∈ pairs) :
    ∃ member ∈ members, readValue? member.2 = some entry.2 := by
  induction members generalizing pairs with
  | nil =>
      obtain rfl := Option.some.inj h
      exact nomatch hentry
  | cons member rest ih =>
      rw [pairs?_cons] at h
      obtain ⟨value, hvalue, h⟩ := Option.bind_eq_some_iff.mp h
      obtain ⟨others, hothers, rfl⟩ := Option.map_eq_some_iff.mp h
      rcases List.mem_cons.mp hentry with rfl | hentry
      · exact ⟨member, List.mem_cons_self, hvalue⟩
      · obtain ⟨source, hsource, hread⟩ := ih hothers hentry
        exact ⟨source, List.mem_cons_of_mem _ hsource, hread⟩

/-- Without repeated names a table is its pairs. -/
theorem table?_object {members : List (String × Json)} (h : (Entries.names members).Nodup) :
    table? readValue? (.object members) = pairs? readValue? members := by
  change (pairs? readValue? members).map Entries.collect = _
  cases hpairs : pairs? readValue? members with
  | none => rfl
  | some pairs =>
      rw [Option.map_some, Entries.collect_eq_self]
      rwa [names_pairs? hpairs]

theorem forall_mem_of_table? {P : α → Prop} (hread : ∀ value content,
    readValue? value = some content → P content) {value : Json} {entries : Entries α}
    (h : table? readValue? value = some entries) : ∀ entry ∈ entries, P entry.2 := by
  intro entry hentry
  cases value with
  | object members =>
      obtain ⟨pairs, hpairs, rfl⟩ := Option.map_eq_some_iff.mp h
      obtain ⟨member, -, hmember⟩ := exists_of_mem_pairs? hpairs (Entries.mem_of_mem_collect hentry)
      exact hread member.2 entry.2 hmember
  | null => exact nomatch h
  | bool _ => exact nomatch h
  | integer _ => exact nomatch h
  | real _ => exact nomatch h
  | string _ => exact nomatch h
  | array _ => exact nomatch h

/-- Entries under different names are read back if each value is. -/
theorem bind_table?_eq_some_iff (write : α → Json) (readValue? : Json → Option α)
    {entries : Entries α} (hnodup : entries.names.Nodup) :
    ((reread? (.object (entries.map fun entry => (entry.1, write entry.2)))).bind
        (table? readValue?) = some entries) ↔
      ∀ entry ∈ entries, (write entry.2).reread?.bind readValue? = some entry.2 := by
  have htable : (reread? (.object (entries.map fun entry => (entry.1, write entry.2)))).bind
        (table? readValue?) =
      (rereadMembers? (entries.map fun entry => (entry.1, write entry.2))).bind
        (pairs? readValue?) := by
    rw [reread?]
    cases hread : rereadMembers? (entries.map fun entry => (entry.1, write entry.2)) with
    | none => rfl
    | some read =>
        refine table?_object ?_
        rw [names_rereadMembers? hread, Entries.names, List.map_map]
        exact hnodup
  rw [htable]
  clear htable hnodup
  induction entries with
  | nil => exact ⟨fun _ => List.forall_mem_nil _, fun _ => rfl⟩
  | cons entry rest ih =>
      rw [List.map_cons, rereadMembers?, List.forall_mem_cons]
      refine Iff.trans ?_ (and_congr Iff.rfl ih)
      cases (write entry.2).reread? with
      | none => simp
      | some value =>
          cases rereadMembers? (rest.map fun entry => (entry.1, write entry.2)) with
          | none => simp
          | some others =>
              -- the first value and the others are read on their own
              simp only [Option.bind_some, Option.map_some, pairs?_cons]
              cases readValue? value <;> cases pairs? readValue? others <;>
                simp [Prod.ext_iff]

end Tables

end Json

/-! ## References -/

namespace Reference

/-- A reference whose further members have different names, none of them the name of a
field, and are texts. -/
structure Orderly (reference : Reference) : Prop where
  nodup : (Entries.names reference.others).Nodup
  no_field : ∀ other ∈ reference.others, other.1 ∉ fieldNames
  text : ∀ other ∈ reference.others, ∃ value, other.2 = .string value

variable {reference : Reference}

theorem Orderly.steady_others (h : reference.Orderly) {other : String × Json}
    (hother : other ∈ reference.others) : other.2.Steady := by
  obtain ⟨value, hvalue⟩ := h.text other hother
  rw [hvalue]
  exact Json.steady_string value

theorem Orderly.canonical (h : reference.Orderly) : reference.Canonical :=
  ⟨h.nodup, h.no_field, fun _ hother => (h.steady_others hother).merged⟩

theorem steady_written (reference : Reference) :
    ∀ field ∈ reference.written, ∀ value ∈ field.2, value.Steady := by
  have hauthors : Json.Steady (.array (reference.authors.map .string)) := by
    refine Json.steady_array fun element helement => ?_
    obtain ⟨author, -, rfl⟩ := List.mem_map.mp helement
    exact Json.steady_string author
  have hoptional (text : Option String) : ∀ value ∈ text.map Json.string, value.Steady := by
    rintro value hvalue
    obtain ⟨found, -, rfl⟩ := Option.map_eq_some_iff.mp hvalue
    exact Json.steady_string found
  simp only [written, List.forall_mem_cons]
  refine ⟨?_, hoptional _, hoptional _, ?_, hoptional _, List.forall_mem_nil _⟩
  · rintro value ⟨⟩
    exact Json.steady_string reference.title
  · intro value hvalue
    rw [Json.listValue] at hvalue
    split at hvalue
    · cases hvalue
    · obtain rfl := Option.some.inj hvalue
      exact hauthors

theorem Orderly.steady (h : reference.Orderly) : reference.toJson.Steady := by
  rw [toJson_eq_present]
  refine Json.steady_object (h.canonical.nodup_names_append (by decide) rfl) ?_
  rw [List.forall_mem_append]
  exact ⟨fun member hmember => reference.steady_written _ (Json.mem_present.mp hmember) _ rfl,
    fun other hother => h.steady_others hother⟩

/-- A reference is read back from its JSON form. -/
theorem Orderly.ofJson?_toJson (h : reference.Orderly) :
    ofJson? reference.toJson = some reference :=
  h.canonical.ofJson?_toJson

end Reference

/-! ## Properties -/

namespace Property

/-- A property whose whole number fits 64 bits. -/
def Orderly : Property → Prop
  | .integer value => fits value = true
  | .real _ | .text _ => True

/-- A property that is read back from its JSON text, which excludes infinity and the real
numbers that are rounded differently when they are read. -/
def Portable : Property → Prop
  | .real value => Json.read? .whole (Json.realText value) = some (.real value)
  | .integer _ | .text _ => True

instance : (property : Property) → Decidable property.Portable
  | .real value =>
      inferInstanceAs (Decidable (Json.read? .whole (Json.realText value) = some (.real value)))
  | .integer _ | .text _ => isTrue trivial

/-- A number of few digits and few places behind the point is among them. -/
theorem portable_of_exact {x : Binary64} (hfinite : x.isInfinite = false)
    (h : (Json.Numeral.ofReal x).Exact) : (Property.real x).Portable :=
  Json.reread?_real_of_exact hfinite h

theorem bind_ofJson?_eq_some_iff {property : Property} (h : property.Orderly) :
    property.toJson.reread?.bind ofJson? = some property ↔ property.Portable := by
  cases property with
  | integer value =>
      have hfits : fits value = true := h
      simp [toJson, Json.reread?_integer hfits, ofJson?, hfits, Portable]
  | text value => simp [toJson, Json.reread?, ofJson?, Portable]
  | real x =>
      have hreread : Json.read? .whole (Json.realText x) = Json.reread? (.real x) := rfl
      rw [toJson, Portable, hreread]
      cases hinfinite : x.isInfinite with
      | true =>
          -- `null` is written and read for infinity, and `null` is no property
          rw [if_pos rfl, Json.reread?_of_isInfinite hinfinite]
          simp [Json.reread?, ofJson?]
      | false =>
          rw [if_neg Bool.false_ne_true]
          cases hvalue : Json.reread? (.real x) with
          | none => simp
          | some value =>
              obtain ⟨y, rfl⟩ := Json.exists_real_of_reread? hinfinite hvalue
              simp [ofJson?]

theorem ofJson?_merged (value : Json) : ofJson? value.merged = ofJson? value := by
  cases value <;> rfl

theorem pairs?_mergedMembers (members : List (String × Json)) :
    Json.pairs? ofJson? (Json.mergedMembers members) = Json.pairs? ofJson? members := by
  induction members with
  | nil => rfl
  | cons member rest ih => rw [Json.mergedMembers, Json.pairs?_cons, ih, ofJson?_merged,
      Json.pairs?_cons]

/-- Properties hold no members to be merged. -/
theorem tableOfJson?_merged {members : List (String × Json)}
    (h : (Entries.names members).Nodup) :
    tableOfJson? (Json.merged (.object members)) = tableOfJson? (.object members) := by
  rw [Json.merged_object h, tableOfJson?, tableOfJson?, Json.table?_object h,
    Json.table?_object (by rwa [Json.names_mergedMembers]), pairs?_mergedMembers]

end Property

end ArchDiagram

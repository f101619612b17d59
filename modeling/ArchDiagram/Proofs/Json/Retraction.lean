/-
# Architectures written and read again

An architecture that was read from a JSON value is read back from the value it is written as,
with everything in the same order (`Architecture.ofJson_toJson_of_ofJson`). The shape of an
entry may change on the way: an empty section takes the place of `null`, a pair that of a
longer or a shorter array, an object that of an array of fields. What it is read as does not
change.

A whole number that does not fit 64 bits with a sign is rounded when it is read. So the numbers
of the value have to be such as a JSON text can hold (`Json.InRange`), lest the rounded number
be infinite, for which there is no JSON number.
-/

import ArchDiagram.Architecture
import ArchDiagram.Proofs.Document.Rows
import ArchDiagram.Proofs.Json.Canonical
import ArchDiagram.Proofs.Json.Overrides
import ArchDiagram.Proofs.Json.Ranges

namespace ArchDiagram

open Document (exists_of_map_eq_ok)
open Json (Fields present listValue)

/-! ## Settings -/

namespace Setting

variable {value : Json} {setting : Setting}

theorem Kind.ofJson?_string_name (kind : Kind) : ofJson? (.string kind.name) = some kind := by
  cases kind <;> rfl

theorem ofJson?_eq_some_iff : ofJson? value = some setting ↔
    ∃ fields, Fields.ofRecord? fieldNames value = some fields ∧
      fields.required? "id" Json.string? = some setting.id ∧
      fields.defaulted? "label" "" Json.string? = some setting.label ∧
      fields.optional? "property" Json.string? = some setting.property ∧
      fields.optional? "type" Kind.ofJson? = some setting.kind ∧
      fields.defaulted? "options" [] (Json.list? Json.string?) = some setting.options ∧
      fields.optional? "defaultValue" Json.bool? = some setting.defaultValue ∧
      fields.optional? "noRedraw" Json.bool? = some setting.noRedraw := by
  obtain ⟨id, label, property, kind, options, defaultValue, noRedraw⟩ := setting
  simp only [ofJson?, Option.bind_eq_bind, Option.bind_eq_some_iff, Option.pure_def,
    Option.some.injEq, Setting.mk.injEq]
  constructor
  · rintro ⟨fields, hfields, _, hid, _, hlabel, _, hproperty, _, hkind, _, hoptions, _,
      hdefaultValue, _, hnoRedraw, rfl, rfl, rfl, rfl, rfl, rfl, rfl⟩
    exact ⟨fields, hfields, hid, hlabel, hproperty, hkind, hoptions, hdefaultValue, hnoRedraw⟩
  · rintro ⟨fields, hfields, hid, hlabel, hproperty, hkind, hoptions, hdefaultValue, hnoRedraw⟩
    exact ⟨fields, hfields, _, hid, _, hlabel, _, hproperty, _, hkind, _, hoptions, _,
      hdefaultValue, _, hnoRedraw, rfl, rfl, rfl, rfl, rfl, rfl, rfl⟩

/-- The fields of a setting as they are written. -/
def written (setting : Setting) : List (String × Option Json) :=
  [("id", some (.string setting.id)), ("label", some (.string setting.label)),
    ("property", setting.property.map .string),
    ("type", setting.kind.map fun kind => .string kind.name),
    ("options", listValue .string setting.options),
    ("defaultValue", setting.defaultValue.map .bool), ("noRedraw", setting.noRedraw.map .bool)]

theorem toJson_eq_present (setting : Setting) :
    setting.toJson = .object (present setting.written ++ []) := by
  simp [toJson, written, Json.present_cons_some, Json.present_cons_map,
    Json.present_cons_listValue, Json.present_nil]

/-- Every setting is read back from its JSON form. -/
theorem ofJson?_toJson (setting : Setting) : ofJson? setting.toJson = some setting := by
  have hlookup := Json.forall_lookup_present (show (setting.written.map Prod.fst).Nodup from
    (by decide : fieldNames.Nodup))
  simp only [written, List.forall_mem_cons] at hlookup
  obtain ⟨hid, hlabel, hproperty, hkind, hoptions, hdefaultValue, hnoRedraw, -⟩ := hlookup
  rw [toJson_eq_present, ofJson?_eq_some_iff]
  exact ⟨_, (Json.Remainder.nil fieldNames).ofMembers?_present (by decide) rfl,
    Fields.required?_eq_some_iff.mpr ⟨_, hid, rfl⟩,
    Fields.defaulted?_eq_some_iff.mpr (Or.inr ⟨_, hlabel, rfl⟩),
    Fields.optional?_of_lookup_string hproperty,
    Fields.optional?_of_lookup hkind fun kind _ => ⟨by simp, kind.ofJson?_string_name⟩,
    Fields.defaulted?_of_lookup hoptions fun _ _ => rfl,
    Fields.optional?_of_lookup hdefaultValue fun _ _ => ⟨by simp, rfl⟩,
    Fields.optional?_of_lookup hnoRedraw fun _ _ => ⟨by simp, rfl⟩⟩

end Setting

/-! ## Properties -/

namespace Property

variable {value : Json} {property : Property}

/-- A number in range is read as a property that has a JSON form, and that is read back. -/
theorem ofJson?_toJson_of_ofJson? (hrange : value.InRange) (h : ofJson? value = some property) :
    ofJson? property.toJson = some property := by
  have hreal {x : Binary64} (hfinite : x.isInfinite = false) :
      ofJson? (toJson (.real x)) = some (.real x) := by
    rw [toJson, hfinite]
    rfl
  cases value with
  | integer n =>
      obtain rfl := Option.some.inj h
      split
      · rename_i hfits
        rw [toJson, ofJson?, if_pos hfits]
      -- the whole number is rounded, and not to infinity
      · obtain ⟨hlow, hhigh⟩ := hrange
        exact hreal (Binary64.isInfinite_ofRatio_one _ (by omega))
  | real x =>
      obtain rfl := Option.some.inj h
      exact hreal hrange
  | string text =>
      obtain rfl := Option.some.inj h
      rfl
  | null => cases h
  | bool _ => cases h
  | array _ => cases h
  | object _ => cases h

variable {properties : Entries Property}

theorem tableOfJson?_tableToJson_of_tableOfJson? (hrange : value.InRange)
    (h : tableOfJson? value = some properties) :
    tableOfJson? (tableToJson properties) = some properties := by
  cases value with
  | object members =>
      obtain ⟨pairs, hpairs, rfl⟩ := Option.map_eq_some_iff.mp h
      have hnames : (Entries.names ((Entries.collect pairs).map fun entry =>
          (entry.1, entry.2.toJson))).Nodup := by
        rw [Entries.names, List.map_map]
        exact Entries.nodup_names_collect pairs
      rw [tableToJson, tableOfJson?, Json.table?_object hnames]
      refine Json.pairs?_map fun entry hentry => ?_
      obtain ⟨member, hmember, hread⟩ :=
        Json.exists_of_mem_pairs? hpairs (Entries.mem_of_mem_collect hentry)
      exact ofJson?_toJson_of_ofJson? (Json.inRangeMembers_iff.mp hrange member hmember) hread
  | null => cases h
  | bool _ => cases h
  | integer _ => cases h
  | real _ => cases h
  | string _ => cases h
  | array _ => cases h

end Property

/-! ## Entries -/

namespace Override

/-- What an entry was read from. Under the name of a section it is a section; under another
name the value decides. -/
inductive ReadFrom : String → Json → Override → Prop
  | references {value listed}
      (h : sectionOfJson "references" [] (Json.list? Reference.ofJson?) value = .ok listed) :
      ReadFrom "references" value (.references listed)
  | properties {value listed}
      (h : sectionOfJson "properties" [] Property.tableOfJson? value = .ok listed) :
      ReadFrom "properties" value (.properties listed)
  | settings {value listed}
      (h : sectionOfJson "settings" [] (Json.list? Setting.ofJson?) value = .ok listed) :
      ReadFrom "settings" value (.settings listed)
  | default {key} (hkey : key ∉ sectionNames) : ReadFrom key .null .default
  | nested {key members children} (hkey : key ∉ sectionNames)
      (h : entriesOfJson members = .ok children) : ReadFrom key (.object members) (.nested children)
  | single {key replacement} (hkey : key ∉ sectionNames) :
      ReadFrom key (.array [.string replacement]) (.swap replacement none)
  | swapNone {key replacement surplus} (hkey : key ∉ sectionNames) :
      ReadFrom key (.array (.string replacement :: .null :: surplus)) (.swap replacement none)
  | swapSome {key replacement members surplus overrides} (hkey : key ∉ sectionNames)
      (h : entriesOfJson members = .ok overrides) :
      ReadFrom key (.array (.string replacement :: .object members :: surplus))
        (.swap replacement (some overrides))

variable {key : String} {value : Json} {entry : Override}

theorem readFrom_of_ofJson (h : ofJson key value = .ok entry) : ReadFrom key value entry := by
  rw [ofJson.eq_def] at h
  split at h
  · rename_i hkey
    subst hkey
    obtain ⟨listed, hlisted, rfl⟩ := exists_of_map_eq_ok h
    exact .references hlisted
  split at h
  · rename_i hkey
    subst hkey
    obtain ⟨listed, hlisted, rfl⟩ := exists_of_map_eq_ok h
    exact .properties hlisted
  split at h
  · rename_i hkey
    subst hkey
    obtain ⟨listed, hlisted, rfl⟩ := exists_of_map_eq_ok h
    exact .settings hlisted
  rename_i hreferences hproperties hsettings
  have hkey : key ∉ sectionNames := by simp [sectionNames, hreferences, hproperties, hsettings]
  split at h
  · obtain rfl := Except.ok.inj h
    exact .default hkey
  · obtain ⟨children, hchildren, rfl⟩ := exists_of_map_eq_ok h
    exact .nested hkey hchildren
  · obtain ⟨overrides, hoverrides, rfl⟩ := exists_of_map_eq_ok h
    exact .swapSome hkey hoverrides
  · obtain rfl := Except.ok.inj h
    exact .swapNone hkey
  · obtain rfl := Except.ok.inj h
    exact .single hkey
  all_goals cases h

/-! Sections. -/

variable {α : Type} {empty content : α} {read? : Json → Option α}

theorem cases_of_sectionOfJson (h : sectionOfJson key empty read? value = .ok content) :
    content = empty ∨ read? value = some content := by
  unfold sectionOfJson at h
  split at h
  · exact Or.inl (Except.ok.inj h).symm
  · split at h
    · rename_i found hfound
      obtain rfl := Except.ok.inj h
      exact Or.inr hfound
    · cases h

theorem sectionOfJson_eq_ok (hnull : value ≠ .null) (h : read? value = some content) :
    sectionOfJson key empty read? value = .ok content := by
  unfold sectionOfJson
  split
  · exact absurd rfl hnull
  · rw [h]

/-- A list of which every member is read back is read back as a section. -/
theorem sectionOfJson_array {readValue? : Json → Option α} {write : α → Json} {listed : List α}
    (h : ∀ content ∈ listed, readValue? (write content) = some content) :
    sectionOfJson key [] (Json.list? readValue?) (.array (listed.map write)) = .ok listed :=
  sectionOfJson_eq_ok (by simp) (Json.list?_map h)

mutual

/-- An entry that was read is read back from what it is written as. -/
theorem ofJson_toJson_eq_ok : ∀ {entry : Override} {key : String} {value : Json},
    value.InRange → ofJson key value = .ok entry → ofJson key entry.toJson = .ok entry
  | .default, _, _, _, h => by
      cases readFrom_of_ofJson h with
      | default hkey => exact ofJson_null hkey
  | .nested children, _, _, hrange, h => by
      cases readFrom_of_ofJson h with
      | nested hkey hchildren =>
          rw [toJson, ofJson_object hkey,
            entriesOfJson_entriesToJson_of_entriesOfJson hrange hchildren]
          rfl
  | .swap _ none, _, _, _, h => by
      cases readFrom_of_ofJson h with
      -- what was a replacement alone, or had surplus elements, is written as a pair with `null`
      | single hkey | swapNone hkey => exact ofJson_pair_null hkey _
  | .swap _ (some overrides), _, _, hrange, h => by
      cases readFrom_of_ofJson h with
      | swapSome hkey hoverrides =>
          rw [toJson, ofJson_pair_object hkey,
            entriesOfJson_entriesToJson_of_entriesOfJson hrange.2.1 hoverrides]
          rfl
  | .references listed, _, _, _, h => by
      cases readFrom_of_ofJson h with
      | references hlisted =>
          have hcanonical : ∀ reference ∈ listed, reference.Canonical := by
            rcases cases_of_sectionOfJson hlisted with rfl | hread
            · exact List.forall_mem_nil _
            · exact Json.forall_mem_of_list? (fun _ _ => Reference.canonical_of_ofJson?) hread
          rw [toJson, ofJson_references, sectionOfJson_array fun reference hreference =>
            (hcanonical reference hreference).ofJson?_toJson]
          rfl
  | .properties listed, _, _, hrange, h => by
      cases readFrom_of_ofJson h with
      | properties hlisted =>
          -- a number that was read is one that can be written and read again
          have hread : Property.tableOfJson? (Property.tableToJson listed) = some listed := by
            rcases cases_of_sectionOfJson hlisted with rfl | hread
            · rfl
            · exact Property.tableOfJson?_tableToJson_of_tableOfJson? hrange hread
          have hnull : Property.tableToJson listed ≠ .null := by simp [Property.tableToJson]
          rw [toJson, ofJson_properties, sectionOfJson_eq_ok hnull hread]
          rfl
  | .settings listed, _, _, _, h => by
      cases readFrom_of_ofJson h with
      | settings =>
          rw [toJson, ofJson_settings, sectionOfJson_array fun setting _ => setting.ofJson?_toJson]
          rfl

theorem entriesOfJson_entriesToJson_of_entriesOfJson : ∀ {entries : List (String × Override)}
    {members : List (String × Json)}, Json.InRangeMembers members →
    entriesOfJson members = .ok entries → entriesOfJson (entriesToJson entries) = .ok entries
  | [], _, _, _ => rfl
  | (key, entry) :: rest, [], _, h => by cases h
  | (key, entry) :: rest, (other, value) :: members, ⟨hvalue, hmembers⟩, h => by
      rw [entriesOfJson] at h
      split at h
      · cases h
      · rename_i found hfound
        obtain ⟨others, hothers, heq⟩ := exists_of_map_eq_ok h
        obtain ⟨⟨rfl, rfl⟩, rfl⟩ := by simpa using heq
        rw [entriesToJson, entriesOfJson, ofJson_toJson_eq_ok hvalue hfound]
        simp only [entriesOfJson_entriesToJson_of_entriesOfJson hmembers hothers, Except.map]

end

end Override

/-! ## Architectures -/

namespace Architecture

/-- An architecture that was read is read back from what it is written as, in the same order. -/
theorem ofJson_toJson_of_ofJson {value : Json} {architecture : Architecture}
    (hrange : value.InRange) (h : ofJson value = .ok architecture) :
    ofJson architecture.toJson = .ok architecture := by
  unfold ofJson at h
  split at h
  · obtain ⟨entries, hentries, rfl⟩ := exists_of_map_eq_ok h
    rw [toJson, ofJson, Override.entriesOfJson_entriesToJson_of_entriesOfJson hrange hentries]
    rfl
  · cases h

/-- A pair with a surplus element, sections that are `null` and inside a block, a setting that
is an array of fields, and a whole number that does not fit. -/
def looseJson : Json :=
  .object [
    ("unit", .array [.string "box", .object [
      ("settings", .array [.array [.string "dark"]]), ("core", .array [.string "lid"])],
      .bool true]),
    ("references", .null),
    ("properties", .object [("size", .integer (2 ^ 63))])]

/-- What is read of it: the surplus element is dropped, the missing overrides are none, the
section that is `null` is empty, and the number is rounded. -/
def loose : Architecture where
  entries := [
    ("unit", .swap "box" (some [
      ("settings", .settings [⟨"dark", "", none, none, [], none, none⟩]),
      ("core", .swap "lid" none)])),
    ("references", .references []),
    ("properties", .properties [("size", .real (Binary64.ofNat (2 ^ 63)))])]

theorem ofJson_toJson_looseJson :
    looseJson.InRange ∧ ofJson looseJson = .ok loose ∧ ofJson loose.toJson = .ok loose := by
  have hrange : looseJson.InRange := by
    simp [looseJson, Json.InRange, Json.InRangeElements, Json.InRangeMembers]
  have hread : ofJson looseJson = .ok loose := rfl
  exact ⟨hrange, hread, ofJson_toJson_of_ofJson hrange hread⟩

end Architecture

end ArchDiagram

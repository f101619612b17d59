/-
# Architectures read back from their JSON forms

In JSON the name of an entry decides whether it is a section, so under the name of a section
nothing else can be read. Where sections stand under their own names, as they do in what a
document gives (`Override.Orderly`), this and the real numbers are all that matters: entries
are read back exactly if nothing but a section stands under the name of one and every real
number is read back from its text (`Override.Portable`). The text of a registry adds one
condition, because it is only read down to a certain depth
(`Registry.ofText_withArchitectures_eq_ok_iff`).
-/

import ArchDiagram.Proofs.Json.Records
import ArchDiagram.Registry

namespace ArchDiagram

namespace Override

/-- The names of the sections. -/
def sectionNames : List String := ["references", "properties", "settings"]

/-- An entry that is a section. -/
def IsSection : Override → Prop
  | .references _ | .properties _ | .settings _ => True
  | .default | .nested _ | .swap _ _ => False

mutual

/-- An entry without settings, in which other sections stand under their own names, nothing
is named twice in one place, and whole numbers have 64 bits. -/
def Orderly (key : String) : Override → Prop
  | .default | .swap _ none => True
  | .nested children => OrderlyBlock children
  | .swap _ (some overrides) => OrderlyBlock overrides
  | .references listed => key = "references" ∧ ∀ reference ∈ listed, reference.Orderly
  | .properties listed =>
      key = "properties" ∧ (Entries.names listed).Nodup ∧ ∀ entry ∈ listed, entry.2.Orderly
  | .settings _ => False

/-- Entries under different names, each of which is orderly. -/
def OrderlyBlock : List (String × Override) → Prop
  | [] => True
  | (key, entry) :: rest => key ∉ Entries.names rest ∧ entry.Orderly key ∧ OrderlyBlock rest

end

theorem OrderlyBlock.nodup {entries : List (String × Override)} (h : OrderlyBlock entries) :
    (Entries.names entries).Nodup := by
  induction entries with
  | nil => exact List.nodup_nil
  | cons entry rest ih =>
      obtain ⟨key, entry⟩ := entry
      exact List.nodup_cons.mpr ⟨h.1, ih h.2.2⟩

mutual

/-- An entry in which nothing but a section stands under the name of one, at any depth, and
all properties are read back. -/
def Portable (key : String) : Override → Prop
  | .default | .swap _ none => key ∉ sectionNames
  | .nested children => key ∉ sectionNames ∧ PortableBlock children
  | .swap _ (some overrides) => key ∉ sectionNames ∧ PortableBlock overrides
  | .properties listed => ∀ entry ∈ listed, entry.2.Portable
  | .references _ | .settings _ => True

/-- Entries each of which is portable. -/
def PortableBlock : List (String × Override) → Prop
  | [] => True
  | (key, entry) :: rest => entry.Portable key ∧ PortableBlock rest

end

mutual

/-- Whether an entry is portable is decidable. -/
def decPortable (key : String) : (entry : Override) → Decidable (entry.Portable key)
  | .default | .swap _ none => inferInstanceAs (Decidable (key ∉ sectionNames))
  | .nested children =>
      have := decPortableBlock children
      inferInstanceAs (Decidable (key ∉ sectionNames ∧ PortableBlock children))
  | .swap _ (some overrides) =>
      have := decPortableBlock overrides
      inferInstanceAs (Decidable (key ∉ sectionNames ∧ PortableBlock overrides))
  | .properties listed => inferInstanceAs (Decidable (∀ entry ∈ listed, entry.2.Portable))
  | .references _ | .settings _ => isTrue trivial

/-- Whether entries are portable is decidable. -/
def decPortableBlock : (entries : List (String × Override)) → Decidable (PortableBlock entries)
  | [] => isTrue trivial
  | (key, entry) :: rest =>
      have := decPortable key entry
      have := decPortableBlock rest
      inferInstanceAs (Decidable (entry.Portable key ∧ PortableBlock rest))

end

instance (entries : List (String × Override)) : Decidable (PortableBlock entries) :=
  decPortableBlock entries

/-! ## Entries read back -/

/-- The entry that is read under `key` where an entry was written. -/
def reread? (key : String) (entry : Override) : Option Override :=
  entry.toJson.reread?.bind fun value => (ofJson key value.merged).toOption

/-- The entries that are read where entries were written. -/
def rereadBlock? (entries : List (String × Override)) : Option (List (String × Override)) :=
  (Json.rereadMembers? (entriesToJson entries)).bind fun members =>
    (entriesOfJson (Json.mergedMembers members)).toOption

variable {key replacement : String} {entry : Override} {value : Json}
  {children overrides : List (String × Override)}

theorem ofJson_references (value : Json) :
    ofJson "references" value =
      (sectionOfJson "references" [] (Json.list? Reference.ofJson?) value).map .references := by
  rw [ofJson.eq_def, if_pos rfl]

theorem ofJson_properties (value : Json) :
    ofJson "properties" value =
      (sectionOfJson "properties" [] Property.tableOfJson? value).map .properties := by
  rw [ofJson.eq_def, if_neg (by decide), if_pos rfl]

theorem ofJson_settings (value : Json) :
    ofJson "settings" value =
      (sectionOfJson "settings" [] (Json.list? Setting.ofJson?) value).map .settings := by
  rw [ofJson.eq_def, if_neg (by decide), if_neg (by decide), if_pos rfl]

theorem toOption_map {ε α β : Type} (f : α → β) (result : Except ε α) :
    (result.map f).toOption = result.toOption.map f := by
  cases result <;> rfl

/-- A section that is not `null` is what its value is read as. -/
theorem toOption_sectionOfJson {α : Type} (empty : α) (read? : Json → Option α)
    (hvalue : value ≠ .null) : (sectionOfJson key empty read? value).toOption = read? value := by
  unfold sectionOfJson
  split
  · exact absurd rfl hvalue
  · cases read? value <;> rfl

/-- Under the name of a section only a section is read. -/
theorem isSection_of_ofJson (hkey : key ∈ sectionNames)
    (h : (ofJson key value).toOption = some entry) : entry.IsSection := by
  simp only [sectionNames, List.mem_cons, List.not_mem_nil, or_false] at hkey
  rcases hkey with rfl | rfl | rfl
  · rw [ofJson_references, toOption_map] at h
    obtain ⟨listed, -, rfl⟩ := Option.map_eq_some_iff.mp h
    trivial
  · rw [ofJson_properties, toOption_map] at h
    obtain ⟨listed, -, rfl⟩ := Option.map_eq_some_iff.mp h
    trivial
  · rw [ofJson_settings, toOption_map] at h
    obtain ⟨listed, -, rfl⟩ := Option.map_eq_some_iff.mp h
    trivial

/-- So what is no section stands under another name if it is read back. -/
theorem notMem_sectionNames_of_reread? (hentry : ¬entry.IsSection)
    (h : entry.reread? key = some entry) : key ∉ sectionNames := by
  intro hkey
  obtain ⟨value, -, hvalue⟩ := Option.bind_eq_some_iff.mp h
  exact hentry (isSection_of_ofJson hkey hvalue)

/-! Under a name that is not that of a section the value decides. -/

theorem ne_of_notMem_sectionNames (h : key ∉ sectionNames) :
    key ≠ "references" ∧ key ≠ "properties" ∧ key ≠ "settings" := by
  simpa [sectionNames] using h

theorem ofJson_null (h : key ∉ sectionNames) : ofJson key .null = .ok .default := by
  obtain ⟨hreferences, hproperties, hsettings⟩ := ne_of_notMem_sectionNames h
  rw [ofJson.eq_def, if_neg hreferences, if_neg hproperties, if_neg hsettings]

theorem ofJson_object (h : key ∉ sectionNames) (members : List (String × Json)) :
    ofJson key (.object members) = (entriesOfJson members).map .nested := by
  obtain ⟨hreferences, hproperties, hsettings⟩ := ne_of_notMem_sectionNames h
  rw [ofJson.eq_def, if_neg hreferences, if_neg hproperties, if_neg hsettings]

theorem ofJson_pair_null (h : key ∉ sectionNames) (replacement : String) :
    ofJson key (.array [.string replacement, .null]) = .ok (.swap replacement none) := by
  obtain ⟨hreferences, hproperties, hsettings⟩ := ne_of_notMem_sectionNames h
  rw [ofJson.eq_def, if_neg hreferences, if_neg hproperties, if_neg hsettings]

theorem ofJson_pair_object (h : key ∉ sectionNames) (replacement : String)
    (members : List (String × Json)) :
    ofJson key (.array [.string replacement, .object members]) =
      (entriesOfJson members).map fun overrides => .swap replacement (some overrides) := by
  obtain ⟨hreferences, hproperties, hsettings⟩ := ne_of_notMem_sectionNames h
  rw [ofJson.eq_def, if_neg hreferences, if_neg hproperties, if_neg hsettings]

theorem names_entriesToJson (entries : List (String × Override)) :
    Entries.names (entriesToJson entries) = Entries.names entries := by
  induction entries with
  | nil => rfl
  | cons entry rest ih => exact congrArg (entry.1 :: ·) ih

/-- The object of some entries is read as the object of its members. -/
theorem merged_of_rereadMembers? (hnodup : (Entries.names children).Nodup)
    {members : List (String × Json)}
    (h : Json.rereadMembers? (entriesToJson children) = some members) :
    Json.merged (.object members) = .object (Json.mergedMembers members) := by
  refine Json.merged_object ?_
  rwa [Json.names_rereadMembers? h, names_entriesToJson]

theorem reread?_nested (hkey : key ∉ sectionNames) (hnodup : (Entries.names children).Nodup) :
    (Override.nested children).reread? key = (rereadBlock? children).map .nested := by
  rw [reread?, toJson, Json.reread?, rereadBlock?]
  cases hread : Json.rereadMembers? (entriesToJson children) with
  | none => rfl
  | some members =>
      rw [Option.map_some, Option.bind_some, Option.bind_some,
        merged_of_rereadMembers? hnodup hread, ofJson_object hkey, toOption_map]

theorem reread?_swap_some (hkey : key ∉ sectionNames)
    (hnodup : (Entries.names overrides).Nodup) :
    (Override.swap replacement (some overrides)).reread? key =
      (rereadBlock? overrides).map fun overrides => .swap replacement (some overrides) := by
  rw [reread?, toJson, rereadBlock?]
  simp only [Json.reread?, Json.rereadElements?]
  cases hread : Json.rereadMembers? (entriesToJson overrides) with
  | none => rfl
  | some members =>
      have hmerged : Json.merged (.array [.string replacement, .object members]) =
          .array [.string replacement, .object (Json.mergedMembers members)] := by
        rw [← merged_of_rereadMembers? hnodup hread]
        rfl
      simp only [Option.map_some, Option.bind_some]
      rw [hmerged, ofJson_pair_object hkey, toOption_map]

theorem rereadBlock?_cons (key : String) (entry : Override) (rest : List (String × Override)) :
    rereadBlock? ((key, entry) :: rest) =
      (entry.reread? key).bind fun read => (rereadBlock? rest).map ((key, read) :: ·) := by
  simp only [rereadBlock?, reread?, entriesToJson, Json.rereadMembers?]
  cases entry.toJson.reread? with
  | none => rfl
  | some value =>
      cases Json.rereadMembers? (entriesToJson rest) with
      | none => simp
      | some members =>
          simp only [Option.bind_some, Option.map_some, Json.mergedMembers, entriesOfJson]
          cases ofJson key value.merged <;> cases entriesOfJson (Json.mergedMembers members) <;> rfl

/-- References are read back from their JSON forms. -/
theorem reread?_references {listed : List Reference}
    (h : ∀ reference ∈ listed, reference.Orderly) :
    (Override.references listed).reread? "references" = some (.references listed) := by
  have hsteady : Json.Steady (.array (listed.map Reference.toJson)) := by
    refine Json.steady_array fun element helement => ?_
    obtain ⟨reference, hreference, rfl⟩ := List.mem_map.mp helement
    exact (h reference hreference).steady
  have hlist : Json.list? Reference.ofJson? (.array (listed.map Reference.toJson)) =
      some listed :=
    Json.list?_map fun reference hreference => (h reference hreference).ofJson?_toJson
  rw [reread?, toJson, hsteady.reread, Option.bind_some, hsteady.merged, ofJson_references,
    toOption_map, toOption_sectionOfJson _ _ (by nofun), hlist, Option.map_some]

/-- Properties are read back exactly if each of them is. -/
theorem reread?_properties {listed : List (String × Property)}
    (hnodup : (Entries.names listed).Nodup) (h : ∀ entry ∈ listed, entry.2.Orderly) :
    (Override.properties listed).reread? "properties" = some (.properties listed) ↔
      ∀ entry ∈ listed, entry.2.Portable := by
  have htable := Json.bind_table?_eq_some_iff Property.toJson Property.ofJson? hnodup
  have heach : (∀ entry ∈ listed, entry.2.toJson.reread?.bind Property.ofJson? = some entry.2) ↔
      ∀ entry ∈ listed, entry.2.Portable :=
    forall₂_congr fun entry hentry => Property.bind_ofJson?_eq_some_iff (h entry hentry)
  rw [← heach, ← htable, reread?, toJson, Property.tableToJson, Json.reread?]
  cases hread : Json.rereadMembers? (listed.map fun entry => (entry.1, entry.2.toJson)) with
  | none => simp
  | some members =>
      have hmembers : (Entries.names members).Nodup := by
        rw [Json.names_rereadMembers? hread, Entries.names, List.map_map]
        exact hnodup
      have hsection : Json.merged (.object members) ≠ .null := by
        rw [Json.merged_object hmembers]
        exact Json.noConfusion
      rw [Option.map_some, Option.bind_some, Option.bind_some, ofJson_properties, toOption_map,
        toOption_sectionOfJson _ _ hsection, Property.tableOfJson?_merged hmembers]
      exact (Option.map_injective fun _ _ => properties.inj).eq_iff' rfl

theorem reread?_default (hkey : key ∉ sectionNames) : default.reread? key = some .default := by
  rw [reread?, toJson, Json.reread?, Option.bind_some, Json.merged, ofJson_null hkey]
  rfl

theorem reread?_swap_none (hkey : key ∉ sectionNames) :
    (swap replacement none).reread? key = some (.swap replacement none) := by
  change (ofJson key (.array [.string replacement, .null])).toOption = _
  rw [ofJson_pair_null hkey]
  rfl

mutual

/-- An entry is read back exactly if it is portable. -/
theorem reread?_eq_some_iff : ∀ {key : String} {entry : Override}, entry.Orderly key →
    (entry.reread? key = some entry ↔ entry.Portable key)
  | _, .default, _ => ⟨notMem_sectionNames_of_reread? id, reread?_default⟩
  | _, .swap _ none, _ => ⟨notMem_sectionNames_of_reread? id, reread?_swap_none⟩
  | key, .nested children, h => by
      have hchildren : OrderlyBlock children := h
      have hiff := rereadBlock?_eq_some_iff hchildren
      constructor
      · intro hread
        -- a block is read back, so its name is not that of a section
        have hkey := notMem_sectionNames_of_reread? id hread
        rw [reread?_nested hkey hchildren.nodup] at hread
        obtain ⟨read, hblock, hsame⟩ := Option.map_eq_some_iff.mp hread
        obtain rfl := nested.inj hsame
        exact ⟨hkey, hiff.mp hblock⟩
      · rintro ⟨hkey, hblock⟩
        rw [reread?_nested hkey hchildren.nodup, hiff.mpr hblock, Option.map_some]
  | key, .swap replacement (some overrides), h => by
      have hoverrides : OrderlyBlock overrides := h
      have hiff := rereadBlock?_eq_some_iff hoverrides
      constructor
      · intro hread
        have hkey := notMem_sectionNames_of_reread? id hread
        rw [reread?_swap_some hkey hoverrides.nodup] at hread
        obtain ⟨read, hblock, hsame⟩ := Option.map_eq_some_iff.mp hread
        obtain rfl := Option.some.inj (swap.inj hsame).2
        exact ⟨hkey, hiff.mp hblock⟩
      · rintro ⟨hkey, hblock⟩
        rw [reread?_swap_some hkey hoverrides.nodup, hiff.mpr hblock, Option.map_some]
  | _, .references _, ⟨rfl, hlisted⟩ => ⟨fun _ => trivial, fun _ => reread?_references hlisted⟩
  | _, .properties _, ⟨rfl, hnodup, hlisted⟩ => reread?_properties hnodup hlisted

/-- Entries are read back exactly if each of them is portable. -/
theorem rereadBlock?_eq_some_iff : ∀ {entries : List (String × Override)}, OrderlyBlock entries →
    (rereadBlock? entries = some entries ↔ PortableBlock entries)
  | [], _ => ⟨fun _ => trivial, fun _ => rfl⟩
  | (key, entry) :: rest, ⟨_, hentry, hrest⟩ => by
      rw [rereadBlock?_cons, PortableBlock, ← reread?_eq_some_iff hentry,
        ← rereadBlock?_eq_some_iff hrest]
      cases entry.reread? key <;> cases rereadBlock? rest <;> simp

end

end Override

/-! ## Architectures -/

/-- An architecture is read back exactly if its entries are portable. -/
theorem Architecture.bind_ofJson?_eq_some_iff {architecture : Architecture}
    (h : Override.OrderlyBlock architecture.entries) :
    architecture.toJson.reread?.bind ofJson? = some architecture ↔
      Override.PortableBlock architecture.entries := by
  have hread : architecture.toJson.reread?.bind ofJson? =
      (Override.rereadBlock? architecture.entries).map mk := by
    rw [toJson, Json.reread?, Override.rereadBlock?]
    cases hread : Json.rereadMembers? (Override.entriesToJson architecture.entries) with
    | none => rfl
    | some members =>
        rw [Option.map_some, Option.bind_some, Option.bind_some, ofJson?,
          Override.merged_of_rereadMembers? h.nodup hread, ofJson, Override.toOption_map]
  rw [hread, ← Override.rereadBlock?_eq_some_iff h]
  exact (Option.map_injective fun _ _ => mk.inj).eq_iff' rfl

/-- Architectures under different names whose entries are orderly. -/
structure Architectures.Orderly (architectures : Architectures) : Prop where
  nodup : architectures.names.Nodup
  each : ∀ entry ∈ architectures, Override.OrderlyBlock entry.2.entries

/-- Architectures whose entries are portable, with a value that is not nested too deep to
stand in a registry. -/
structure Architectures.Portable (architectures : Architectures) : Prop where
  depth : (Architecture.tableToJson architectures).depth < Json.depthLimit
  each : ∀ entry ∈ architectures, Override.PortableBlock entry.2.entries

instance (architectures : Architectures) : Decidable architectures.Portable :=
  decidable_of_iff ((Architecture.tableToJson architectures).depth < Json.depthLimit ∧
      ∀ entry ∈ architectures, Override.PortableBlock entry.2.entries)
    ⟨fun h => ⟨h.1, h.2⟩, fun h => ⟨h.1, h.2⟩⟩

/-! ## Registries -/

namespace Registry

/-- The text of a registry of which only the architectures are given. -/
def withArchitectures (text : String) : String := "\x7b\"architectures\":" ++ text ++ "\x7d"

variable {text : String} {value : Json}

/-- The architectures of a registry are read down to one bracket less than its text. -/
theorem read?_withArchitectures (h : Json.Writes text.toList value.source.tokens) :
    Json.read? interest (withArchitectures text) =
      (if value.depth < Json.depthLimit then value.reread? else none).map fun value =>
        .object [("architectures", value)] := by
  have htext : (withArchitectures text).toList =
      '{' :: ((Json.stringText "architectures").toList ++ ':' :: (text.toList ++ ['}'])) := by
    have hopening : ("\x7b\"architectures\":" : String).toList =
        '{' :: ((Json.stringText "architectures").toList ++ [':']) := by decide +kernel
    unfold withArchitectures
    rw [String.toList_append, String.toList_append, hopening]
    simp
  have hwrites : Json.Writes (withArchitectures text).toList
      (Json.Source.object [(some "architectures", value.source)]).tokens := by
    have hvalue := h.append (Json.ends_cons (by decide) _) Json.Writes.nil.closeObject
    have hmember := (Json.writes_string "architectures").append (Json.ends_cons (by decide) _)
      hvalue.colon
    rw [htext]
    simpa [Json.Source.tokens, Json.Source.tokensOfMembers] using hmember.openObject
  have hlimit : Json.depthLimit = 126 + 1 := rfl
  have hmember : interest.member? "architectures" = some .whole := rfl
  rw [Json.read?_of_writes_source hwrites, hlimit, Json.Source.focus?, Json.Source.focusMembers?,
    hmember]
  simp only [Json.focus?_source, Nat.lt_succ_iff, Json.Source.focusMembers?]
  cases (if value.depth ≤ 126 then value.reread? else none) <;> rfl

theorem partsOfJson?_architectures (value : Json) :
    partsOfJson? (.object [("architectures", value)]) =
      (Json.table? Architecture.ofJson? value).map fun read => ⟨[], [], read⟩ := by
  have hfields : Json.Fields.ofRecord? fieldNames (.object [("architectures", value)]) =
      some ⟨[("architectures", value)], []⟩ := rfl
  have hcomponents : Json.Fields.defaulted? ⟨[("architectures", value)], []⟩ "components" []
      (Json.table? Template.ofJson?) = some [] := rfl
  have hdetails : Json.Fields.defaulted? ⟨[("architectures", value)], []⟩ "details" []
      (Json.table? Template.ofJson?) = some [] := rfl
  have harchitectures : Json.Fields.defaulted? ⟨[("architectures", value)], []⟩ "architectures" []
      (Json.table? Architecture.ofJson?) = Json.table? Architecture.ofJson? value := rfl
  rw [partsOfJson?, hfields, Option.bind_eq_bind, Option.bind_some, hcomponents, hdetails,
    harchitectures]
  cases Json.table? Architecture.ofJson? value <;> rfl

/-- A registry gives back the architectures written into it exactly if they are portable. -/
theorem ofText_withArchitectures_eq_ok_iff {architectures : Architectures}
    (horderly : architectures.Orderly)
    (h : Json.Writes text.toList (Architecture.tableToJson architectures).source.tokens) :
    ofText (withArchitectures text) = .ok ⟨[], [], architectures⟩ ↔ architectures.Portable := by
  have heach : (∀ entry ∈ architectures,
      entry.2.toJson.reread?.bind Architecture.ofJson? = some entry.2) ↔
        ∀ entry ∈ architectures, Override.PortableBlock entry.2.entries :=
    forall₂_congr fun entry hentry =>
      Architecture.bind_ofJson?_eq_some_iff (horderly.each entry hentry)
  have htable : (Architecture.tableToJson architectures).reread?.bind
      (Json.table? Architecture.ofJson?) = some architectures ↔
        ∀ entry ∈ architectures, Override.PortableBlock entry.2.entries :=
    (Json.bind_table?_eq_some_iff Architecture.toJson _ horderly.nodup).trans heach
  rw [ofText, read?_withArchitectures h]
  -- beyond the depth limit nothing is read; up to it only the entries matter
  by_cases hdepth : (Architecture.tableToJson architectures).depth < Json.depthLimit
  · rw [if_pos hdepth]
    have hportable : architectures.Portable ↔
        ∀ entry ∈ architectures, Override.PortableBlock entry.2.entries :=
      ⟨fun hportable => hportable.each, fun hentries => ⟨hdepth, hentries⟩⟩
    rw [hportable, ← htable]
    cases (Architecture.tableToJson architectures).reread? with
    | none => simp
    | some value =>
        simp only [Option.map_some, Option.bind_some, partsOfJson?_architectures]
        cases hread : Json.table? Architecture.ofJson? value with
        | none => simp
        | some read =>
            have hparts : ofParts ⟨[], [], read⟩ = .ok ⟨[], [], read⟩ := rfl
            simp [hparts]
  · rw [if_neg hdepth]
    exact ⟨nofun, fun hportable => absurd hportable.depth hdepth⟩

end Registry

end ArchDiagram

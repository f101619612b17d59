/-
# Names of templates and of their instances

An instance goes by the name of its template, alone or with an underscore and a number
behind it. A registry takes no template under a name that does not lead to itself. Hence,
whatever is read, added and merged, each of its templates is found under the names of its
instances and under no others, and no two names of templates have an instance name in common
(`addressable_editAll`).
-/

import ArchDiagram.Proofs.Editing

namespace ArchDiagram

/-! ## Instance names -/

namespace Ident

/-- The names that the instances of a template go by. -/
inductive InstanceOf (name : String) : String → Prop
  | plain : InstanceOf name name
  | numbered {digits : String} : digits ≠ "" → (∀ c ∈ digits.toList, c.isDigit = true) →
      InstanceOf name (name ++ "_" ++ digits)

variable {name ident : String}

theorem templateKey_numbered (name : String) {digits : String} (hsome : digits ≠ "")
    (hdigits : ∀ c ∈ digits.toList, c.isDigit = true) :
    templateKey (name ++ "_" ++ digits) = name := by
  have hchars : name ++ "_" ++ digits = String.ofList (name.toList ++ '_' :: digits.toList) := by
    rw [← String.toList_inj]
    simp
  rw [hchars]
  exact templateKey_append_digits name (by simpa using hsome) hdigits

/-- Every name is that of an instance of the template it leads to. -/
theorem instanceOf_templateKey (ident : String) : InstanceOf (templateKey ident) ident := by
  unfold templateKey
  split
  · rename_i base hbase
    obtain ⟨digits, hsome, hdigits, hchars⟩ := beforeNumber?_eq_some_iff.mp hbase
    have hident : ident = String.ofList base ++ "_" ++ String.ofList digits := by
      rw [← String.toList_inj]
      simpa using hchars
    rw [hident]
    exact .numbered (by simpa using hsome) (by simpa using hdigits)
  · exact .plain

/-- A name that leads to itself is what all its instances lead to, and nothing else. -/
theorem templateKey_eq_iff (hkey : templateKey name = name) :
    templateKey ident = name ↔ InstanceOf name ident := by
  constructor
  · rintro rfl
    exact instanceOf_templateKey ident
  · intro h
    cases h with
    | plain => exact hkey
    | numbered hsome hdigits => exact templateKey_numbered name hsome hdigits

end Ident

/-! ## Entries under names that lead to themselves -/

namespace Entries

variable {α : Type} {entries : Entries α} {pairs : List (String × α)} {ident : String} {value : α}

/-- Nothing is kept twice under a name, and each name leads to itself. -/
structure WellNamed (entries : Entries α) : Prop where
  nodup : entries.names.Nodup
  key : ∀ name ∈ entries.names, Ident.templateKey name = name

theorem wellNamed_nil : WellNamed ([] : Entries α) := ⟨List.nodup_nil, List.forall_mem_nil _⟩

theorem WellNamed.putAll (h : entries.WellNamed)
    (hpairs : ∀ pair ∈ pairs, Ident.templateKey pair.1 = pair.1) :
    (entries.putAll pairs).WellNamed where
  nodup := nodup_names_putAll pairs h.nodup
  key := by
    intro name hname
    obtain ⟨entry, hentry, rfl⟩ := List.mem_map.mp hname
    rcases mem_of_mem_putAll hentry with hold | hnew
    · exact h.key entry.1 (List.mem_map_of_mem hold)
    · exact hpairs entry hnew

theorem WellNamed.templateKey_eq (h : entries.WellNamed) {name : String}
    (hname : name ∈ entries.names) (hinstance : Ident.InstanceOf name ident) :
    Ident.templateKey ident = name :=
  (Ident.templateKey_eq_iff (h.key name hname)).mpr hinstance

/-- What is found for a name is what is kept for the instances that go by it. -/
theorem WellNamed.lookup_templateKey (h : entries.WellNamed) :
    entries.lookup (Ident.templateKey ident) = some value ↔
      ∃ name, (name, value) ∈ entries ∧ Ident.InstanceOf name ident := by
  rw [lookup_eq_some_iff_mem h.nodup]
  constructor
  · exact fun hmem => ⟨_, hmem, Ident.instanceOf_templateKey ident⟩
  · rintro ⟨name, hmem, hinstance⟩
    rwa [h.templateKey_eq (List.mem_map_of_mem hmem) hinstance]

end Entries

/-! ## Registries -/

namespace Registry

variable {registry start : Registry}

/-- All templates stand under names that lead to themselves, no two of a kind under one. -/
def WellNamed (registry : Registry) : Prop :=
  ∀ kind, (registry.table kind).WellNamed

theorem wellNamed_of_ofText {text : String} (h : ofText text = .ok registry) :
    registry.WellNamed := by
  unfold ofText at h
  split at h
  · intro kind
    obtain ⟨htable, hkey⟩ := table_of_ofParts h kind
    rw [htable]
    exact Entries.wellNamed_nil.putAll hkey
  · cases h

theorem WellNamed.editAll (h : registry.WellNamed) (edits : List Edit) :
    (registry.editAll edits).WellNamed := by
  intro kind
  rw [table_editAll]
  refine (h kind).putAll fun pair hpair => ?_
  obtain ⟨edit, -, hadds⟩ := List.mem_filterMap.mp hpair
  exact Edit.templateKey_of_adds? hadds

/-- What the names of instances lead to in a registry. -/
structure Addressable (registry : Registry) : Prop where
  /-- The name of a template leads to itself, alone and with a number behind it. -/
  key : ∀ kind, ∀ name ∈ (registry.table kind).names,
    Ident.templateKey name = name ∧ ∀ digits : String, digits ≠ "" →
      (∀ c ∈ digits.toList, c.isDigit = true) → Ident.templateKey (name ++ "_" ++ digits) = name
  /-- A component is found under the names of its instances and under no others. -/
  component : ∀ ident template, registry.instanceOf? ident = some template ↔
    ∃ name, (name, template) ∈ registry.components ∧ Ident.InstanceOf name ident
  /-- So is a detail, and a component that no detail has the name of. -/
  detail : ∀ ident template, registry.detailOf? ident = some template ↔
    ∃ name, ((name, template) ∈ registry.details ∨
      name ∉ registry.details.names ∧ (name, template) ∈ registry.components) ∧
        Ident.InstanceOf name ident
  /-- No name is that of an instance of two templates with different names. -/
  apart : ∀ kind, ∀ name ∈ (registry.table kind).names,
    ∀ kind', ∀ other ∈ (registry.table kind').names, name ≠ other →
      ∀ ident, Ident.InstanceOf name ident → ¬Ident.InstanceOf other ident

theorem WellNamed.detailOf?_eq_some_iff (h : registry.WellNamed) {ident : String}
    {template : Template} : registry.detailOf? ident = some template ↔
      ∃ name, ((name, template) ∈ registry.details ∨
        name ∉ registry.details.names ∧ (name, template) ∈ registry.components) ∧
          Ident.InstanceOf name ident := by
  have hdetails : registry.details.WellNamed := h .detail
  have hcomponents : registry.components.WellNamed := h .component
  rw [detailOf?, detail?, Option.orElse_eq_or, Option.or_eq_some_iff,
    Entries.lookup_eq_none_iff_notMem, Entries.lookup_eq_some_iff_mem hdetails.nodup,
    Entries.lookup_eq_some_iff_mem hcomponents.nodup]
  constructor
  · exact fun hmem => ⟨_, hmem, Ident.instanceOf_templateKey ident⟩
  · rintro ⟨name, hmem, hinstance⟩
    -- the name may be that of a detail or of a component
    have hname : Ident.templateKey ident = name := by
      rcases hmem with hmem | ⟨-, hmem⟩
      · exact hdetails.templateKey_eq (List.mem_map_of_mem hmem) hinstance
      · exact hcomponents.templateKey_eq (List.mem_map_of_mem hmem) hinstance
    rwa [hname]

theorem WellNamed.addressable (h : registry.WellNamed) : registry.Addressable where
  key kind name hname :=
    ⟨(h kind).key name hname, fun _ hsome hdigits => Ident.templateKey_numbered name hsome hdigits⟩
  component _ _ := (h .component).lookup_templateKey
  detail _ _ := h.detailOf?_eq_some_iff
  apart kind name hname kind' other hother hne ident hinstance hinstance' := by
    -- a name in common would lead to both
    have hfirst := (h kind).templateKey_eq hname hinstance
    have hsecond := (h kind').templateKey_eq hother hinstance'
    exact hne (hfirst.symm.trans hsecond)

/-- However a registry that was read is changed, its templates are found under the names of
their instances, which are different ones for different names of templates. A template stands
under its name until another one of its kind is put there, and is refused only if the name does
not lead to itself. -/
theorem addressable_editAll {text : String} (h : ofText text = .ok start) (edits : List Edit) :
    (start.editAll edits).Addressable ∧
      ∀ kind name, ((start.editAll edits).table kind).lookup name =
        ((edits.filterMap (Edit.adds? kind)).reverse.lookup name).or
          ((start.table kind).lookup name) := by
  refine ⟨((wellNamed_of_ofText h).editAll edits).addressable, fun kind name => ?_⟩
  rw [table_editAll, Entries.lookup_putAll]

/-- A template that is told from others by what it says. -/
def saying (info : String) : Template := ⟨[], [], none, some info, []⟩

def underscoredText : String :=
  "\x7b\"components\":\x7b\"\":\x7b\"info\":\"bare\"\x7d,\"cell_\":\x7b\"info\":\"old\"\x7d\x7d," ++
    "\"details\":\x7b\"a_1_b2\":\x7b\"info\":\"inside\"\x7d\x7d\x7d"

/-- Templates without a name, with an underscore at the end and with numbers inside. -/
def underscored : Registry where
  components := [("", saying "bare"), ("cell_", saying "old")]
  details := [("a_1_b2", saying "inside")]
  architectures := []

/-- One template is replaced and one is refused. -/
def underscoredEdits : List Edit := [
  .insertTemplate .component "cell_" (saying "new"),
  .insertTemplate .detail "cell_2" (saying "lost"),
  .mergeArchitectures [("plan_1", ⟨[("cell__07", .default)]⟩)]]

theorem ofText_underscoredText : ofText underscoredText = .ok underscored := by
  decide +kernel

/-- It is the last underscore that counts, so `cell__07` is an instance of `cell_`, and `_3` is
one of the template without a name. -/
theorem addressable_editAll_underscored :
    ofText underscoredText = .ok underscored ∧
      (underscored.editAll underscoredEdits).instanceOf? "cell__07" = some (saying "new") ∧
      (underscored.editAll underscoredEdits).instanceOf? "_3" = some (saying "bare") ∧
      (underscored.editAll underscoredEdits).detailOf? "a_1_b2_12" = some (saying "inside") ∧
      (underscored.editAll underscoredEdits).details.lookup "cell_2" = none ∧
      ¬Ident.InstanceOf "cell_" "_3" := by
  obtain ⟨haddressable, hlookup⟩ := addressable_editAll ofText_underscoredText underscoredEdits
  have hcell : Ident.InstanceOf "cell_" "cell__07" :=
    @Ident.InstanceOf.numbered "cell_" "07" (by decide) (List.all_eq_true.mp (by decide))
  have hbare : Ident.InstanceOf "" "_3" :=
    @Ident.InstanceOf.numbered "" "3" (by decide) (List.all_eq_true.mp (by decide))
  have hinside : Ident.InstanceOf "a_1_b2" "a_1_b2_12" :=
    @Ident.InstanceOf.numbered "a_1_b2" "12" (by decide) (List.all_eq_true.mp (by decide))
  refine ⟨ofText_underscoredText, ?_, ?_, ?_, ?_, ?_⟩
  · exact (haddressable.component _ _).mpr ⟨_, by decide +kernel, hcell⟩
  · exact (haddressable.component _ _).mpr ⟨_, by decide +kernel, hbare⟩
  · exact (haddressable.detail _ _).mpr ⟨_, by decide +kernel, hinside⟩
  · exact (hlookup .detail "cell_2").trans (by decide +kernel)
  · exact haddressable.apart .component "" (by decide +kernel) .component "cell_"
      (by decide +kernel) (by decide) _ hbare

end Registry

end ArchDiagram

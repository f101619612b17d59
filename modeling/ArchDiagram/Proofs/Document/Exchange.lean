/-
# Documents and registries

Architectures that are read from a document can stand in a registry: their JSON form, on
one line or with a line for every part, is a value a registry is read from. The two formats
tell what an entry is in different ways: a document by the shape of a line, JSON by the name
of the entry. So a registry gives back what was read from a document exactly if nothing but
a section stands under the name of one, every real number is read back from its text, and
nothing is nested too deep (`ofText_withArchitectures_of_parse`).
-/

import ArchDiagram.Command.Run
import ArchDiagram.Proofs.Document.Reading
import ArchDiagram.Proofs.Json.Overrides

namespace ArchDiagram

/-! ## What a document gives is orderly -/

theorem Property.orderly_of_expressible {property : Property}
    (h : property.Finite → property.Expressible) : property.Orderly := by
  cases property with
  | integer value => exact h trivial
  | real value => trivial
  | text value => trivial

namespace Document

theorem ReferenceFound.orderly {reference : Reference} (h : ReferenceFound reference) :
    reference.Orderly where
  nodup := h.nodup
  no_field other hother := (h.other other hother).no_field
  text other hother := (h.other other hother).text

theorem orderlyBlock_of_forall {entries : Entries Override} (hnodup : entries.names.Nodup)
    (h : ∀ entry ∈ entries, entry.2.Orderly entry.1) : Override.OrderlyBlock entries := by
  induction entries with
  | nil => trivial
  | cons entry rest ih =>
      obtain ⟨key, entry⟩ := entry
      obtain ⟨hnew, hnodup⟩ := List.nodup_cons.mp hnodup
      rw [List.forall_mem_cons] at h
      exact ⟨hnew, h.1, ih hnodup h.2⟩

theorem orderlyBlock_collect {pairs : List (String × Override)}
    (h : ∀ entry ∈ pairs, entry.2.Orderly entry.1) :
    Override.OrderlyBlock (Entries.collect pairs) :=
  orderlyBlock_of_forall (Entries.nodup_names_collect pairs)
    fun entry hentry => h entry (Entries.mem_of_mem_collect hentry)

mutual

theorem entriesOf_orderly : ∀ {outline : Outline} {entries : List (String × Override)},
    (∀ line ∈ Outline.flatten outline, line.Found) → entriesOf outline = .ok entries →
    ∀ entry ∈ entries, entry.2.Orderly entry.1
  | .node line children, entries, hlines, h => by
      rw [Outline.flatten, List.forall_mem_cons] at hlines
      obtain ⟨-, hchildren⟩ := hlines
      rw [entriesOf] at h
      cases hheading : Heading.ofLine line with
      | references =>
          simp only [hheading] at h
          obtain ⟨listed, hlisted, rfl⟩ := exists_of_map_eq_ok h
          have hfound := referencesOf_found hchildren hlisted
          exact List.forall_mem_singleton.mpr
            ⟨rfl, fun reference hreference => (hfound reference hreference).orderly⟩
      | properties =>
          simp only [hheading] at h
          obtain ⟨listed, hlisted, rfl⟩ := exists_of_map_eq_ok h
          obtain ⟨pairs, hpairs, rfl⟩ := exists_of_map_eq_ok hlisted
          have hfound := propertiesOfLines_found hchildren hpairs
          refine List.forall_mem_singleton.mpr ⟨rfl, Entries.nodup_names_collect pairs, ?_⟩
          intro entry hentry
          have hentry := hfound entry (Entries.mem_of_mem_collect hentry)
          exact Property.orderly_of_expressible hentry.2
      | nested name =>
          simp only [hheading] at h
          obtain ⟨inner, hinner, rfl⟩ := exists_of_map_eq_ok h
          exact List.forall_mem_singleton.mpr
            (orderlyBlock_collect (entriesOfAll_orderly hchildren hinner))
      | swap slotClass replacement =>
          simp only [hheading] at h
          obtain ⟨inner, hinner, rfl⟩ := exists_of_map_eq_ok h
          have hblock := orderlyBlock_collect (entriesOfAll_orderly hchildren hinner)
          -- without lines below there are no overrides to ask anything of
          cases children with
          | nil => exact List.forall_mem_singleton.mpr trivial
          | cons first rest => exact List.forall_mem_singleton.mpr hblock
      | bare name =>
          simp only [hheading] at h
          obtain ⟨inner, hinner, rfl⟩ := exists_of_map_eq_ok h
          -- the lines below a bare name count for the block it stands in
          exact List.forall_mem_cons.mpr ⟨trivial, entriesOfAll_orderly hchildren hinner⟩

theorem entriesOfAll_orderly : ∀ {outlines : List Outline} {entries : List (String × Override)},
    (∀ line ∈ Outline.flattenAll outlines, line.Found) → entriesOfAll outlines = .ok entries →
    ∀ entry ∈ entries, entry.2.Orderly entry.1
  | [], entries, _, h => by
      obtain rfl := Except.ok.inj h
      exact nofun
  | outline :: rest, entries, hlines, h => by
      rw [Outline.flattenAll, List.forall_mem_append] at hlines
      obtain ⟨first, others, hfirst, hothers, rfl⟩ := reading_entriesOf.exists_of_cons h
      rw [List.forall_mem_append]
      exact ⟨entriesOf_orderly hlines.1 hfirst, entriesOfAll_orderly hlines.2 hothers⟩

end

theorem orderly_of_parse {text : String} {architectures : Architectures}
    (h : parse text = .ok architectures) : architectures.Orderly := by
  obtain ⟨-, hnodup, hread⟩ := exists_slice_of_parse h
  refine ⟨hnodup, fun entry hentry => ?_⟩
  obtain ⟨slice, hslice, hentry⟩ := hread entry hentry
  obtain ⟨outlines, pairs, hlines, hpairs, -, rfl⟩ := exists_of_architectureOf hslice hentry
  exact orderlyBlock_collect (entriesOfAll_orderly hlines hpairs)

/-! ## Reading it back -/

/-- What is read from a document is read back from a registry with its JSON form, on one
line or as it is printed, exactly if it is portable. -/
theorem ofText_withArchitectures_of_parse {text : String} {architectures : Architectures}
    (h : parse text = .ok architectures) :
    (Registry.ofText
        (Registry.withArchitectures (Architecture.tableToJson architectures).compact) =
          .ok ⟨[], [], architectures⟩ ↔ architectures.Portable) ∧
      (Registry.ofText
        (Registry.withArchitectures (Command.printJson (Architecture.tableToJson architectures))) =
          .ok ⟨[], [], architectures⟩ ↔ architectures.Portable) :=
  ⟨Registry.ofText_withArchitectures_eq_ok_iff (orderly_of_parse h) (Json.writes_compact _),
    Registry.ofText_withArchitectures_eq_ok_iff (orderly_of_parse h)
      (Json.writes_pretty_append _)⟩

/-- A document with every kind of entry, the last one a section. -/
def plainText : String :=
  "model:\n  properties:\n    layers: 32\n    rate: 0.5\n  tokenizer\n  decoder:\n" ++
    "    attention: mha\n      norm: rms\n  references:\n    Paper:\n      link: \"x\"\n"

/-- What is read from it. -/
def plainArchitectures : Architectures :=
  [("model", ⟨[
    ("properties", .properties
      [("layers", .integer 32), ("rate", .real (Decimal.toBinary64 false ⟨5, -1⟩))]),
    ("tokenizer", .default),
    ("decoder", .nested [("attention", .swap "mha" (some [("norm", .swap "rms" none)]))]),
    ("references", .references [{ Reference.titled "Paper" with link := some "x" }])]⟩)]

theorem ofText_withArchitectures_plainText :
    parse plainText = .ok plainArchitectures ∧
      Registry.ofText (Registry.withArchitectures
        (Architecture.tableToJson plainArchitectures).compact) =
          .ok ⟨[], [], plainArchitectures⟩ ∧
      Registry.ofText (Registry.withArchitectures
        (Command.printJson (Architecture.tableToJson plainArchitectures))) =
          .ok ⟨[], [], plainArchitectures⟩ := by
  have hread : parse plainText = .ok plainArchitectures := by decide +kernel
  have hportable : plainArchitectures.Portable := by decide +kernel
  obtain ⟨hcompact, hprinted⟩ := ofText_withArchitectures_of_parse hread
  exact ⟨hread, hcompact.mpr hportable, hprinted.mpr hportable⟩

/-- A component named like a section, an infinite number, and a number that is read back
with another last digit. -/
def lossyTexts : List (String × Architectures) :=
  [("a:\n  settings\n", [("a", ⟨[("settings", .default)]⟩)]),
    ("a:\n  properties:\n    b: 1e999\n",
      [("a", ⟨[("properties", .properties [("b", .real (.infinite false))])]⟩)]),
    ("a:\n  properties:\n    b: 8.99e-54\n",
      [("a", ⟨[("properties", .properties
        [("b", .real (Decimal.toBinary64 false ⟨899, -56⟩))])]⟩)])]

theorem ofText_withArchitectures_ne_of_mem_lossyTexts {text : String}
    {architectures : Architectures} (h : (text, architectures) ∈ lossyTexts) :
    parse text = .ok architectures ∧
      Registry.ofText
        (Registry.withArchitectures (Architecture.tableToJson architectures).compact) ≠
          .ok ⟨[], [], architectures⟩ := by
  have hread : ∀ lossy ∈ lossyTexts, parse lossy.1 = .ok lossy.2 := by decide +kernel
  have hlossy : ∀ lossy ∈ lossyTexts, ¬lossy.2.Portable := by decide +kernel
  have hparse : parse text = .ok architectures := hread (text, architectures) h
  refine ⟨hparse, fun hback => hlossy (text, architectures) h ?_⟩
  exact (Registry.ofText_withArchitectures_eq_ok_iff (orderly_of_parse hparse)
    (Json.writes_compact _)).mp hback

/-- So not everything that is read from a document is read back from a registry. -/
theorem not_forall_ofText_withArchitectures :
    ¬∀ (text : String) (architectures : Architectures), parse text = .ok architectures →
      Registry.ofText
        (Registry.withArchitectures (Architecture.tableToJson architectures).compact) =
          .ok ⟨[], [], architectures⟩ := by
  intro h
  have hmem : ("a:\n  settings\n", [("a", ⟨[("settings", .default)]⟩)]) ∈ lossyTexts :=
    List.mem_cons_self
  obtain ⟨hread, hlost⟩ := ofText_withArchitectures_ne_of_mem_lossyTexts hmem
  exact hlost (h _ _ hread)

end Document

end ArchDiagram

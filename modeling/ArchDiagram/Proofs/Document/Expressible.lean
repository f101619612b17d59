/-
# What a document can express

Not every architecture has a text that is read as it. Names stand before a colon
and end with their line, so they are trimmed and keep to one line, and most of
them have no colon; sections stand under their own names; settings and infinite
numbers have no text at all. What may not stand where is collected here, for
architectures and everything in them.
-/

import ArchDiagram.Architecture
import ArchDiagram.Proofs.Text.Trimmed

namespace ArchDiagram

/-- A trimmed text of one line. -/
structure Tidy (text : String) : Prop where
  trimmed : Text.Trimmed text.toList
  one_line : '\n' ∉ text.toList

/-- A tidy text without a colon. -/
structure TidyKey (text : String) : Prop extends Tidy text where
  no_colon : ':' ∉ text.toList

instance (text : String) : Decidable (Tidy text) :=
  decidable_of_iff (Text.Trimmed text.toList ∧ '\n' ∉ text.toList)
    ⟨fun h => ⟨h.1, h.2⟩, fun h => ⟨h.1, h.2⟩⟩

instance (text : String) : Decidable (TidyKey text) :=
  decidable_of_iff (Tidy text ∧ ':' ∉ text.toList) ⟨fun h => ⟨h.1, h.2⟩, fun h => ⟨h.1, h.2⟩⟩

/-- A property that can be read from its text: a whole number of 64 bits, a finite
real number or a text. -/
def Property.Expressible : Property → Prop
  | .integer value => Property.fits value = true
  | .real value => value.isInfinite = false
  | .text _ => True

instance : (property : Property) → Decidable property.Expressible
  | .integer value => inferInstanceAs (Decidable (Property.fits value = true))
  | .real value => inferInstanceAs (Decidable (value.isInfinite = false))
  | .text _ => isTrue trivial

/-- Properties under different names that stand before a colon. -/
structure Property.TableExpressible (properties : Entries Property) : Prop where
  nodup : (Entries.names properties).Nodup
  key : ∀ entry ∈ properties, TidyKey entry.1
  value : ∀ entry ∈ properties, entry.2.Expressible

instance (properties : Entries Property) : Decidable (Property.TableExpressible properties) :=
  decidable_of_iff ((Entries.names properties).Nodup ∧ (∀ entry ∈ properties, TidyKey entry.1) ∧
      ∀ entry ∈ properties, entry.2.Expressible)
    ⟨fun h => ⟨h.1, h.2.1, h.2.2⟩, fun h => ⟨h.1, h.2, h.3⟩⟩

/-- A member of a reference that is no field and has a text for its value. -/
structure Reference.OtherExpressible (other : String × Json) : Prop where
  key : TidyKey other.1
  no_field : other.1 ∉ Reference.fieldNames
  text : ∃ value, other.2 = .string value

instance (json : Json) : Decidable (∃ value, json = .string value) :=
  match json with
  | .string value => isTrue ⟨value, rfl⟩
  | .null | .bool _ | .integer _ | .real _ | .array _ | .object _ => isFalse nofun

instance (other : String × Json) : Decidable (Reference.OtherExpressible other) :=
  decidable_of_iff (TidyKey other.1 ∧ other.1 ∉ Reference.fieldNames ∧
      ∃ value, other.2 = .string value)
    ⟨fun h => ⟨h.1, h.2.1, h.2.2⟩, fun h => ⟨h.1, h.2, h.3⟩⟩

/-- A reference with a title on one line, authors on lines of their own, and further
members that are texts. -/
structure Reference.Expressible (reference : Reference) : Prop where
  title_ne : reference.title ≠ ""
  title_line : '\n' ∉ reference.title.toList
  author_ne : ∀ author ∈ reference.authors, author ≠ ""
  author : ∀ author ∈ reference.authors, Tidy author
  nodup : (Entries.names reference.others).Nodup
  other : ∀ other ∈ reference.others, Reference.OtherExpressible other

instance (reference : Reference) : Decidable reference.Expressible :=
  decidable_of_iff (reference.title ≠ "" ∧ '\n' ∉ reference.title.toList ∧
      (∀ author ∈ reference.authors, author ≠ "") ∧ (∀ author ∈ reference.authors, Tidy author) ∧
      (Entries.names reference.others).Nodup ∧
      ∀ other ∈ reference.others, Reference.OtherExpressible other)
    ⟨fun h => ⟨h.1, h.2.1, h.2.2.1, h.2.2.2.1, h.2.2.2.2.1, h.2.2.2.2.2⟩,
      fun h => ⟨h.1, h.2, h.3, h.4, h.5, h.6⟩⟩

namespace Override

/-- A name that is put in a slot: it is not blank and does not look like a header. -/
structure ReplacementExpressible (replacement : String) : Prop extends Tidy replacement where
  ne : replacement ≠ ""
  no_header : replacement.toList.getLast? ≠ some ':'

instance (replacement : String) : Decidable (ReplacementExpressible replacement) :=
  decidable_of_iff (Tidy replacement ∧ replacement ≠ "" ∧
      replacement.toList.getLast? ≠ some ':')
    ⟨fun h => ⟨h.1, h.2.1, h.2.2⟩, fun h => ⟨h.1, h.2, h.3⟩⟩

mutual

/-- An entry that can be read from its lines as the entry under `key`. -/
def Expressible (key : String) : Override → Prop
  | .default => key ≠ "" ∧ ':' ∉ key.toList
  | .nested children =>
      key ≠ "references" ∧ key ≠ "properties" ∧ BlockExpressible children
  | .swap replacement none => ':' ∉ key.toList ∧ ReplacementExpressible replacement
  | .swap replacement (some overrides) =>
      ':' ∉ key.toList ∧ ReplacementExpressible replacement ∧ overrides ≠ [] ∧
        BlockExpressible overrides
  | .references listed =>
      key = "references" ∧ ∀ reference ∈ listed, Reference.Expressible reference
  | .properties listed => key = "properties" ∧ Property.TableExpressible listed
  | .settings _ => False

/-- Entries under different tidy names that can be read from their lines. -/
def BlockExpressible : List (String × Override) → Prop
  | [] => True
  | (key, entry) :: rest =>
      key ∉ Entries.names rest ∧ Tidy key ∧ entry.Expressible key ∧ BlockExpressible rest

end

theorem BlockExpressible.nodup {entries : List (String × Override)}
    (h : BlockExpressible entries) : (Entries.names entries).Nodup := by
  induction entries with
  | nil => exact List.nodup_nil
  | cons entry rest ih =>
      obtain ⟨key, entry⟩ := entry
      rw [BlockExpressible] at h
      exact List.nodup_cons.mpr ⟨h.1, ih h.2.2.2⟩

mutual

/-- Whether an entry can be read from its lines is decidable. -/
def decExpressible (key : String) : (entry : Override) → Decidable (entry.Expressible key)
  | .default => inferInstanceAs (Decidable (key ≠ "" ∧ ':' ∉ key.toList))
  | .nested children =>
      have := decBlockExpressible children
      inferInstanceAs
        (Decidable (key ≠ "references" ∧ key ≠ "properties" ∧ BlockExpressible children))
  | .swap replacement none =>
      inferInstanceAs (Decidable (':' ∉ key.toList ∧ ReplacementExpressible replacement))
  | .swap replacement (some overrides) =>
      have := decBlockExpressible overrides
      have : Decidable (overrides ≠ []) := decidable_of_iff (overrides.isEmpty = false) (by simp)
      inferInstanceAs (Decidable (':' ∉ key.toList ∧ ReplacementExpressible replacement ∧
        overrides ≠ [] ∧ BlockExpressible overrides))
  | .references listed =>
      inferInstanceAs (Decidable
        (key = "references" ∧ ∀ reference ∈ listed, Reference.Expressible reference))
  | .properties listed =>
      inferInstanceAs (Decidable (key = "properties" ∧ Property.TableExpressible listed))
  | .settings _ => isFalse id

/-- Whether entries can be read from their lines is decidable. -/
def decBlockExpressible : (entries : List (String × Override)) →
    Decidable (BlockExpressible entries)
  | [] => isTrue trivial
  | (key, entry) :: rest =>
      have := decExpressible key entry
      have := decBlockExpressible rest
      inferInstanceAs (Decidable (key ∉ Entries.names rest ∧ Tidy key ∧ entry.Expressible key ∧
        BlockExpressible rest))

end

instance (entries : List (String × Override)) : Decidable (BlockExpressible entries) :=
  decBlockExpressible entries

end Override

/-- An architecture that can be read from its text. -/
structure Architecture.Expressible (name : String) (architecture : Architecture) : Prop where
  name : Tidy name
  entries_ne : architecture.entries ≠ []
  entries : Override.BlockExpressible architecture.entries

instance (name : String) (architecture : Architecture) :
    Decidable (architecture.Expressible name) :=
  decidable_of_iff (Tidy name ∧ architecture.entries ≠ [] ∧
      Override.BlockExpressible architecture.entries)
    ⟨fun h => ⟨h.1, h.2.1, h.2.2⟩, fun h => ⟨h.1, h.2, h.3⟩⟩

/-- Architectures under different names, each of which can be read from its text. -/
structure Architectures.Expressible (architectures : Architectures) : Prop where
  nodup : (Entries.names architectures).Nodup
  each : ∀ entry ∈ architectures, entry.2.Expressible entry.1

instance (architectures : Architectures) : Decidable architectures.Expressible :=
  decidable_of_iff ((Entries.names architectures).Nodup ∧
      ∀ entry ∈ architectures, entry.2.Expressible entry.1)
    ⟨fun h => ⟨h.1, h.2⟩, fun h => ⟨h.1, h.2⟩⟩

end ArchDiagram

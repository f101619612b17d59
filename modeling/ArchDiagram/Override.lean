/-
# Overrides

An architecture, and every override below it, is a list of named entries: a
component taken as it is, a block of further entries, something else put in a
slot, or one of the three sections. The name decides in JSON whether an entry is
a section. Main definitions: `Override`, its JSON form, `Override.replacements`.
-/

import ArchDiagram.Property
import ArchDiagram.Reference
import ArchDiagram.Setting

namespace ArchDiagram

/-- What stands under one name of an architecture or of an override. -/
inductive Override where
  /-- The component of this name as it is. -/
  | default
  /-- A block of entries. -/
  | nested (children : List (String × Override))
  /-- Put `replacement` in the slots of this class, with overrides of its own. -/
  | swap (replacement : String) (overrides : Option (List (String × Override)))
  | references (listed : List Reference)
  | properties (listed : List (String × Property))
  | settings (listed : List Setting)
deriving Repr, Inhabited

/-- Why a JSON value is no architecture, or an architecture has no text. -/
inductive StructureFault
  /-- The value is no object; its text is given. -/
  | notAnObject (found : String)
  /-- The pair under `key` does not start with a name. -/
  | unnamedSwap (key : String)
  /-- The second part of the pair under `key` is neither `null` nor an object. -/
  | unshapedOverrides (key : String)
  /-- The value under `key` has none of the shapes of an entry. -/
  | unshapedEntry (key : String)
  /-- The section under `key` cannot be read. -/
  | section (key : String)
  /-- The architecture has no entries. -/
  | noEntries (name : String)
  /-- A section stands under a name that is not its own. -/
  | misplacedSection (name key : String)
  /-- Settings have no text. -/
  | settingsInText (key : String)
deriving DecidableEq, Repr

namespace StructureFault

/-- The words for a fault. -/
def reason : StructureFault → String
  | .notAnObject found => s!"expected an object, found {found}"
  | .unnamedSwap key => s!"entry `{key}` must start with a component name"
  | .unshapedOverrides key => s!"entry `{key}` has non-object overrides"
  | .unshapedEntry key =>
      s!"entry `{key}` must be null, an object, or a [component, overrides] pair"
  | .section key => s!"`{key}`"
  | .noEntries name => s!"architecture `{name}` has no entries"
  | .misplacedSection name key => s!"{name} section stored under `{key}`"
  | .settingsInText key => s!"`{key}`: settings cannot be written in the text format"

/-- The message for a fault. -/
def message (fault : StructureFault) : String :=
  s!"Invalid architecture object: {fault.reason}"

end StructureFault

namespace Override

mutual

/-- Equality of two overrides is decidable. -/
def decEq : (a b : Override) → Decidable (a = b)
  | .default, .default => isTrue rfl
  | .nested a, .nested b =>
      match decEqEntries a b with
      | isTrue h => isTrue (by rw [h])
      | isFalse h => isFalse (by simp [h])
  | .swap r none, .swap s none =>
      if h : r = s then isTrue (by rw [h]) else isFalse (by simp [h])
  | .swap r (some a), .swap s (some b) =>
      match decEqEntries a b with
      | isTrue h => if hname : r = s then isTrue (by rw [h, hname]) else isFalse (by simp [hname])
      | isFalse h => isFalse (by simp [h])
  | .swap _ none, .swap _ (some _) | .swap _ (some _), .swap _ none => isFalse nofun
  | .references a, .references b =>
      if h : a = b then isTrue (by rw [h]) else isFalse (by simp [h])
  | .properties a, .properties b =>
      if h : a = b then isTrue (by rw [h]) else isFalse (by simp [h])
  | .settings a, .settings b =>
      if h : a = b then isTrue (by rw [h]) else isFalse (by simp [h])
  | .default, .nested _ | .default, .swap _ _ | .default, .references _ | .default, .properties _
  | .default, .settings _ | .nested _, .default | .nested _, .swap _ _ | .nested _, .references _
  | .nested _, .properties _ | .nested _, .settings _ | .swap _ _, .default | .swap _ _, .nested _
  | .swap _ _, .references _ | .swap _ _, .properties _ | .swap _ _, .settings _
  | .references _, .default | .references _, .nested _ | .references _, .swap _ _
  | .references _, .properties _ | .references _, .settings _ | .properties _, .default
  | .properties _, .nested _ | .properties _, .swap _ _ | .properties _, .references _
  | .properties _, .settings _ | .settings _, .default | .settings _, .nested _
  | .settings _, .swap _ _ | .settings _, .references _ | .settings _, .properties _ =>
      isFalse nofun

/-- Equality of two lists of entries is decidable. -/
def decEqEntries : (a b : List (String × Override)) → Decidable (a = b)
  | [], [] => isTrue rfl
  | [], _ :: _ | _ :: _, [] => isFalse nofun
  | (k, x) :: xs, (l, y) :: ys =>
      match decEq x y, decEqEntries xs ys with
      | isTrue h, isTrue hs =>
          if hkey : k = l then isTrue (by rw [h, hs, hkey]) else isFalse (by simp [hkey])
      | isFalse h, _ => isFalse (by simp [h])
      | _, isFalse hs => isFalse (by simp [hs])

end

instance : DecidableEq Override := decEq

/-! ## The JSON form -/

/-- Read a section; `null` stands for an empty one. -/
def sectionOfJson {α : Type} (key : String) (empty : α) (read? : Json → Option α) :
    Json → Except StructureFault α
  | .null => .ok empty
  | value =>
      match read? value with
      | some content => .ok content
      | none => .error (.section key)

mutual

/-- Read the entry under `key`. -/
def ofJson (key : String) (value : Json) : Except StructureFault Override :=
  if key = "references" then
    (sectionOfJson key [] (Json.list? Reference.ofJson?) value).map .references
  else if key = "properties" then
    (sectionOfJson key [] Property.tableOfJson? value).map .properties
  else if key = "settings" then
    (sectionOfJson key [] (Json.list? Setting.ofJson?) value).map .settings
  else
    match value with
    | .null => .ok .default
    | .object members => (entriesOfJson members).map .nested
    | .array (.string replacement :: .object members :: _) =>
        (entriesOfJson members).map fun overrides => .swap replacement (some overrides)
    | .array (.string replacement :: .null :: _) => .ok (.swap replacement none)
    | .array [.string replacement] => .ok (.swap replacement none)
    | .array (.string _ :: _ :: _) => .error (.unshapedOverrides key)
    | .array _ => .error (.unnamedSwap key)
    | .bool _ | .integer _ | .real _ | .string _ => .error (.unshapedEntry key)

/-- Read entries in order; the first fault counts. -/
def entriesOfJson : List (String × Json) → Except StructureFault (List (String × Override))
  | [] => .ok []
  | (key, value) :: rest =>
      match ofJson key value with
      | .error fault => .error fault
      | .ok entry => (entriesOfJson rest).map ((key, entry) :: ·)

end

mutual

/-- Write an entry. -/
def toJson : Override → Json
  | .default => .null
  | .nested children => .object (entriesToJson children)
  | .swap replacement none => .array [.string replacement, .null]
  | .swap replacement (some overrides) =>
      .array [.string replacement, .object (entriesToJson overrides)]
  | .references listed => .array (listed.map Reference.toJson)
  | .properties listed => Property.tableToJson listed
  | .settings listed => .array (listed.map Setting.toJson)

/-- Write entries in order. -/
def entriesToJson : List (String × Override) → List (String × Json)
  | [] => []
  | (key, entry) :: rest => (key, entry.toJson) :: entriesToJson rest

end

/-! ## Replacements -/

mutual

/-- The names an entry may put in a slot, at any depth. Only swaps put something
in a slot. -/
def replacements : Override → List String
  | .swap replacement none => [replacement]
  | .swap replacement (some overrides) => replacement :: replacementsIn overrides
  | .default | .nested _ | .references _ | .properties _ | .settings _ => []

/-- The names some entries may put in a slot, at any depth. -/
def replacementsIn : List (String × Override) → List String
  | [] => []
  | (_, entry) :: rest => entry.replacements ++ replacementsIn rest

end

end Override

end ArchDiagram

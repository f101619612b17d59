/-
# The fields of a JSON object

A record is written as an object whose members of certain names are its fields.
`Fields` sorts the members: a field must not be given twice, the other members
are merged and kept in order. Records that keep no other members may also be
written as the array of their fields in order.
-/

import ArchDiagram.Json.Basic

namespace ArchDiagram.Json

/-- The members of an object: the fields of a record and the others. -/
structure Fields where
  named : Entries Json
  others : Entries Json

namespace Fields

/-- Sort the members of an object by whether they are among the known fields. -/
def ofMembers? (known : List String) (members : List (String × Json)) : Option Fields :=
  let named := members.filter fun member => known.contains member.1
  let others := members.filter fun member => !known.contains member.1
  if (Entries.names named).Nodup then some ⟨named, Entries.collect (mergedMembers others)⟩ else none

/-- The fields of an object; its other members are kept. -/
def ofObject? (known : List String) : Json → Option Fields
  | .object members => ofMembers? known members
  | _ => none

/-- The fields of an object whose other members are of no interest, or of the
array of the fields in order, of which the last ones may be missing. -/
def ofRecord? (known : List String) : Json → Option Fields
  | .object members => ofMembers? known members
  | .array elements =>
      if elements.length ≤ known.length then some ⟨known.zip elements, []⟩ else none
  | _ => none

variable {α : Type}

/-- A field that has to be there. -/
def required? (fields : Fields) (name : String) (read? : Json → Option α) : Option α :=
  (fields.named.lookup name).bind read?

/-- A field that may be missing or `null`. -/
def optional? (fields : Fields) (name : String) (read? : Json → Option α) : Option (Option α) :=
  match fields.named.lookup name with
  | none | some .null => some none
  | some value => (read? value).map some

/-- A field that has a value of its own when it is missing. -/
def defaulted? (fields : Fields) (name : String) (default : α) (read? : Json → Option α) :
    Option α :=
  match fields.named.lookup name with
  | none => some default
  | some value => read? value

end Fields

variable {α : Type}

/-- The values of an array. -/
def list? (read? : Json → Option α) (value : Json) : Option (List α) :=
  value.elements?.bind (List.mapM read?)

/-- The values of an object under their names, repeated names merged. -/
def table? (read? : Json → Option α) : Json → Option (Entries α)
  | .object members =>
      (members.mapM fun member => (read? member.2).map (Prod.mk member.1)).map Entries.collect
  | _ => none

/-- The member of an optional field, if it has a value. -/
def optionalMember (name : String) (write : α → Json) (value : Option α) : List (String × Json) :=
  value.toList.map fun value => (name, write value)

/-- The member of a list, if it is not empty. -/
def listMember (name : String) (write : α → Json) (values : List α) : List (String × Json) :=
  if values.isEmpty then [] else [(name, .array (values.map write))]

end ArchDiagram.Json

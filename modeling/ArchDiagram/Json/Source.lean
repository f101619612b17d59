/-
# JSON texts as written

The tree of a JSON text before its values are looked at. A text must be well
formed throughout, but a numeral that is too large, a string with an unpaired
surrogate or too deep a nesting is only an error where a decoder looks: what a
decoder looks at is an `Interest`, and `Source.focus?` reads that part and drops
the rest.
-/

import ArchDiagram.Json.Token

namespace ArchDiagram.Json

/-- A JSON text as a tree of what was written. -/
inductive Source where
  | null
  | bool (value : Bool)
  | number (numeral : Numeral)
  | string (value : Option String)
  | array (elements : List Source)
  | object (members : List (Option String × Source))
deriving Inhabited

/-- The part of a JSON text a decoder looks at. -/
inductive Interest where
  /-- All of it. -/
  | whole
  /-- The members of these names of an object, or the elements of an array in
  this order. -/
  | record (fields : List (String × Interest))
  /-- This part of each element of an array. -/
  | list (element : Interest)
  /-- This part of each member of an object. -/
  | table (value : Interest)

namespace Interest

/-- The part of the element at `index` that is looked at. -/
def element : Interest → Nat → Interest
  | .record fields, index => (fields[index]?.map Prod.snd).getD .whole
  | .list element, _ => element
  | .whole, _ | .table _, _ => .whole

/-- The part of the member `name` that is looked at, if any is. -/
def member? : Interest → String → Option Interest
  | .record fields, name => fields.lookup name
  | .table value, _ => some value
  | .whole, _ | .list _, _ => some .whole

end Interest

/-! ## From tokens to the tree -/

namespace Source

/-- An array or an object whose closing bracket has not come yet; what is read
of it is in reverse. -/
inductive Opened
  | array (elements : List Source)
  | object (members : List (Option String × Source))
  | member (members : List (Option String × Source)) (name : Option String)

/-- What may come next. -/
inductive Awaited
  | value
  | firstElement
  | firstName
  | name
  | colon
  | separator
  | nothing (read : Source)

/-- The state of reading: the brackets that are open, innermost first, and what
may come next. -/
structure Reading where
  opened : List Opened
  awaited : Awaited

/-- A value has been read: it goes into the innermost open bracket. -/
def supply (opened : List Opened) (value : Source) : Option Reading :=
  match opened with
  | [] => some ⟨[], .nothing value⟩
  | .array elements :: outer => some ⟨.array (value :: elements) :: outer, .separator⟩
  | .member members name :: outer => some ⟨.object ((name, value) :: members) :: outer, .separator⟩
  | .object _ :: _ => none

/-- A token at a place where a value may start. -/
def startValue (opened : List Opened) : Token → Option Reading
  | .openArray => some ⟨.array [] :: opened, .firstElement⟩
  | .openObject => some ⟨.object [] :: opened, .firstName⟩
  | .null => supply opened .null
  | .bool value => supply opened (.bool value)
  | .number numeral => supply opened (.number numeral)
  | .string value => supply opened (.string value)
  | .closeArray | .closeObject | .comma | .colon => none

/-- A closing bracket. -/
def close : List Opened → Token → Option Reading
  | .array elements :: outer, .closeArray => supply outer (.array elements.reverse)
  | .object members :: outer, .closeObject => supply outer (.object members.reverse)
  | _, _ => none

/-- Read one token. -/
def Reading.step (reading : Reading) (token : Token) : Option Reading :=
  match reading.awaited, token with
  | .value, token => startValue reading.opened token
  | .firstElement, .closeArray => close reading.opened .closeArray
  | .firstElement, token => startValue reading.opened token
  | .firstName, .closeObject => close reading.opened .closeObject
  | .firstName, .string name | .name, .string name =>
      match reading.opened with
      | .object members :: outer => some ⟨.member members name :: outer, .colon⟩
      | _ => none
  | .colon, .colon => some ⟨reading.opened, .value⟩
  | .separator, .comma =>
      match reading.opened with
      | .array elements :: outer => some ⟨.array elements :: outer, .value⟩
      | .object members :: outer => some ⟨.object members :: outer, .name⟩
      | _ => none
  | .separator, token => close reading.opened token
  | _, _ => none

/-- The tree of a list of tokens. -/
def ofTokens? (tokens : List Token) : Option Source :=
  match tokens.foldlM Reading.step ⟨[], .value⟩ with
  | some ⟨_, .nothing read⟩ => some read
  | _ => none

/-- The tree of a text. -/
def ofText? (text : String) : Option Source :=
  (Token.all? text.toList).bind ofTokens?

/-! ## Looking at a part -/

mutual

/-- The value of the part of a tree that is looked at, nested at most `depth`
brackets deep. Members that are not looked at are left out. -/
def focus? (interest : Interest) (depth : Nat) : Source → Option Json
  | .null => some .null
  | .bool value => some (.bool value)
  | .number numeral => numeral.value?
  | .string value => value.map .string
  | .array elements =>
      match depth with
      | 0 => none
      | depth + 1 => (focusElements? interest depth 0 elements).map .array
  | .object members =>
      match depth with
      | 0 => none
      | depth + 1 => (focusMembers? interest depth members).map .object

/-- The elements of an array from `index` on. -/
def focusElements? (interest : Interest) (depth index : Nat) : List Source → Option (List Json)
  | [] => some []
  | element :: rest =>
      match focus? (interest.element index) depth element,
        focusElements? interest depth (index + 1) rest with
      | some value, some values => some (value :: values)
      | _, _ => none

/-- The members of an object that are looked at. -/
def focusMembers? (interest : Interest) (depth : Nat) :
    List (Option String × Source) → Option (List (String × Json))
  | [] => some []
  | (none, _) :: _ => none
  | (some name, member) :: rest =>
      match interest.member? name with
      | none => focusMembers? interest depth rest
      | some part =>
          match focus? part depth member, focusMembers? interest depth rest with
          | some value, some values => some ((name, value) :: values)
          | _, _ => none

end

end Source

/-- How many brackets deep a value may be nested. -/
def depthLimit : Nat := 127

/-- The part of a JSON text that is looked at, repeated names kept. -/
def read? (interest : Interest) (text : String) : Option Json :=
  (Source.ofText? text).bind (Source.focus? interest depthLimit)

/-- The value of a JSON text, repeated names merged. -/
def parse? (text : String) : Option Json :=
  (read? .whole text).map merged

end ArchDiagram.Json

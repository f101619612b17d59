/-
# Properties

A property is a value an architecture gives to a name, to be filled into the
labels of its views: a whole number of 64 bits with a sign, a binary64 number,
or a text.
-/

import ArchDiagram.Binary64.Layout
import ArchDiagram.Json.Fields

namespace ArchDiagram

/-- The value of a property. -/
inductive Property
  | integer (value : Int)
  | real (value : Binary64)
  | text (value : String)
deriving DecidableEq, Repr

namespace Property

/-- Whether an integer fits 64 bits with a sign. -/
def fits (value : Int) : Bool := decide (-Int.pow 2 63 ≤ value ∧ value < Int.pow 2 63)

/-- Read a property; a whole number that does not fit is rounded. -/
def ofJson? : Json → Option Property
  | .integer value => some (if fits value then .integer value else .real (Binary64.ofInt value))
  | .real value => some (.real value)
  | .string value => some (.text value)
  | _ => none

/-- Write a property. There is no JSON number for infinity. -/
def toJson : Property → Json
  | .integer value => .integer value
  | .real value => if value.isInfinite then .null else .real value
  | .text value => .string value

/-- A number in a label is positional, without a point if it is whole; a tie goes
up. -/
def layout : Layout where
  tie := .up
  positional _ := true
  wholePoint := false
  digitPoint := false
  plusSign := false
  infinity := "inf"

/-- The text that stands for a property in a label. -/
def display : Property → String
  | .integer value => toString value
  | .real value => String.ofList (layout.text value)
  | .text value => value

/-- Read properties by name. -/
def tableOfJson? (value : Json) : Option (Entries Property) :=
  Json.table? ofJson? value

/-- Write properties by name. -/
def tableToJson (properties : Entries Property) : Json :=
  .object (properties.map fun entry => (entry.1, entry.2.toJson))

end Property

end ArchDiagram

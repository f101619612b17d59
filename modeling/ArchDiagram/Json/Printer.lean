/-
# JSON texts of values

A value is written on one line without spaces, or with one member or element a
line and two spaces of indentation. Non-ASCII characters stand for themselves.
-/

import ArchDiagram.Binary64.Layout
import ArchDiagram.Json.Basic

namespace ArchDiagram.Json

/-- Numbers between `1e-5` and `1e16` are positional and keep a point; outside,
the power of ten has a sign. A tie goes to the even digit. -/
def layout : Layout where
  tie := .toEven
  positional power := decide (-5 ≤ power ∧ power ≤ 15)
  wholePoint := true
  digitPoint := false
  plusSign := true
  infinity := "null"

/-- The text of a real number; infinity has no numeral and is `null`. -/
def realText (x : Binary64) : String :=
  if x.isInfinite then "null" else String.ofList (layout.text x)

/-- A character between the quotes of a string. -/
def escapeChar (c : Char) : List Char :=
  match c with
  | '"' => ['\\', '"']
  | '\\' => ['\\', '\\']
  | '\x08' => ['\\', 'b']
  | '\x0c' => ['\\', 'f']
  | '\n' => ['\\', 'n']
  | '\r' => ['\\', 'r']
  | '\t' => ['\\', 't']
  | c =>
      if c.toNat < 0x20 then
        ['\\', 'u', '0', '0', Nat.digitChar (c.toNat / 16), Nat.digitChar (c.toNat % 16)]
      else [c]

/-- The text of a string. -/
def stringText (value : String) : String :=
  String.ofList ('"' :: (value.toList.flatMap escapeChar ++ ['"']))

/-- The text of a value that holds no others. -/
def scalarText : Json → String
  | .null => "null"
  | .bool value => if value then "true" else "false"
  | .integer value => toString value
  | .real value => realText value
  | .string value => stringText value
  | .array _ => "[]"
  | .object _ => "\x7b\x7d"

mutual

/-- The text of a value on one line. -/
def compact : Json → String
  | .array elements => "[" ++ ",".intercalate (compactElements elements) ++ "]"
  | .object members => "\x7b" ++ ",".intercalate (compactMembers members) ++ "\x7d"
  | .null => "null"
  | .bool value => scalarText (.bool value)
  | .integer value => scalarText (.integer value)
  | .real value => scalarText (.real value)
  | .string value => scalarText (.string value)

/-- The texts of the elements of an array. -/
def compactElements : List Json → List String
  | [] => []
  | element :: rest => compact element :: compactElements rest

/-- The texts of the members of an object. -/
def compactMembers : List (String × Json) → List String
  | [] => []
  | (name, value) :: rest => (stringText name ++ ":" ++ compact value) :: compactMembers rest

end

/-- The start of a line at some depth of nesting. -/
def lineStart (depth : Nat) : String :=
  "\n" ++ String.ofList (List.replicate (2 * depth) ' ')

/-- Parts in brackets, a line each; without parts the brackets stand alone. -/
def block (opening closing : String) (depth : Nat) (parts : List String) : String :=
  match parts with
  | [] => opening ++ closing
  | parts =>
      opening ++ ",".intercalate (parts.map (lineStart (depth + 1) ++ ·)) ++ lineStart depth ++ closing

mutual

/-- The text of a value at some depth of nesting, a line for every part. -/
def indented (depth : Nat) : Json → String
  | .array elements => block "[" "]" depth (indentedElements (depth + 1) elements)
  | .object members => block "\x7b" "\x7d" depth (indentedMembers (depth + 1) members)
  | .null => "null"
  | .bool value => scalarText (.bool value)
  | .integer value => scalarText (.integer value)
  | .real value => scalarText (.real value)
  | .string value => scalarText (.string value)

/-- The texts of the elements of an array. -/
def indentedElements (depth : Nat) : List Json → List String
  | [] => []
  | element :: rest => indented depth element :: indentedElements depth rest

/-- The texts of the members of an object. -/
def indentedMembers (depth : Nat) : List (String × Json) → List String
  | [] => []
  | (name, value) :: rest =>
      (stringText name ++ ": " ++ indented depth value) :: indentedMembers depth rest

end

/-- The text of a value, a line for every part. -/
def pretty (value : Json) : String := indented 0 value

end ArchDiagram.Json

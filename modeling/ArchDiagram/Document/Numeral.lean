/-
# Numbers in documents

The value of a property is a number if all of it is spelled as one: a sign,
digits with a fraction, and a power of ten, where the sign, the power and one of
the two sides of the point may be missing. Without a point a whole number is
meant if it fits 64 bits; otherwise the nearest binary64 number is.
-/

import ArchDiagram.Property

namespace ArchDiagram.Document

/-- A number as it is spelled in a document. -/
structure Numeral where
  negative : Bool
  /-- The digits before the point. -/
  whole : List Char
  /-- The digits after the point, if there is one. -/
  fraction : Option (List Char)
  /-- The power of ten, if there is one: whether it is negative, and its digits. -/
  power : Option (Bool × List Char)
deriving DecidableEq, Repr

namespace Numeral

/-- The sign in front, and the text behind it; without a sign it is plus. -/
def splitSign : List Char → Bool × List Char
  | '-' :: rest => (true, rest)
  | '+' :: rest => (false, rest)
  | text => (false, text)

/-- The power of ten, if the whole text is one: a letter `e`, a sign and digits. -/
def power? : List Char → Option (Option (Bool × List Char))
  | [] => some none
  | c :: rest =>
      let (negative, digits) := splitSign rest
      if (c = 'e' ∨ c = 'E') ∧ digits ≠ [] ∧ digits.all Char.isDigit then some (some (negative, digits))
      else none

/-- The point and the digits behind it, and the text behind those. -/
def splitFraction : List Char → Option (List Char) × List Char
  | '.' :: rest => (some (rest.takeWhile Char.isDigit), rest.dropWhile Char.isDigit)
  | text => (none, text)

/-- The numeral a text spells. -/
def ofText? (text : List Char) : Option Numeral := do
  let (negative, unsigned) := splitSign text
  let whole := unsigned.takeWhile Char.isDigit
  let (fraction, rest) := splitFraction (unsigned.dropWhile Char.isDigit)
  if whole = [] ∧ fraction.getD [] = [] then none
  else
    let power ← power? rest
    return { negative, whole, fraction, power }

/-- The binary64 number nearest to a numeral. -/
def toBinary64 (numeral : Numeral) : Binary64 :=
  let fraction := numeral.fraction.getD []
  let power : Int :=
    match numeral.power with
    | none => 0
    | some (negative, digits) =>
        let magnitude : Int := Decimal.ofDigits digits
        if negative then -magnitude else magnitude
  Decimal.toBinary64 numeral.negative
    ⟨Decimal.ofDigits (numeral.whole ++ fraction), power - fraction.length⟩

/-- The whole number of a numeral that is only a sign and digits. -/
def integer? (numeral : Numeral) : Option Int :=
  match numeral.fraction, numeral.power with
  | none, none =>
      let magnitude : Int := Decimal.ofDigits numeral.whole
      some (if numeral.negative then -magnitude else magnitude)
  | _, _ => none

/-- The property a numeral stands for. Without a point, digits alone are taken as
they are if they fit, and otherwise the nearest binary64 number counts if it is
whole and fits. -/
def toProperty (numeral : Numeral) : Property :=
  let nearest := numeral.toBinary64
  match numeral.integer?.filter Property.fits with
  | some value => .integer value
  | none =>
      match numeral.fraction, nearest.toInt? with
      | none, some value =>
          if value.natAbs < Nat.pow 2 63 then .integer value else .real nearest
      | _, _ => .real nearest

end Numeral

end ArchDiagram.Document

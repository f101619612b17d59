/-
# Numbers in JSON texts

A numeral is read digit by digit into a significand of 64 bits. Digits that no
longer fit are dropped: each dropped digit before the point raises the power of
ten by one, dropped digits after it leave the power alone. The significand is
then rounded to binary64 and multiplied or divided by powers of ten up to
`10 ^ 308`, rounding each time. The result may therefore differ in its last
digit from the number nearest to the numeral. A numeral without point and power
that fits 64 bits stays a whole number, except the integer minus zero.
-/

import ArchDiagram.Binary64.Decimal
import ArchDiagram.Json.Basic

namespace ArchDiagram.Json

/-- A number as it is spelled. -/
structure Numeral where
  negative : Bool
  /-- The digits before the point. -/
  whole : List Char
  /-- The digits after the point, if there is one. -/
  fraction : Option (List Char)
  /-- The power of ten, if there is one: whether it is negative, and its digits. -/
  power : Option (Bool × List Char)
deriving DecidableEq, Repr

namespace Numeral

/-- Append digits to a significand as long as it stays below `2 ^ 64`; the digits
that no longer fit are left over. -/
def absorb (significand : Nat) : List Char → Nat × List Char
  | [] => (significand, [])
  | c :: rest =>
      let next := 10 * significand + (c.toNat - '0'.toNat)
      if next < Nat.pow 2 64 then absorb next rest else (significand, c :: rest)

/-- The number nearest to a power of ten. -/
def powerOfTen (power : Nat) : Binary64 := Decimal.toBinary64 false ⟨1, power⟩

/-- Divide by `10 ^ places` in steps of at most 308 places. -/
def scaleDown (x : Binary64) (places : Nat) : Binary64 :=
  if places ≤ 308 then x.div (powerOfTen places)
  else if x.isZero then x
  else scaleDown (x.div (powerOfTen 308)) (places - 308)
termination_by places

/-- Multiply by `10 ^ power`; there is no result if it would be infinite. -/
def scale? (x : Binary64) (power : Int) : Option Binary64 :=
  if power < 0 then some (scaleDown x power.natAbs)
  else if 308 < power then
    if x.isZero then some x else none
  else
    let product := x.mul (powerOfTen power.natAbs)
    if product.isInfinite then none else some product

/-- The number of a significand times a power of ten, to which the power of the
numeral is added. A power of `2 ^ 31` or more is not looked at any closer. -/
def scaled? (numeral : Numeral) (significand : Nat) (exponent : Int) : Option Binary64 :=
  let x := Binary64.ofNat significand
  match numeral.power with
  | none => scale? x exponent
  | some (negative, digits) =>
      let power := Decimal.ofDigits digits
      if power < Nat.pow 2 31 then scale? x (if negative then exponent - power else exponent + power)
      else if significand ≠ 0 ∧ negative = false then none
      else some (Binary64.zero false)

/-- The value of a numeral; there is none if it is too large for binary64. -/
def value? (numeral : Numeral) : Option Json :=
  let whole := absorb 0 numeral.whole
  let signed (x : Option Binary64) : Option Json :=
    x.map fun magnitude => .real (magnitude.withSign numeral.negative)
  match numeral.fraction with
  | some digits =>
      let all := absorb whole.1 digits
      signed (numeral.scaled? all.1
        ((whole.2.length : Int) - ((digits.length : Int) - all.2.length)))
  | none =>
      if numeral.power.isSome || !whole.2.isEmpty then
        signed (numeral.scaled? whole.1 whole.2.length)
      else if numeral.negative = false then some (.integer whole.1)
      else if whole.1 = 0 ∨ Nat.pow 2 63 < whole.1 then signed (some (Binary64.ofNat whole.1))
      else some (.integer (-(whole.1 : Int)))

end Numeral

end ArchDiagram.Json

/-
# Decimals

A decimal is a whole coefficient times a power of ten. It is read as the nearest
binary64 number. Trailing zeros of the coefficient are moved into the power
first, so that decimals of equal value read alike.
-/

import ArchDiagram.Binary64.Basic

namespace ArchDiagram

/-- The number `coefficient * 10 ^ exponent`. -/
structure Decimal where
  coefficient : Nat
  exponent : Int
deriving DecidableEq, Repr

namespace Decimal

/-- The decimal digits of a natural number, most significant first. -/
def digits (n : Nat) : List Char := Nat.toDigits 10 n

/-- The natural number a list of decimal digits spells. -/
def ofDigits (digits : List Char) : Nat :=
  digits.foldl (fun value c => 10 * value + (c.toNat - '0'.toNat)) 0

/-- Move the trailing zeros of the coefficient into the exponent. -/
def strip (coefficient : Nat) (exponent : Int) : Decimal :=
  if coefficient ≠ 0 ∧ coefficient % 10 = 0 then strip (coefficient / 10) (exponent + 1)
  else ⟨coefficient, exponent⟩
termination_by coefficient
decreasing_by omega

/-- The binary64 number nearest to a decimal. A decimal of more than 310 places
before the point is beyond the largest finite number; one with more than 330
zeros after the point is nearer to zero than to the least positive number. -/
def toBinary64 (negative : Bool) (d : Decimal) : Binary64 :=
  let d := strip d.coefficient d.exponent
  let places : Int := (digits d.coefficient).length + d.exponent
  if d.coefficient = 0 then Binary64.zero negative
  else if 310 < places then Binary64.infinite negative
  else if places < -330 then Binary64.zero negative
  else
    Binary64.ofRatio negative (d.coefficient * Nat.pow 10 d.exponent.toNat)
      (Nat.pow 10 (-d.exponent).toNat)

end Decimal

end ArchDiagram

/-
# Shortest decimals

A binary64 number is written with the fewest digits that read back as the same
number, and among those with the ones nearest to it. For each count of digits
from one to seventeen the two neighbours of the number on that decimal grid are
tried; the first grid with a neighbour that reads back decides. When both
neighbours read back and are equally near, the reader of the output decides
which is taken, hence the parameter `Tie`.
-/

import ArchDiagram.Binary64.Decimal

namespace ArchDiagram

/-- Which of two equally near decimals is taken. -/
inductive Tie
  /-- The one whose last digit is even. -/
  | toEven
  /-- The greater one. -/
  | up
deriving DecidableEq, Repr

namespace Binary64

/-- The greatest power of ten, as an exponent, that is at most a positive quotient. -/
def floorLog10 (numerator denominator : Nat) : Int :=
  let guess : Int :=
    ((Decimal.digits numerator).length : Int) - (Decimal.digits denominator).length
  if denominator * Nat.pow 10 guess.toNat ≤ numerator * Nat.pow 10 (-guess).toNat then guess
  else guess - 1

/-- Whether a decimal reads back as the magnitude of `x`. -/
def readsBack (x : Binary64) (d : Decimal) : Bool :=
  (d.toBinary64 false).rank == x.rank

/-- The decimal on the grid of multiples of `10 ^ power` that reads back as `x`
and is nearest to it, if there is one. -/
def onGrid? (tie : Tie) (x : Binary64) (power : Int) : Option Decimal :=
  let numerator := x.numerator * Nat.pow 10 (-power).toNat
  let denominator := x.denominator * Nat.pow 10 power.toNat
  let below : Decimal := ⟨numerator / denominator, power⟩
  let above : Decimal := ⟨numerator / denominator + 1, power⟩
  let twice := 2 * (numerator % denominator)
  match x.readsBack below, x.readsBack above with
  | false, false => none
  | true, false => some below
  | false, true => some above
  | true, true =>
      if twice < denominator then some below
      else if denominator < twice then some above
      else
        match tie with
        | .toEven => some (if below.coefficient % 2 = 0 then below else above)
        | .up => some above

/-- The exact value of a magnitude as a decimal. -/
def exactDecimal (x : Binary64) : Decimal :=
  ⟨x.significand * Nat.pow 2 x.exponent.toNat * Nat.pow 5 (-x.exponent).toNat,
    -((-x.exponent).toNat : Int)⟩

/-- The shortest decimal that reads back as the magnitude of `x`, without
trailing zeros. -/
def shortest (tie : Tie) (x : Binary64) : Decimal :=
  let top := floorLog10 x.numerator x.denominator
  let grids := (List.range 17).map fun (n : Nat) => top - n
  let found := (grids.findSome? (onGrid? tie x)).getD x.exactDecimal
  Decimal.strip found.coefficient found.exponent

end Binary64

end ArchDiagram

/-
# Binary floating point of 64 bits

The numbers of the binary64 format except the not-a-numbers. A magnitude is
given by its place in the increasing list of all magnitudes: 0 comes first, the
subnormal magnitudes follow, then the normal ones, and infinity is last. The
place of a magnitude with significand `m` and exponent `e` is
`(e + 1074) * 2 ^ 52 + m`, so that rounding a significand up to the next power of
two moves to the next exponent by itself, and from the largest finite magnitude
to infinity.
-/

namespace ArchDiagram

/-- A number of the binary64 format, its magnitude given by its place in the
increasing list of magnitudes. -/
structure Binary64 where
  /-- Whether the sign is minus; zero has both signs. -/
  negative : Bool
  /-- The place of the magnitude. -/
  rank : Nat
  rank_le : rank ≤ 2047 * Nat.pow 2 52
deriving DecidableEq, Repr

namespace Binary64

/-- The place of infinity, the last one. -/
def infiniteRank : Nat := 2047 * Nat.pow 2 52

/-- The number with the magnitude at `rank`, or infinity if there is none. -/
def ofRank (negative : Bool) (rank : Nat) : Binary64 :=
  ⟨negative, min rank infiniteRank, Nat.min_le_right _ _⟩

/-- Zero, with a sign. -/
def zero (negative : Bool) : Binary64 := ofRank negative 0

/-- Infinity, with a sign. -/
def infinite (negative : Bool) : Binary64 := ofRank negative infiniteRank

/-- Whether a number is zero of either sign. -/
def isZero (x : Binary64) : Bool := x.rank == 0

/-- Whether a number is infinite. -/
def isInfinite (x : Binary64) : Bool := x.rank == infiniteRank

/-- The exponent of a magnitude: one more than the place asks for in the
subnormal range, where the spacing is that of the least normal magnitudes. -/
def exponent (x : Binary64) : Int := max (x.rank / Nat.pow 2 52 : Nat) 1 - 1075

/-- The significand of a magnitude, below `2 ^ 53`. -/
def significand (x : Binary64) : Nat :=
  if x.rank < Nat.pow 2 52 then x.rank else Nat.pow 2 52 + x.rank % Nat.pow 2 52

/-- The magnitude is `numerator / denominator`. Infinity counts as `2 ^ 1024`. -/
def numerator (x : Binary64) : Nat := x.significand * Nat.pow 2 x.exponent.toNat

/-- The magnitude is `numerator / denominator`. -/
def denominator (x : Binary64) : Nat := Nat.pow 2 (-x.exponent).toNat

/-! ## Rounding -/

/-- The whole number nearest to a quotient, the even one of two equally near. -/
def roundDiv (numerator denominator : Nat) : Nat :=
  let quotient := numerator / denominator
  let twice := 2 * (numerator % denominator)
  if twice < denominator then quotient
  else if denominator < twice then quotient + 1
  else quotient + quotient % 2

/-- The greatest power of two, as an exponent, that is at most a positive quotient. -/
def floorLog2 (numerator denominator : Nat) : Int :=
  let guess : Int := (numerator.log2 : Int) - denominator.log2
  if denominator * Nat.pow 2 guess.toNat ≤ numerator * Nat.pow 2 (-guess).toNat then guess
  else guess - 1

/-- The number nearest to a quotient, the one with an even significand of two
equally near. -/
def ofRatio (negative : Bool) (numerator denominator : Nat) : Binary64 :=
  if numerator = 0 then zero negative
  else if denominator = 0 then infinite negative
  else
    let exponent := max (floorLog2 numerator denominator - 52) (-1074)
    let significand :=
      roundDiv (numerator * Nat.pow 2 (-exponent).toNat) (denominator * Nat.pow 2 exponent.toNat)
    ofRank negative ((exponent + 1074).toNat * Nat.pow 2 52 + significand)

/-- The number nearest to a natural number. -/
def ofNat (n : Nat) : Binary64 := ofRatio false n 1

/-- The number nearest to an integer. -/
def ofInt (n : Int) : Binary64 := ofRatio (n < 0) n.natAbs 1

/-- The number nearest to a product. -/
def mul (x y : Binary64) : Binary64 :=
  ofRatio (x.negative != y.negative) (x.numerator * y.numerator) (x.denominator * y.denominator)

/-- The number nearest to a quotient. -/
def div (x y : Binary64) : Binary64 :=
  ofRatio (x.negative != y.negative) (x.numerator * y.denominator) (x.denominator * y.numerator)

/-- The same magnitude with the given sign. -/
def withSign (x : Binary64) (negative : Bool) : Binary64 := { x with negative := negative }

/-- The integer a finite number is equal to, if there is one. -/
def toInt? (x : Binary64) : Option Int :=
  if x.isInfinite then none
  else if x.numerator % x.denominator = 0 then
    let magnitude : Int := (x.numerator / x.denominator : Nat)
    some (if x.negative then -magnitude else magnitude)
  else none

theorem roundDiv_mul (n : Nat) {denominator : Nat} (h : 0 < denominator) :
    roundDiv (n * denominator) denominator = n := by
  simp [roundDiv, Nat.mul_div_cancel n h, h]

end Binary64

end ArchDiagram

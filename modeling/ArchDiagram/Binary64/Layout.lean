/-
# Layout of a number

How the digits of a binary64 number are set out: positionally, or as a digit
with a fraction and a power of ten. Where one notation ends and the other
begins, and how each is spelled, is the decision of the format that writes the
number and is collected in one record, `Layout`.
-/

import ArchDiagram.Binary64.Shortest

namespace ArchDiagram

/-- The decisions of a format about the text of a number. -/
structure Layout where
  /-- Which of two equally near shortest decimals is written. -/
  tie : Tie
  /-- Whether a number whose leading digit stands for this power of ten is
  written positionally. -/
  positional : Int → Bool
  /-- Whether a whole number in positional notation keeps `.0`. -/
  wholePoint : Bool
  /-- Whether a single digit before a power of ten keeps `.0`. -/
  digitPoint : Bool
  /-- Whether a power of ten that is not negative has a plus sign. -/
  plusSign : Bool
  /-- The text of infinity, without its sign. -/
  infinity : String

namespace Layout

/-- Digits with the point after the first `places` of them; zeros fill up on
either side. -/
def positionalText (wholePoint : Bool) (digits : List Char) (places : Int) : List Char :=
  let whole := places.toNat
  if places ≤ 0 then '0' :: '.' :: (List.replicate (-places).toNat '0' ++ digits)
  else if digits.length ≤ whole then
    digits ++ List.replicate (whole - digits.length) '0' ++ (if wholePoint then ['.', '0'] else [])
  else digits.take whole ++ '.' :: digits.drop whole

/-- The first digit, the others as its fraction, and the power of ten of the
first digit. -/
def scientificText (layout : Layout) (digits : List Char) (power : Int) : List Char :=
  let fraction :=
    match digits.drop 1 with
    | [] => if layout.digitPoint then ['.', '0'] else []
    | rest => '.' :: rest
  let sign := if power < 0 then ['-'] else if layout.plusSign then ['+'] else []
  digits.take 1 ++ fraction ++ 'e' :: (sign ++ Decimal.digits power.natAbs)

/-- The text of the magnitude of a number. -/
def magnitudeText (layout : Layout) (x : Binary64) : List Char :=
  if x.isInfinite then layout.infinity.toList
  else if x.isZero then '0' :: (if layout.wholePoint then ['.', '0'] else [])
  else
    let shortest := x.shortest layout.tie
    let digits := Decimal.digits shortest.coefficient
    let places : Int := digits.length + shortest.exponent
    if layout.positional (places - 1) then positionalText layout.wholePoint digits places
    else layout.scientificText digits (places - 1)

/-- The text of a number. -/
def text (layout : Layout) (x : Binary64) : List Char :=
  (if x.negative then ['-'] else []) ++ layout.magnitudeText x

end Layout

end ArchDiagram

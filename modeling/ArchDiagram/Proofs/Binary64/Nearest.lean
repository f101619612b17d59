/-
# Rounding to the nearest number

A decimal is read as a number than which no other is nearer to it; infinity counts as
`2 ^ 1024` (`Decimal.isNearest_toBinary64`). Rounding puts a quotient on a scale on which its
significand has the leading bit, or on the least scale (`Rounds`). The numbers of the format
that lie on this scale are a grid, and rounding takes the nearest place of it; the numbers off
the grid are below the least one of it, and so is no quotient on this scale. That nothing is
nearer is all that later proofs need to know of rounding: it fixes the numbers of the format
(`IsNearest.value_eq`) and leads across no power of two (`IsNearest.two_pow_le`).
-/

import ArchDiagram.Proofs.Binary64.Quotients

namespace ArchDiagram

namespace Binary64

/-- The rational a number stands for; infinity counts as `2 ^ 1024`. -/
def value (x : Binary64) : ℚ := if x.negative then -x.magnitude else x.magnitude

/-- No number is nearer to a rational. -/
def IsNearest (x : Binary64) (target : ℚ) : Prop :=
  ∀ y : Binary64, |x.value - target| ≤ |y.value - target|

theorem magnitude_nonneg (x : Binary64) : 0 ≤ x.magnitude := by
  unfold magnitude
  positivity

@[simp]
theorem abs_value (x : Binary64) : |x.value| = x.magnitude := by
  unfold value
  split
  · rw [abs_neg, abs_of_nonneg x.magnitude_nonneg]
  · exact abs_of_nonneg x.magnitude_nonneg

/-- The sign of a number nearest to a rational is that of the rational. -/
theorem isNearest_of_magnitude {x : Binary64} {target : ℚ} (hnonneg : 0 ≤ target)
    (h : ∀ y : Binary64, |x.magnitude - target| ≤ |y.magnitude - target|) :
    x.IsNearest (if x.negative then -target else target) := by
  intro y
  have hnear := h y
  have hsame : |x.value - (if x.negative then -target else target)| = |x.magnitude - target| := by
    unfold value
    split
    · rw [← abs_neg, neg_sub, sub_neg_eq_add, neg_add_eq_sub, abs_sub_comm]
    · rfl
  have hother : |y.magnitude - target| ≤ |y.value - (if x.negative then -target else target)| := by
    have hdistance := abs_abs_sub_abs_le y.value (if x.negative then -target else target)
    have htarget : |if x.negative then -target else target| = target := by
      split
      · rw [abs_neg, abs_of_nonneg hnonneg]
      · exact abs_of_nonneg hnonneg
    rwa [abs_value, htarget] at hdistance
  rw [hsame]
  exact hnear.trans hother

/-! ## The nearest place on a grid -/

/-- Rounding a quotient misses it by at most one half. -/
theorem abs_roundDiv_sub_le (numerator : ℕ) {denominator : ℕ} (h : 0 < denominator) :
    |(roundDiv numerator denominator : ℚ) - numerator / denominator| ≤ 1 / 2 := by
  have hden : (0 : ℚ) < denominator := by exact_mod_cast h
  have hsplit : (numerator : ℚ) =
      denominator * (numerator / denominator : ℕ) + (numerator % denominator : ℕ) := by
    exact_mod_cast (Nat.div_add_mod numerator denominator).symm
  have hrest : ((numerator % denominator : ℕ) : ℚ) < denominator := by
    exact_mod_cast Nat.mod_lt numerator h
  have hnonneg : (0 : ℚ) ≤ (numerator % denominator : ℕ) := Nat.cast_nonneg _
  rw [sub_div' hden.ne', abs_div, abs_of_pos hden, div_le_iff₀ hden, abs_le]
  -- what is left over is at most one half of the denominator on the side that is taken
  unfold roundDiv
  extract_lets quotient twice
  split
  · rename_i hless
    have hhalf : (2 : ℚ) * (numerator % denominator : ℕ) < denominator := by exact_mod_cast hless
    constructor <;> linarith
  split
  · rename_i hmore
    have hhalf : (denominator : ℚ) < 2 * (numerator % denominator : ℕ) := by exact_mod_cast hmore
    push_cast
    constructor <;> linarith
  · rename_i hnotLess hnotMore
    have hhalf : (2 : ℚ) * (numerator % denominator : ℕ) = denominator := by
      exact_mod_cast le_antisymm (not_lt.mp hnotMore) (not_lt.mp hnotLess)
    rcases Nat.mod_two_eq_zero_or_one quotient with heven | hodd
    · rw [heven, add_zero]
      constructor <;> linarith
    · rw [hodd]
      push_cast
      constructor <;> linarith

/-- What is within one half of a rational is at least as near as any other whole number. -/
theorem abs_sub_le_of_half {nearest : ℕ} {target : ℚ} (h : |(nearest : ℚ) - target| ≤ 1 / 2)
    (other : ℕ) : |(nearest : ℚ) - target| ≤ |(other : ℚ) - target| := by
  rcases eq_or_ne other nearest with rfl | hne
  · exact le_rfl
  · have hapart : (1 : ℚ) ≤ |(other : ℚ) - nearest| := by
      have hone : (1 : ℤ) ≤ |(other : ℤ) - nearest| := Int.one_le_abs (by omega)
      exact_mod_cast hone
    have htriangle := abs_sub_le (other : ℚ) target nearest
    rw [abs_sub_comm target] at htriangle
    linarith

/-- The same on the grid of the multiples of a power of two. -/
theorem abs_mul_zpow_sub_le {nearest : ℕ} {target : ℚ} {exponent : ℤ}
    (h : |(nearest : ℚ) - target / 2 ^ exponent| ≤ 1 / 2) (other : ℕ) :
    |(nearest : ℚ) * 2 ^ exponent - target| ≤ |(other : ℚ) * 2 ^ exponent - target| := by
  have hscale : (0 : ℚ) < 2 ^ exponent := by positivity
  have hexpand (place : ℕ) : |(place : ℚ) * 2 ^ exponent - target| =
      |(place : ℚ) - target / 2 ^ exponent| * 2 ^ exponent := by
    rw [← abs_of_pos hscale, ← abs_mul, abs_of_pos hscale, sub_mul, div_mul_cancel₀ _ hscale.ne']
  rw [hexpand, hexpand]
  exact mul_le_mul_of_nonneg_right (abs_sub_le_of_half h other) hscale.le

/-! ## Rounding a quotient -/

/-- A significand on the scale that rounding takes for a rational: the scale is the least one,
or the significand gets its leading bit. -/
structure Rounds (target : ℚ) (exponent significand : ℕ) : Prop where
  half : |(significand : ℚ) - target / 2 ^ ((exponent : ℤ) - 1074)| ≤ 1 / 2
  lower : exponent = 0 ∨ 2 ^ ((exponent : ℤ) - 1022) ≤ target
  upper : target < 2 ^ ((exponent : ℤ) - 1021)

variable {target : ℚ} {exponent significand : ℕ}

theorem two_zpow_add_div (power scale : ℤ) : (2 : ℚ) ^ (power + scale) / 2 ^ scale = 2 ^ power := by
  rw [zpow_add₀ two_ne_zero, mul_div_cancel_right₀ _ (by positivity)]

theorem Rounds.le_two_pow (h : Rounds target exponent significand) : significand ≤ 2 ^ 53 := by
  have hscale : (0 : ℚ) < 2 ^ ((exponent : ℤ) - 1074) := by positivity
  have hupper : target / 2 ^ ((exponent : ℤ) - 1074) < 2 ^ (53 : ℤ) := by
    rw [← two_zpow_add_div 53 ((exponent : ℤ) - 1074), div_lt_div_iff_of_pos_right hscale,
      show (53 : ℤ) + (exponent - 1074) = exponent - 1021 by ring]
    exact h.upper
  have hless : (significand : ℚ) < (2 ^ 53 + 1 : ℕ) := by
    have hhalf := (abs_le.mp h.half).2
    push_cast
    rw [zpow_ofNat] at hupper
    linarith
  exact Nat.le_of_lt_succ (by exact_mod_cast hless)

theorem Rounds.two_pow_le (h : Rounds target exponent significand) :
    exponent = 0 ∨ 2 ^ 52 ≤ significand := by
  refine h.lower.imp_right fun hlower => ?_
  have hscale : (0 : ℚ) < 2 ^ ((exponent : ℤ) - 1074) := by positivity
  have hbelow : 2 ^ (52 : ℤ) ≤ target / 2 ^ ((exponent : ℤ) - 1074) := by
    rw [← two_zpow_add_div 52 ((exponent : ℤ) - 1074), div_le_div_iff_of_pos_right hscale,
      show (52 : ℤ) + (exponent - 1074) = exponent - 1022 by ring]
    exact hlower
  have hmore : ((2 ^ 52 : ℕ) : ℚ) < (significand + 1 : ℕ) := by
    have hhalf := (abs_le.mp h.half).1
    push_cast
    rw [zpow_ofNat] at hbelow
    linarith
  exact Nat.le_of_lt_succ (by exact_mod_cast hmore)

/-- A number is on the grid of a scale, or below the numbers with a leading bit there. -/
theorem exists_magnitude_eq_or_lt (x : Binary64) (scale : ℤ) :
    (∃ place : ℕ, x.magnitude = place * 2 ^ scale) ∨
      x.magnitude < 2 ^ (52 + scale) ∧ -1074 < scale := by
  by_cases hscale : scale ≤ x.exponent
  · refine Or.inl ⟨x.significand * 2 ^ (x.exponent - scale).toNat, ?_⟩
    have hpower : (2 : ℚ) ^ x.exponent = 2 ^ (x.exponent - scale).toNat * 2 ^ scale := by
      rw [← zpow_natCast, ← zpow_add₀ two_ne_zero]
      congr 1
      omega
    rw [magnitude, hpower]
    push_cast
    ring
  · have hexponent : -1074 ≤ x.exponent := by
      unfold Binary64.exponent
      omega
    refine Or.inr ⟨?_, by omega⟩
    calc x.magnitude < 2 ^ (53 : ℤ) * 2 ^ x.exponent := by
          have hsignificand := x.significand_lt
          unfold magnitude
          gcongr
          exact_mod_cast hsignificand
      _ = 2 ^ (53 + x.exponent) := (zpow_add₀ two_ne_zero _ _).symm
      _ ≤ 2 ^ (52 + scale) := zpow_le_zpow_right₀ (by norm_num) (by omega)

/-- No number is nearer than the place that rounding takes. -/
theorem Rounds.abs_sub_le (h : Rounds target exponent significand) (y : Binary64) :
    |(significand : ℚ) * 2 ^ ((exponent : ℤ) - 1074) - target| ≤ |y.magnitude - target| := by
  have hgrid := abs_mul_zpow_sub_le h.half
  rcases y.exists_magnitude_eq_or_lt ((exponent : ℤ) - 1074) with ⟨place, hplace⟩ | ⟨hless, hscale⟩
  · rw [hplace]
    exact hgrid place
  · -- a number off the grid is below the least one of this scale, which is on the grid
    have hlower := h.lower.resolve_left (by omega)
    have hleast := hgrid (2 ^ 52)
    have hcorner : ((2 ^ 52 : ℕ) : ℚ) * 2 ^ ((exponent : ℤ) - 1074) =
        2 ^ ((exponent : ℤ) - 1022) := by
      rw [show (exponent : ℤ) - 1022 = 52 + (exponent - 1074) by ring, zpow_add₀ two_ne_zero]
      norm_num
    have hbelow : y.magnitude < 2 ^ ((exponent : ℤ) - 1022) := by
      rwa [show (exponent : ℤ) - 1022 = 52 + (exponent - 1074) by ring]
    rw [hcorner, abs_of_nonpos (sub_nonpos.mpr hlower)] at hleast
    rw [abs_of_nonpos (sub_nonpos.mpr (hbelow.le.trans hlower))]
    linarith

variable {numerator denominator : ℕ}

/-- Rounding a quotient takes its nearest place. -/
theorem exists_rounds (negative : Bool) (hnum : 0 < numerator) (hden : 0 < denominator) :
    ∃ exponent significand, Rounds (numerator / denominator) exponent significand ∧
      ofRatio negative numerator denominator =
        ofRank negative (exponent * 2 ^ 52 + significand) := by
  obtain ⟨hlow, hhigh⟩ := floorLog2_spec hnum hden
  have hunfold : ofRatio negative numerator denominator =
      let scale := max (floorLog2 numerator denominator - 52) (-1074)
      ofRank negative ((scale + 1074).toNat * 2 ^ 52 +
        roundDiv (numerator * 2 ^ (-scale).toNat) (denominator * 2 ^ scale.toNat)) := by
    simp only [ofRatio, hnum.ne', hden.ne', if_false, Nat.pow_eq]
  generalize hlog : floorLog2 numerator denominator = log at hlow hhigh hunfold
  generalize hscale : max (log - 52) (-1074) = scale at hunfold
  refine ⟨_, _, ⟨?_, ?_, ?_⟩, hunfold⟩
  · have hpos : 0 < denominator * 2 ^ scale.toNat := by positivity
    have hquotient :
        ((numerator * 2 ^ (-scale).toNat : ℕ) : ℚ) / (denominator * 2 ^ scale.toNat : ℕ) =
          numerator / denominator / 2 ^ scale := by
      rw [zpow_eq_div_pow two_ne_zero]
      push_cast
      field_simp
    have hplace : ((scale + 1074).toNat : ℤ) - 1074 = scale := by omega
    rw [hplace, ← hquotient]
    exact abs_roundDiv_sub_le _ hpos
  · by_cases hleast : scale = -1074
    · exact Or.inl (by omega)
    · refine Or.inr (le_trans ?_ hlow)
      exact zpow_le_zpow_right₀ (by norm_num) (by omega)
  · refine hhigh.trans_le ?_
    exact zpow_le_zpow_right₀ (by norm_num) (by omega)

theorem magnitude_infinite (negative : Bool) : (infinite negative).magnitude = 2 ^ (1024 : ℤ) :=
  magnitude_of_isInfinite (by simp [isInfinite, infinite, ofRank])

/-- Infinity is the number nearest to everything beyond its magnitude. -/
theorem abs_infinite_sub_le (negative : Bool) (h : 2 ^ (1024 : ℤ) ≤ target) (y : Binary64) :
    |(infinite negative).magnitude - target| ≤ |y.magnitude - target| := by
  have hless := y.magnitude_le
  rw [magnitude_infinite, abs_of_nonpos (sub_nonpos.mpr h),
    abs_of_nonpos (sub_nonpos.mpr (hless.trans h))]
  linarith

/-- Zero is the number nearest to everything that is less than half the least magnitude. -/
theorem abs_zero_sub_le (negative : Bool) (hnonneg : 0 ≤ target) (h : 2 * target ≤ 2 ^ (-1074 : ℤ))
    (y : Binary64) : |(zero negative).magnitude - target| ≤ |y.magnitude - target| := by
  have hzero : (zero negative).magnitude = 0 := by simp [zero, ofRank, magnitude, significand]
  cases hy : y.isZero with
  | true =>
      have hrank : y.rank = 0 := by simpa [isZero] using hy
      have hmagnitude : y.magnitude = 0 := by simp [magnitude, significand, hrank]
      rw [hzero, hmagnitude]
  | false =>
      have hleast := le_magnitude hy
      rw [hzero, zero_sub, abs_neg, abs_of_nonneg hnonneg, abs_of_nonneg (by linarith)]
      linarith

/-- No number is nearer to a quotient than what it is rounded to. -/
theorem abs_magnitude_ofRatio_sub_le (negative : Bool) (hden : 0 < denominator) (y : Binary64) :
    |(ofRatio negative numerator denominator).magnitude - numerator / denominator| ≤
      |y.magnitude - numerator / denominator| := by
  rcases Nat.eq_zero_or_pos numerator with rfl | hnum
  · have hzero : ofRatio negative 0 denominator = zero negative := if_pos rfl
    rw [hzero, Nat.cast_zero, zero_div]
    exact abs_zero_sub_le negative le_rfl (by rw [mul_zero]; positivity) y
  · obtain ⟨exponent, significand, hrounds, heq⟩ := exists_rounds negative hnum hden
    have hlow := hrounds.two_pow_le
    have hhigh := hrounds.le_two_pow
    rw [heq]
    by_cases hfinite : (numerator : ℚ) / denominator < 2 ^ (1024 : ℤ)
    · -- the exponent is in the range of the format
      have hexponent : exponent ≤ 2045 := by
        rcases hrounds.lower with hleast | hlower
        · omega
        · have hless := (zpow_lt_zpow_iff_right₀ one_lt_two).mp (hlower.trans_lt hfinite)
          omega
      rw [magnitude_ofRank negative significand exponent hlow hhigh (by omega)]
      exact hrounds.abs_sub_le y
    · have hmore := not_lt.mp hfinite
      have hexponent : 2045 < exponent := by
        have hless := (zpow_lt_zpow_iff_right₀ one_lt_two).mp (hmore.trans_lt hrounds.upper)
        omega
      have hinfinite : ofRank negative (exponent * 2 ^ 52 + significand) = infinite negative := by
        have hrank : infiniteRank ≤ exponent * 2 ^ 52 + significand := by
          simp only [infiniteRank, Nat.pow_eq]
          omega
        simp only [infinite, ofRank, min_eq_right hrank, min_self]
      rw [hinfinite]
      exact abs_infinite_sub_le negative hmore y

end Binary64

/-! ## Decimals -/

namespace Decimal

open Binary64

/-- No number is nearer to a decimal than what it is read as, but for the sign. -/
theorem abs_magnitude_toBinary64_sub_le (negative : Bool) (d : Decimal) (y : Binary64) :
    |(d.toBinary64 negative).magnitude - d.value| ≤ |y.magnitude - d.value| := by
  have hvalue : (strip d.coefficient d.exponent).value = d.value := value_strip _ _
  rw [← hvalue]
  unfold toBinary64
  extract_lets stripped places
  have hnonneg : 0 ≤ stripped.value := by
    unfold value
    positivity
  split
  · rename_i hzero
    have hnothing : stripped.value = 0 := by simp [value, hzero]
    exact abs_zero_sub_le negative hnonneg (by rw [hnothing, mul_zero]; positivity) y
  rename_i hne
  obtain ⟨hlow, hhigh⟩ := value_bounds (Nat.pos_of_ne_zero hne)
  split
  · rename_i hmany
    have hbound : (10 : ℚ) ^ (310 : ℤ) ≤ 10 ^ (places - 1) :=
      zpow_le_zpow_right₀ (by norm_num) (by omega)
    exact abs_infinite_sub_le negative (two_zpow_lt_ten_zpow.le.trans (hbound.trans hlow)) y
  split
  · rename_i hfew
    have hbound : (10 : ℚ) ^ places ≤ 10 ^ (-331 : ℤ) :=
      zpow_le_zpow_right₀ (by norm_num) (by omega)
    refine abs_zero_sub_le negative hnonneg (le_trans ?_ ten_zpow_lt_two_zpow.le) y
    calc 2 * stripped.value ≤ 10 * 10 ^ (-331 : ℤ) :=
          mul_le_mul (by norm_num) (hhigh.le.trans hbound) hnonneg (by norm_num)
      _ = 10 ^ (-330 : ℤ) := by rw [← zpow_one_add₀ (by norm_num)]; norm_num
  · have hquotient : stripped.value =
        (stripped.coefficient * Nat.pow 10 stripped.exponent.toNat : ℕ) /
          (Nat.pow 10 (-stripped.exponent).toNat : ℕ) := by
      rw [value, zpow_eq_div_pow (by norm_num), mul_div_assoc', Nat.pow_eq, Nat.pow_eq]
      push_cast
      rfl
    rw [hquotient]
    exact abs_magnitude_ofRatio_sub_le negative (Nat.pow_pos (by norm_num)) y

/-- No number is nearer to a decimal with its sign than what it is read as. -/
theorem isNearest_toBinary64 (negative : Bool) (d : Decimal) :
    (d.toBinary64 negative).IsNearest (if negative then -d.value else d.value) := by
  have hsign : (d.toBinary64 negative).negative = negative := by
    rw [toBinary64_eq_withSign]
    rfl
  have hnonneg : 0 ≤ d.value := by
    unfold value
    positivity
  have hnear := isNearest_of_magnitude hnonneg (abs_magnitude_toBinary64_sub_le negative d)
  rwa [hsign] at hnear

end Decimal

namespace Binary64

/-! ## What the nearest number tells -/

variable {x y : Binary64} {target : ℚ}

/-- A rational that is a number of the format is not rounded. -/
theorem IsNearest.value_eq (h : x.IsNearest target) (hy : y.value = target) :
    x.value = target := by
  have hnear := h y
  rw [hy, sub_self, abs_zero] at hnear
  exact sub_eq_zero.mp (abs_nonpos_iff.mp hnear)

/-- A power of two in the range of the format is a number, with either sign. -/
theorem exists_magnitude_eq_two_pow (negative : Bool) {power : ℕ} (h : power ≤ 1023) :
    ∃ x : Binary64, x.negative = negative ∧ x.magnitude = 2 ^ power := by
  have hplace := magnitude_ofRank negative (2 ^ 52) (power + 1022) (Or.inr le_rfl) (by norm_num)
    (by omega)
  refine ⟨ofRank negative ((power + 1022) * 2 ^ 52 + 2 ^ 52), rfl, hplace.trans ?_⟩
  have hexponent : (52 : ℤ) + (((power + 1022 : ℕ) : ℤ) - 1074) = power := by omega
  calc ((2 ^ 52 : ℕ) : ℚ) * 2 ^ (((power + 1022 : ℕ) : ℤ) - 1074)
      = 2 ^ (52 : ℤ) * 2 ^ (((power + 1022 : ℕ) : ℤ) - 1074) := by norm_num
    _ = 2 ^ power := by rw [← zpow_add₀ two_ne_zero, hexponent, zpow_natCast]

/-- So rounding does not lead across a power of two. -/
theorem IsNearest.two_pow_le (h : x.IsNearest target) {power : ℕ} (hpower : power ≤ 1023)
    (htarget : 2 ^ power ≤ |target|) : 2 ^ power ≤ |x.value| := by
  by_contra! hless
  obtain ⟨y, hsign, hy⟩ := exists_magnitude_eq_two_pow (decide (target < 0)) hpower
  -- the power of two with the sign of the rational is between the two
  have hbetween : |y.value - target| = |target| - 2 ^ power := by
    unfold value
    rw [hsign, hy]
    by_cases hneg : target < 0
    · rw [abs_of_neg hneg] at htarget ⊢
      rw [decide_eq_true hneg, if_pos rfl, abs_of_nonneg (by linarith)]
      ring
    · rw [abs_of_nonneg (not_lt.mp hneg)] at htarget ⊢
      rw [decide_eq_false hneg, if_neg Bool.false_ne_true, abs_of_nonpos (by linarith)]
      ring
  have hnear := h y
  have hdistance := abs_sub_abs_le_abs_sub target x.value
  rw [abs_sub_comm target] at hdistance
  linarith

/-! ## Whole numbers of the format -/

/-- A number below infinity is the integer it is equal to, if there is one. -/
theorem toInt?_eq_some_iff (hfinite : x.isInfinite = false) {n : ℤ} :
    x.toInt? = some n ↔ x.value = n := by
  have hden : (0 : ℚ) < x.denominator := by exact_mod_cast x.denominator_pos
  rw [toInt?, if_neg (by simp [hfinite]), value, magnitude_eq_div]
  split
  · rename_i hwhole
    -- the quotient of whole numbers is exact
    have hquotient : (x.numerator : ℚ) / x.denominator = (x.numerator / x.denominator : ℕ) := by
      rw [Nat.cast_div (Nat.dvd_of_mod_eq_zero hwhole) hden.ne']
    rw [hquotient, Option.some.injEq]
    generalize x.numerator / x.denominator = quotient
    cases x.negative with
    | false =>
        simp only [Bool.false_eq_true, if_false]
        exact_mod_cast Iff.rfl
    | true =>
        simp only [if_true]
        exact_mod_cast Iff.rfl
  · rename_i hrest
    refine ⟨nofun, fun hvalue => absurd ?_ hrest⟩
    have habs : (x.numerator : ℚ) / x.denominator = (n.natAbs : ℕ) := by
      rw [← magnitude_eq_div, ← abs_value, value, magnitude_eq_div, hvalue, Nat.cast_natAbs,
        Int.cast_abs]
    rw [div_eq_iff hden.ne'] at habs
    have hproduct : x.numerator = n.natAbs * x.denominator := by exact_mod_cast habs
    rw [hproduct, Nat.mul_mod_left]

/-- A whole number of 63 bits and a sign is below infinity. -/
theorem toInt?_eq_some {n : ℤ} (hvalue : x.value = n) (hrange : n.natAbs < 2 ^ 63) :
    x.toInt? = some n := by
  refine (toInt?_eq_some_iff (Bool.eq_false_of_not_eq_true fun hinfinite => ?_)).mpr hvalue
  have hnatural : ((n.natAbs : ℕ) : ℚ) = x.magnitude := by
    rw [← abs_value, hvalue, Nat.cast_natAbs, Int.cast_abs]
  rw [magnitude_of_isInfinite hinfinite, zpow_ofNat] at hnatural
  have hless : ((n.natAbs : ℕ) : ℚ) < 2 ^ 63 := by exact_mod_cast hrange
  have hgreat : (2 : ℚ) ^ 63 ≤ 2 ^ 1024 := pow_le_pow_right₀ (by norm_num) (by norm_num)
  exact (hless.trans_le hgreat).ne hnatural

theorem value_eq_of_toInt? {n : ℤ} (h : x.toInt? = some n) : x.value = n := by
  have hfinite : x.isInfinite = false := by
    by_contra hinfinite
    simp [toInt?, hinfinite] at h
  exact (toInt?_eq_some_iff hfinite).mp h

end Binary64

end ArchDiagram

/-
# Decimals that read back

Reading a decimal rounds it to the nearest binary64 number. If the decimal is equal
to a finite number, that number is read (`toBinary64_of_value_eq`), whichever way
the powers of two and of ten are split between numerator and denominator. The
shortest decimal of a number reads back as well: a candidate on a grid is only
taken if it does, and the exact decimal stands by when none is found
(`toBinary64_shortest`).
-/

import ArchDiagram.Binary64.Shortest
import Mathlib.Algebra.Order.Field.Rat
import Mathlib.Algebra.Order.Field.Power
import Mathlib.Tactic

namespace ArchDiagram

theorem zpow_eq_div_pow {base : ℚ} (h : base ≠ 0) (exponent : ℤ) :
    base ^ exponent = base ^ exponent.toNat / base ^ (-exponent).toNat := by
  rw [eq_div_iff (pow_ne_zero _ h), ← zpow_natCast, ← zpow_natCast, ← zpow_add₀ h]
  congr 1
  omega

namespace Binary64

/-- The magnitude of a number as a rational; infinity counts as `2 ^ 1024`. -/
def magnitude (x : Binary64) : ℚ := x.significand * 2 ^ x.exponent

/-! ## Logarithms -/

/-- A power of two is at most a quotient if it is so after multiplying out. -/
theorem two_zpow_le_div_iff (numerator : ℕ) {denominator : ℕ} (hden : 0 < denominator)
    (exponent : ℤ) :
    (2 : ℚ) ^ exponent ≤ numerator / denominator ↔
      denominator * Nat.pow 2 exponent.toNat ≤ numerator * Nat.pow 2 (-exponent).toNat := by
  have hden' : (0 : ℚ) < denominator := by exact_mod_cast hden
  rw [zpow_eq_div_pow two_ne_zero, div_le_div_iff₀ (by positivity) hden', mul_comm]
  simp only [Nat.pow_eq]
  exact_mod_cast Iff.rfl

theorem floorLog2_spec {numerator denominator : ℕ} (hnum : 0 < numerator)
    (hden : 0 < denominator) :
    (2 : ℚ) ^ floorLog2 numerator denominator ≤ numerator / denominator ∧
      (numerator : ℚ) / denominator < 2 ^ (floorLog2 numerator denominator + 1) := by
  have hden' : (0 : ℚ) < denominator := by exact_mod_cast hden
  have hnumLow : (2 : ℚ) ^ (numerator.log2 : ℤ) ≤ numerator := by
    exact_mod_cast Nat.log2_self_le hnum.ne'
  have hnumHigh : (numerator : ℚ) < 2 ^ ((numerator.log2 : ℤ) + 1) := by
    exact_mod_cast Nat.lt_log2_self
  have hdenLow : (2 : ℚ) ^ (denominator.log2 : ℤ) ≤ denominator := by
    exact_mod_cast Nat.log2_self_le hden.ne'
  have hdenHigh : (denominator : ℚ) ≤ 2 ^ ((denominator.log2 : ℤ) + 1) := by
    exact_mod_cast Nat.lt_log2_self.le
  unfold floorLog2
  extract_lets guess
  -- the powers of two around numerator and denominator leave two powers for the quotient
  have hhigh : (numerator : ℚ) / denominator < 2 ^ (guess + 1) := by
    rw [div_lt_iff₀ hden']
    calc (numerator : ℚ) < 2 ^ ((numerator.log2 : ℤ) + 1) := hnumHigh
      _ = 2 ^ (guess + 1) * 2 ^ (denominator.log2 : ℤ) := by
        rw [← zpow_add₀ (by norm_num)]
        congr 1
        omega
      _ ≤ 2 ^ (guess + 1) * denominator := by gcongr
  have hlow : (2 : ℚ) ^ (guess - 1) ≤ numerator / denominator := by
    rw [le_div_iff₀ hden']
    calc (2 : ℚ) ^ (guess - 1) * denominator
        ≤ 2 ^ (guess - 1) * 2 ^ ((denominator.log2 : ℤ) + 1) := by gcongr
      _ = 2 ^ (numerator.log2 : ℤ) := by
        rw [← zpow_add₀ (by norm_num)]
        congr 1
        omega
      _ ≤ numerator := hnumLow
  -- the guess is right or one too great, and one comparison decides
  have hguess := two_zpow_le_div_iff numerator hden guess
  split
  · rename_i hle
    exact ⟨hguess.mpr hle, hhigh⟩
  · rename_i hlt
    refine ⟨hlow, ?_⟩
    rw [sub_add_cancel]
    exact lt_of_not_ge fun hle => hlt (hguess.mp hle)

/-- The greatest power of two below a quotient is the only one with the next above it. -/
theorem floorLog2_eq {numerator denominator : ℕ} (hnum : 0 < numerator) (hden : 0 < denominator)
    {exponent : ℤ} (hlow : (2 : ℚ) ^ exponent ≤ numerator / denominator)
    (hhigh : (numerator : ℚ) / denominator < 2 ^ (exponent + 1)) :
    floorLog2 numerator denominator = exponent := by
  obtain ⟨hfloor, hnext⟩ := floorLog2_spec hnum hden
  have hbelow := (zpow_lt_zpow_iff_right₀ (by norm_num : (1 : ℚ) < 2)).mp (hlow.trans_lt hnext)
  have habove := (zpow_lt_zpow_iff_right₀ (by norm_num : (1 : ℚ) < 2)).mp (hfloor.trans_lt hhigh)
  omega

theorem floorLog2_lt {numerator denominator : ℕ} (hnum : 0 < numerator) (hden : 0 < denominator)
    {exponent : ℤ} (hhigh : (numerator : ℚ) / denominator < 2 ^ exponent) :
    floorLog2 numerator denominator < exponent :=
  (zpow_lt_zpow_iff_right₀ (by norm_num : (1 : ℚ) < 2)).mp
    ((floorLog2_spec hnum hden).1.trans_lt hhigh)

/-! ## Rounding an exact quotient -/

variable {x : Binary64}

theorem significand_pos (hzero : x.isZero = false) : 0 < x.significand := by
  have hrank : x.rank ≠ 0 := by simpa [isZero] using hzero
  unfold significand
  split
  · exact Nat.pos_of_ne_zero hrank
  · exact Nat.add_pos_left (by norm_num) _

theorem magnitude_pos (hzero : x.isZero = false) : 0 < x.magnitude := by
  have hsig : (0 : ℚ) < x.significand := by exact_mod_cast significand_pos hzero
  unfold magnitude
  positivity

/-- The significand and the exponent give the place back. -/
theorem rank_eq (x : Binary64) :
    (x.exponent + 1074).toNat * Nat.pow 2 52 + x.significand = x.rank := by
  unfold exponent significand
  norm_num
  split <;> omega

/-- The exponent that rounding works out for a quotient equal to a finite number is the
exponent of the number. -/
theorem exponent_eq_of_magnitude {numerator denominator : ℕ}
    (hden : 0 < denominator) (hnum : 0 < numerator)
    (h : (numerator : ℚ) / denominator = x.magnitude) :
    max (floorLog2 numerator denominator - 52) (-1074) = x.exponent := by
  have hscale : (0 : ℚ) < 2 ^ x.exponent := by positivity
  by_cases hsub : x.rank < Nat.pow 2 52
  · -- a subnormal number is below the least normal one
    have hexp : x.exponent = -1074 := by
      unfold exponent
      norm_num at hsub ⊢
      omega
    have hsig : (x.significand : ℚ) < 2 ^ (52 : ℤ) := by
      have hlt : x.significand < 2 ^ 52 := by
        rw [significand, if_pos hsub]
        exact hsub
      exact_mod_cast hlt
    have hhigh : (numerator : ℚ) / denominator < 2 ^ ((52 : ℤ) + x.exponent) := by
      rw [h, magnitude, zpow_add₀ two_ne_zero]
      exact mul_lt_mul_of_pos_right hsig hscale
    have hlog := floorLog2_lt hnum hden hhigh
    omega
  · -- a normal one has the leading bit in its significand
    have hbounds : 2 ^ 52 ≤ x.significand ∧ x.significand < 2 ^ 53 := by
      simp only [significand, hsub, if_false, Nat.pow_eq]
      omega
    have hexp : -1074 ≤ x.exponent := by
      unfold exponent
      omega
    have hlow : (2 : ℚ) ^ ((52 : ℤ) + x.exponent) ≤ numerator / denominator := by
      rw [h, magnitude, zpow_add₀ two_ne_zero]
      have : (2 : ℚ) ^ (52 : ℤ) ≤ x.significand := by exact_mod_cast hbounds.1
      gcongr
    have hhigh : (numerator : ℚ) / denominator < 2 ^ ((52 : ℤ) + x.exponent + 1) := by
      rw [h, magnitude, show (52 : ℤ) + x.exponent + 1 = 53 + x.exponent by ring,
        zpow_add₀ two_ne_zero]
      have : (x.significand : ℚ) < 2 ^ (53 : ℤ) := by exact_mod_cast hbounds.2
      gcongr
    have hlog := floorLog2_eq hnum hden hlow hhigh
    omega

theorem significand_lt (x : Binary64) : x.significand < 2 ^ 53 := by
  unfold significand
  norm_num
  split <;> omega

theorem magnitude_lt (hfinite : x.isInfinite = false) : x.magnitude < 2 ^ (1024 : ℤ) := by
  have hrank : x.rank < 2047 * 2 ^ 52 :=
    lt_of_le_of_ne x.rank_le (by simpa [isInfinite, infiniteRank] using hfinite)
  have hsignificand : (x.significand : ℚ) < 2 ^ (53 : ℤ) := by exact_mod_cast x.significand_lt
  have hexponent : x.exponent ≤ 971 := by
    unfold exponent
    norm_num
    omega
  calc x.magnitude < 2 ^ (53 : ℤ) * 2 ^ x.exponent := by
        unfold magnitude
        gcongr
    _ ≤ 2 ^ (53 : ℤ) * 2 ^ (971 : ℤ) := by gcongr; norm_num
    _ = 2 ^ (1024 : ℤ) := by rw [← zpow_add₀ two_ne_zero]; norm_num

theorem magnitude_of_isInfinite (hinfinite : x.isInfinite = true) :
    x.magnitude = 2 ^ (1024 : ℤ) := by
  have hrank : x.rank = 2047 * 2 ^ 52 := by simpa [isInfinite, infiniteRank] using hinfinite
  have hexact : x.significand = 2 ^ 52 ∧ x.exponent = 972 := by
    simp only [significand, exponent, hrank, Nat.pow_eq]
    norm_num
  rw [magnitude, hexact.1, hexact.2, Nat.cast_pow, Nat.cast_ofNat, ← zpow_natCast,
    ← zpow_add₀ two_ne_zero]
  norm_num

/-- Infinity has the greatest magnitude. -/
theorem magnitude_le (x : Binary64) : x.magnitude ≤ 2 ^ (1024 : ℤ) := by
  cases h : x.isInfinite with
  | false => exact (magnitude_lt h).le
  | true => exact (magnitude_of_isInfinite h).le

theorem le_magnitude (hzero : x.isZero = false) : 2 ^ (-1074 : ℤ) ≤ x.magnitude := by
  have hsig : (1 : ℚ) ≤ x.significand := by exact_mod_cast significand_pos hzero
  have hexp : -1074 ≤ x.exponent := by
    unfold exponent
    omega
  calc (2 : ℚ) ^ (-1074 : ℤ) ≤ 2 ^ x.exponent := by gcongr; norm_num
    _ ≤ x.magnitude := by
        unfold magnitude
        exact le_mul_of_one_le_left (by positivity) hsig

/-- A quotient equal to the magnitude of a number is rounded to it. -/
theorem ofRatio_eq_withSign (hzero : x.isZero = false) (negative : Bool) {numerator denominator : ℕ}
    (hden : 0 < denominator) (h : (numerator : ℚ) / denominator = x.magnitude) :
    ofRatio negative numerator denominator = x.withSign negative := by
  have hden' : (denominator : ℚ) ≠ 0 := by exact_mod_cast hden.ne'
  have hnum : 0 < numerator := by
    apply Nat.pos_of_ne_zero
    intro hnum
    apply (magnitude_pos hzero).ne
    rw [← h, hnum, Nat.cast_zero, zero_div]
  -- scaled by the exponent, the quotient is the significand, so nothing is rounded off
  have hexact : numerator * Nat.pow 2 (-x.exponent).toNat =
      x.significand * (denominator * Nat.pow 2 x.exponent.toNat) := by
    rw [magnitude, zpow_eq_div_pow two_ne_zero, ← mul_div_assoc,
      div_eq_div_iff hden' (by positivity)] at h
    simp only [Nat.pow_eq]
    have hcast : (numerator : ℚ) * 2 ^ (-x.exponent).toNat =
        x.significand * (denominator * 2 ^ x.exponent.toNat) := by
      rw [h]
      ring
    exact_mod_cast hcast
  simp only [ofRatio, hnum.ne', hden.ne', if_false,
    exponent_eq_of_magnitude hden hnum h]
  have hscale : 0 < denominator * Nat.pow 2 x.exponent.toNat :=
    Nat.mul_pos hden (Nat.pow_pos (by norm_num))
  rw [hexact, roundDiv_mul _ hscale, rank_eq]
  have hrank : x.rank ≤ infiniteRank := x.rank_le
  simp [ofRank, withSign, hrank]

end Binary64

/-! ## Decimals -/

namespace Decimal

/-- The rational a decimal stands for. -/
def value (d : Decimal) : ℚ := d.coefficient * 10 ^ d.exponent

theorem strip_zero (exponent : ℤ) : strip 0 exponent = ⟨0, exponent⟩ := by
  rw [strip]
  simp

/-- Zeros at the end of the coefficient count for the exponent. -/
theorem strip_mul_ten_pow {coefficient : ℕ} (hpos : 0 < coefficient) (zeros : ℕ) (exponent : ℤ) :
    strip (coefficient * 10 ^ zeros) exponent = strip coefficient (exponent + zeros) := by
  induction zeros generalizing exponent with
  | zero => simp
  | succ zeros ih =>
      have hmore : coefficient * 10 ^ (zeros + 1) ≠ 0 ∧
          coefficient * 10 ^ (zeros + 1) % 10 = 0 :=
        ⟨by positivity, by rw [pow_succ, ← mul_assoc, Nat.mul_mod_left]⟩
      have hdiv : coefficient * 10 ^ (zeros + 1) / 10 = coefficient * 10 ^ zeros := by
        rw [pow_succ, ← mul_assoc, Nat.mul_div_cancel _ (by norm_num)]
      -- one step moves the last zero; the others are moved from there
      rw [strip, if_pos hmore, hdiv, ih]
      congr 1
      push_cast
      ring

/-- Moving zeros into the exponent does not change the value. -/
theorem value_strip (coefficient : ℕ) (exponent : ℤ) :
    (strip coefficient exponent).value = coefficient * 10 ^ exponent := by
  fun_induction strip coefficient exponent with
  | case1 coefficient exponent h ih =>
      rw [ih, zpow_add_one₀ (by norm_num)]
      have hcoefficient : (coefficient : ℚ) = (coefficient / 10 : ℕ) * 10 := by
        exact_mod_cast (Nat.div_mul_cancel (Nat.dvd_of_mod_eq_zero h.2)).symm
      rw [hcoefficient]
      ring
  | case2 coefficient exponent => rfl

theorem coefficient_strip_pos {coefficient : ℕ} (hpos : 0 < coefficient) (exponent : ℤ) :
    0 < (strip coefficient exponent).coefficient := by
  fun_induction strip coefficient exponent with
  | case1 coefficient exponent h ih => exact ih (by omega)
  | case2 coefficient exponent => exact hpos

/-- The number of places before the point bounds a positive decimal on both sides. -/
theorem value_bounds {d : Decimal} (hpos : 0 < d.coefficient) :
    (10 : ℚ) ^ ((digits d.coefficient).length + d.exponent - 1) ≤ d.value ∧
      d.value < 10 ^ ((digits d.coefficient).length + d.exponent) := by
  have hlength : 0 < (digits d.coefficient).length := Nat.length_toDigits_pos
  have hhigh : d.coefficient < 10 ^ (digits d.coefficient).length :=
    (Nat.length_toDigits_le_iff (by norm_num) hlength).mp le_rfl
  have hlow : 10 ^ ((digits d.coefficient).length - 1) ≤ d.coefficient := by
    by_contra! hlt
    -- a smaller number would have fewer digits
    rcases Nat.eq_zero_or_pos ((digits d.coefficient).length - 1) with hone | hmore
    · rw [hone] at hlt
      omega
    · have hfewer : (digits d.coefficient).length ≤ (digits d.coefficient).length - 1 :=
        (Nat.length_toDigits_le_iff (by norm_num) hmore).mpr hlt
      omega
  have hscale : (0 : ℚ) < 10 ^ d.exponent := by positivity
  constructor
  · have hlow' : (10 : ℚ) ^ (((digits d.coefficient).length : ℤ) - 1) ≤ d.coefficient := by
      rw [show ((digits d.coefficient).length : ℤ) - 1 =
        (((digits d.coefficient).length - 1 : ℕ) : ℤ) by omega, zpow_natCast]
      exact_mod_cast hlow
    rw [show ((digits d.coefficient).length : ℤ) + d.exponent - 1 =
      ((digits d.coefficient).length - 1) + d.exponent by ring, zpow_add₀ (by norm_num), value]
    gcongr
  · have hhigh' : (d.coefficient : ℚ) < 10 ^ ((digits d.coefficient).length : ℤ) := by
      exact_mod_cast hhigh
    rw [zpow_add₀ (by norm_num), value]
    gcongr

/-- Numbers of more than 310 places are beyond the greatest magnitude. -/
theorem two_zpow_lt_ten_zpow : (2 : ℚ) ^ (1024 : ℤ) < 10 ^ (310 : ℤ) := by
  calc (2 : ℚ) ^ (1024 : ℤ) < 2 ^ (1025 : ℤ) := zpow_lt_zpow_right₀ (by norm_num) (by norm_num)
    _ = (2 ^ 205) ^ 5 := by rw [zpow_ofNat, ← pow_mul]
    _ < (10 ^ 62) ^ 5 := pow_lt_pow_left₀ (by norm_num) (by positivity) (by norm_num)
    _ = 10 ^ (310 : ℤ) := by rw [zpow_ofNat, ← pow_mul]

/-- Numbers with more than 330 zeros after the point are below the least magnitude. -/
theorem ten_zpow_lt_two_zpow : (10 : ℚ) ^ (-330 : ℤ) < 2 ^ (-1074 : ℤ) := by
  rw [zpow_neg, zpow_neg, inv_lt_inv₀ (by positivity) (by positivity), zpow_ofNat, zpow_ofNat,
    show 1074 = 179 * 6 from rfl, show 330 = 55 * 6 from rfl, pow_mul, pow_mul]
  exact pow_lt_pow_left₀ (by norm_num) (by positivity) (by norm_num)

/-- A decimal equal to the magnitude of a number is read as the number. -/
theorem toBinary64_of_value_eq {x : Binary64} (hzero : x.isZero = false) {d : Decimal}
    (hvalue : d.value = x.magnitude) (negative : Bool) :
    d.toBinary64 negative = x.withSign negative := by
  have hpos : 0 < d.coefficient := by
    apply Nat.pos_of_ne_zero
    intro hcoefficient
    apply (Binary64.magnitude_pos hzero).ne
    rw [← hvalue, value, hcoefficient, Nat.cast_zero, zero_mul]
  have hstrip : 0 < (strip d.coefficient d.exponent).coefficient := coefficient_strip_pos hpos _
  have hsame : (strip d.coefficient d.exponent).value = x.magnitude := by
    rw [value_strip, ← hvalue, value]
  obtain ⟨hlow, hhigh⟩ := value_bounds hstrip
  rw [hsame] at hlow hhigh
  unfold toBinary64
  extract_lets stripped places
  -- neither cutoff applies to a decimal that is a number
  have hmany : ¬310 < places := by
    intro hmany
    have hbound : (10 : ℚ) ^ (310 : ℤ) ≤ 10 ^ (places - 1) :=
      zpow_le_zpow_right₀ (by norm_num) (by omega)
    exact absurd (hbound.trans hlow) (not_le.mpr (x.magnitude_le.trans_lt two_zpow_lt_ten_zpow))
  have hfew : ¬places < -330 := by
    intro hfew
    have hbound : (10 : ℚ) ^ places ≤ 10 ^ (-330 : ℤ) :=
      zpow_le_zpow_right₀ (by norm_num) hfew.le
    exact absurd (hhigh.trans_le hbound)
      (not_lt.mpr (ten_zpow_lt_two_zpow.le.trans (Binary64.le_magnitude hzero)))
  rw [if_neg hstrip.ne', if_neg hmany, if_neg hfew]
  refine Binary64.ofRatio_eq_withSign hzero negative (Nat.pow_pos (by norm_num)) ?_
  rw [← hsame, value, zpow_eq_div_pow (by norm_num), mul_div_assoc', Nat.pow_eq, Nat.pow_eq]
  push_cast
  rfl

/-- Zeros written at the end of the coefficient do not change what is read. -/
theorem toBinary64_mul_ten_pow (negative : Bool) (coefficient zeros : ℕ) (exponent : ℤ) :
    toBinary64 negative ⟨coefficient * 10 ^ zeros, exponent⟩ =
      toBinary64 negative ⟨coefficient, exponent + zeros⟩ := by
  rcases Nat.eq_zero_or_pos coefficient with rfl | hpos
  · simp [toBinary64, strip_zero]
  · simp only [toBinary64, strip_mul_ten_pow hpos]

theorem toBinary64_strip (negative : Bool) (d : Decimal) :
    toBinary64 negative (strip d.coefficient d.exponent) = toBinary64 negative d := by
  have hstrip (coefficient : ℕ) (exponent : ℤ) :
      strip (strip coefficient exponent).coefficient (strip coefficient exponent).exponent =
        strip coefficient exponent := by
    fun_induction strip coefficient exponent with
    | case1 coefficient exponent h ih => exact ih
    | case2 coefficient exponent h => rw [strip, if_neg h]
  simp only [toBinary64, hstrip]

/-- The sign is only taken over. -/
theorem toBinary64_eq_withSign (negative : Bool) (d : Decimal) :
    d.toBinary64 negative = (d.toBinary64 false).withSign negative := by
  unfold toBinary64
  extract_lets stripped places
  split
  · rfl
  split
  · rfl
  split
  · rfl
  unfold Binary64.ofRatio
  split
  · rfl
  split <;> rfl

end Decimal

/-! ## Shortest decimals -/

namespace Binary64

theorem readsBack_of_onGrid? {tie : Tie} {x : Binary64} {power : ℤ} {d : Decimal}
    (h : onGrid? tie x power = some d) : x.readsBack d = true := by
  unfold onGrid? at h
  extract_lets numerator denominator below above twice at h
  -- a neighbour that does not read back is never taken
  cases hbelow : x.readsBack below <;> cases habove : x.readsBack above <;>
    simp only [hbelow, habove] at h
  · simp at h
  · exact Option.some.inj h ▸ habove
  · exact Option.some.inj h ▸ hbelow
  · split at h
    · exact Option.some.inj h ▸ hbelow
    split at h
    · exact Option.some.inj h ▸ habove
    cases tie with
    | toEven =>
        simp only at h
        split at h
        · exact Option.some.inj h ▸ hbelow
        · exact Option.some.inj h ▸ habove
    | up => exact Option.some.inj h ▸ habove

theorem value_exactDecimal (x : Binary64) : x.exactDecimal.value = x.magnitude := by
  have hten : (10 : ℚ) = 2 * 5 := by norm_num
  simp only [exactDecimal, Decimal.value, magnitude, Nat.pow_eq, Nat.cast_mul, Nat.cast_pow,
    Nat.cast_ofNat, zpow_neg, zpow_natCast]
  rw [zpow_eq_div_pow two_ne_zero, hten, mul_pow]
  field_simp

/-- The shortest decimal of a number other than zero is read as the number. -/
theorem toBinary64_shortest {x : Binary64} (hzero : x.isZero = false) (tie : Tie)
    (negative : Bool) : (x.shortest tie).toBinary64 negative = x.withSign negative := by
  unfold shortest
  extract_lets top grids found
  rw [Decimal.toBinary64_strip, Decimal.toBinary64_eq_withSign]
  -- the sign is as asked for, so only the place has to be that of the number
  have hrank : (found.toBinary64 false).rank = x.rank := by
    cases hgrid : grids.findSome? (onGrid? tie x) with
    | none =>
        have hfound : found = x.exactDecimal := by simp [found, hgrid]
        rw [hfound, Decimal.toBinary64_of_value_eq hzero x.value_exactDecimal]
        rfl
    | some d =>
        have hfound : found = d := by simp [found, hgrid]
        obtain ⟨power, -, hpower⟩ := List.exists_of_findSome?_eq_some hgrid
        rw [hfound]
        exact beq_iff_eq.mp (readsBack_of_onGrid? hpower)
  simp only [withSign, mk.injEq, true_and]
  exact hrank

end Binary64

end ArchDiagram

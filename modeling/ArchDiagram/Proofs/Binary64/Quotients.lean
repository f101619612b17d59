/-
# Quotients of numbers

Rounding takes a quotient as a rational number, whichever way it is split between
numerator and denominator (`ofRatio_congr`). A whole number below `2 ^ 53` is a number of
the format, and so is a power of ten up to `10 ^ 22`. So the quotient of the two is
rounded only once, and is the number nearest to the decimal (`ofNat_div_powerOfTen`).
-/

import ArchDiagram.Json.Numeral
import ArchDiagram.Proofs.Binary64.Readback

namespace ArchDiagram

namespace Binary64

/-! ## Rounding a rational -/

theorem roundDiv_mul_right (numerator denominator : ℕ) {factor : ℕ} (h : 0 < factor) :
    roundDiv (numerator * factor) (denominator * factor) = roundDiv numerator denominator := by
  have hscale (a b : ℕ) : 2 * (a * factor) < b * factor ↔ 2 * a < b := by
    rw [← mul_assoc]
    exact Nat.mul_lt_mul_right h
  have hscale' (a b : ℕ) : b * factor < 2 * (a * factor) ↔ b < 2 * a := by
    rw [← mul_assoc]
    exact Nat.mul_lt_mul_right h
  simp only [roundDiv, Nat.mul_div_mul_right _ _ h, Nat.mul_mod_mul_right, hscale, hscale']

theorem roundDiv_congr {numerator denominator numerator' denominator' : ℕ}
    (hden : 0 < denominator) (hden' : 0 < denominator')
    (h : numerator * denominator' = numerator' * denominator) :
    roundDiv numerator denominator = roundDiv numerator' denominator' := by
  rw [← roundDiv_mul_right numerator denominator hden', h, mul_comm denominator denominator',
    roundDiv_mul_right numerator' denominator' hden]

variable {numerator denominator numerator' denominator' : ℕ}

theorem floorLog2_congr (hnum : 0 < numerator) (hden : 0 < denominator)
    (hnum' : 0 < numerator') (hden' : 0 < denominator')
    (h : (numerator : ℚ) / denominator = numerator' / denominator') :
    floorLog2 numerator denominator = floorLog2 numerator' denominator' := by
  obtain ⟨hlow, hhigh⟩ := floorLog2_spec hnum' hden'
  rw [← h] at hlow hhigh
  exact floorLog2_eq hnum hden hlow hhigh

/-- Equal quotients are rounded alike. -/
theorem ofRatio_congr (negative : Bool) (hden : 0 < denominator) (hden' : 0 < denominator')
    (h : (numerator : ℚ) / denominator = numerator' / denominator') :
    ofRatio negative numerator denominator = ofRatio negative numerator' denominator' := by
  have hcross : numerator * denominator' = numerator' * denominator := by
    rw [div_eq_div_iff (by exact_mod_cast hden.ne') (by exact_mod_cast hden'.ne')] at h
    exact_mod_cast h
  rcases Nat.eq_zero_or_pos numerator with rfl | hnum
  · obtain rfl : numerator' = 0 := by
      rw [zero_mul] at hcross
      exact (Nat.mul_eq_zero.mp hcross.symm).resolve_right hden.ne'
    simp [ofRatio]
  · have hnum' : 0 < numerator' := by
      apply Nat.pos_of_ne_zero
      rintro rfl
      rw [zero_mul] at hcross
      exact (Nat.mul_pos hnum hden').ne' hcross
    simp only [ofRatio, hnum.ne', hnum'.ne', hden.ne', hden'.ne', if_false,
      floorLog2_congr hnum hden hnum' hden' h]
    congr 2
    have hpow (exponent : ℕ) : 0 < Nat.pow 2 exponent := Nat.pow_pos (by norm_num)
    refine roundDiv_congr (Nat.mul_pos hden (hpow _)) (Nat.mul_pos hden' (hpow _)) ?_
    rw [mul_mul_mul_comm, hcross, mul_mul_mul_comm]

/-! ## Exact numbers -/

theorem magnitude_eq_div (x : Binary64) : x.magnitude = x.numerator / x.denominator := by
  rw [magnitude, zpow_eq_div_pow two_ne_zero, numerator, denominator, mul_div_assoc']
  simp only [Nat.pow_eq]
  push_cast
  rfl

theorem denominator_pos (x : Binary64) : 0 < x.denominator :=
  Nat.pow_pos (by norm_num)

/-- The number at a place has the significand and the exponent that the place is made of, if
the significand has its leading bit or the exponent is the least one. -/
theorem magnitude_ofRank (negative : Bool) (significand exponent : ℕ)
    (hlow : exponent = 0 ∨ 2 ^ 52 ≤ significand) (hhigh : significand ≤ 2 ^ 53)
    (hrank : exponent * 2 ^ 52 + significand ≤ 2047 * 2 ^ 52) :
    (ofRank negative (exponent * 2 ^ 52 + significand)).magnitude =
      significand * 2 ^ ((exponent : ℤ) - 1074) := by
  have hplace : (ofRank negative (exponent * 2 ^ 52 + significand)).rank =
      exponent * 2 ^ 52 + significand := by
    simp only [ofRank, infiniteRank, Nat.pow_eq]
    omega
  generalize ofRank negative (exponent * 2 ^ 52 + significand) = x at hplace
  rcases hhigh.lt_or_eq with hbelow | rfl
  · have hsignificand : x.significand = significand := by
      simp only [Binary64.significand, hplace, Nat.pow_eq]
      split <;> omega
    have hscale : x.exponent = exponent - 1074 := by
      simp only [Binary64.exponent, hplace, Nat.pow_eq]
      omega
    rw [magnitude, hsignificand, hscale]
  · -- the next power of two is the least significand with the next exponent
    have hsignificand : x.significand = 2 ^ 52 := by
      simp only [Binary64.significand, hplace, Nat.pow_eq]
      split <;> omega
    have hscale : x.exponent = exponent - 1074 + 1 := by
      simp only [Binary64.exponent, hplace, Nat.pow_eq]
      omega
    rw [magnitude, hsignificand, hscale, zpow_add_one₀ two_ne_zero]
    push_cast
    ring

/-- A whole number below `2 ^ 53` is not rounded. -/
theorem magnitude_ofNat {n : ℕ} (h : n < 2 ^ 53) : (ofNat n).magnitude = n := by
  rcases Nat.eq_zero_or_pos n with rfl | hpos
  · simp [ofNat, ofRatio, zero, ofRank, magnitude, significand]
  · have hlog : n.log2 ≤ 52 := Nat.le_of_lt_succ ((Nat.log2_lt hpos.ne').mpr h)
    have hlow : 2 ^ n.log2 ≤ n := Nat.log2_self_le hpos.ne'
    have hhigh : n < 2 ^ (n.log2 + 1) := Nat.lt_log2_self
    -- shifted up to 53 bits, the number is its significand
    have hshift : 2 ^ (52 - n.log2) * 2 ^ n.log2 = 2 ^ 52 := by
      rw [← pow_add, Nat.sub_add_cancel hlog]
    have hbounds : 2 ^ 52 ≤ 2 ^ (52 - n.log2) * n ∧ 2 ^ (52 - n.log2) * n < 2 ^ 53 := by
      constructor
      · rw [← hshift]
        exact Nat.mul_le_mul_left _ hlow
      · calc 2 ^ (52 - n.log2) * n < 2 ^ (52 - n.log2) * 2 ^ (n.log2 + 1) :=
              Nat.mul_lt_mul_of_pos_left hhigh (by positivity)
          _ = 2 ^ 53 := by rw [pow_succ, ← mul_assoc, hshift]; norm_num
    have hplace := magnitude_ofRank false (2 ^ (52 - n.log2) * n) (n.log2 + 1022)
      (Or.inr hbounds.1) hbounds.2.le (by omega)
    generalize hx : ofRank false ((n.log2 + 1022) * 2 ^ 52 + 2 ^ (52 - n.log2) * n) = x at hplace
    have hmagnitude : x.magnitude = n := by
      have hscale : ((n.log2 + 1022 : ℕ) : ℤ) - 1074 = -((52 - n.log2 : ℕ) : ℤ) := by omega
      rw [hplace, hscale, zpow_neg, zpow_natCast]
      push_cast
      field_simp
    have hzero : x.isZero = false := by
      by_contra hzero
      have hrank : x.rank = 0 := by simpa [isZero] using hzero
      simp only [magnitude, significand, hrank] at hmagnitude
      norm_num at hmagnitude
      exact hpos.ne (by exact_mod_cast hmagnitude)
    have hquotient : ((n : ℕ) : ℚ) / (1 : ℕ) = x.magnitude := by rw [hmagnitude]; simp
    rw [ofNat, ofRatio_eq_withSign hzero false one_pos hquotient]
    exact hmagnitude

theorem negative_ofRatio (negative : Bool) (numerator denominator : ℕ) :
    (ofRatio negative numerator denominator).negative = negative := by
  unfold ofRatio
  split
  · rfl
  split <;> rfl

/-- A quotient of numbers is rounded like any other spelling of it. -/
theorem div_eq_ofRatio {x y : Binary64} (hy : 0 < y.magnitude) (hden : 0 < denominator)
    (h : x.magnitude / y.magnitude = numerator / denominator) :
    x.div y = ofRatio (x.negative != y.negative) numerator denominator := by
  have hnum : 0 < y.numerator := by
    apply Nat.pos_of_ne_zero
    intro hnum
    rw [magnitude_eq_div, hnum, Nat.cast_zero, zero_div] at hy
    exact hy.ne rfl
  refine ofRatio_congr _ (Nat.mul_pos x.denominator_pos hnum) hden ?_
  rw [← h, magnitude_eq_div x, magnitude_eq_div y, div_div_div_eq]
  push_cast
  rfl

end Binary64

namespace Decimal

/-- A whole number divided by a small power of ten is read as the number nearest to it. -/
theorem toBinary64_eq_ofRatio (negative : Bool) {coefficient : ℕ} (hpos : 0 < coefficient)
    (h : coefficient < 2 ^ 53) {places : ℕ} (hplaces : places ≤ 22) :
    toBinary64 negative ⟨coefficient, -places⟩ =
      Binary64.ofRatio negative coefficient (10 ^ places) := by
  have hstrip := coefficient_strip_pos hpos (-places : ℤ)
  have hvalue : (strip coefficient (-places)).value = coefficient / 10 ^ places := by
    rw [value_strip, zpow_neg, zpow_natCast, div_eq_mul_inv]
  obtain ⟨hlow, hhigh⟩ := value_bounds hstrip
  rw [hvalue] at hlow hhigh
  unfold toBinary64
  extract_lets stripped digitsBefore
  -- the decimal lies between `10 ^ -22` and `10 ^ 16`, so neither cutoff applies
  have hless : (coefficient : ℚ) / 10 ^ places < 10 ^ (16 : ℤ) := by
    have hcoefficient : (coefficient : ℚ) < 10 ^ (16 : ℤ) := by
      have hlt : coefficient < 10 ^ 16 := by omega
      exact_mod_cast hlt
    exact (div_le_self (by positivity) (one_le_pow₀ (by norm_num))).trans_lt hcoefficient
  have hmore : (10 : ℚ) ^ (-22 : ℤ) ≤ coefficient / 10 ^ places := by
    rw [zpow_neg, zpow_ofNat, ← one_div]
    have hone : (1 : ℚ) ≤ coefficient := by exact_mod_cast hpos
    gcongr
    norm_num
  have hmany : digitsBefore - 1 < 16 :=
    (zpow_lt_zpow_iff_right₀ (by norm_num : (1 : ℚ) < 10)).mp (hlow.trans_lt hless)
  have hfew : -22 < digitsBefore :=
    (zpow_lt_zpow_iff_right₀ (by norm_num : (1 : ℚ) < 10)).mp (hmore.trans_lt hhigh)
  rw [if_neg hstrip.ne', if_neg (by omega), if_neg (by omega)]
  refine Binary64.ofRatio_congr negative (Nat.pow_pos (by norm_num)) (by positivity) ?_
  push_cast
  rw [← hvalue, value, zpow_eq_div_pow (by norm_num), mul_div_assoc', Nat.pow_eq, Nat.pow_eq]
  push_cast
  rfl

end Decimal

namespace Json.Numeral

/-- A small power of ten is not rounded. -/
theorem magnitude_powerOfTen {places : ℕ} (h : places ≤ 22) :
    (powerOfTen places).magnitude = 10 ^ places := by
  have hexact : ∀ places ≤ 22,
      (powerOfTen places).numerator = 10 ^ places * (powerOfTen places).denominator := by
    decide +kernel
  rw [Binary64.magnitude_eq_div, hexact places h]
  have hden : ((powerOfTen places).denominator : ℚ) ≠ 0 := by
    exact_mod_cast (powerOfTen places).denominator_pos.ne'
  push_cast
  rw [mul_div_assoc, div_self hden, mul_one]

/-- Both are numbers, so their quotient is rounded once. -/
theorem ofNat_div_powerOfTen {coefficient : ℕ} (h : coefficient < 2 ^ 53) {places : ℕ}
    (hplaces : places ≤ 22) :
    (Binary64.ofNat coefficient).div (powerOfTen places) =
      Decimal.toBinary64 false ⟨coefficient, -places⟩ := by
  have hsign : (powerOfTen places).negative = false :=
    congrArg Binary64.negative (Decimal.toBinary64_eq_withSign false ⟨1, places⟩)
  have hpower : 0 < (powerOfTen places).magnitude := by
    rw [magnitude_powerOfTen hplaces]
    positivity
  have hquotient : (Binary64.ofNat coefficient).magnitude / (powerOfTen places).magnitude =
      (coefficient : ℚ) / (10 ^ places : ℕ) := by
    rw [Binary64.magnitude_ofNat h, magnitude_powerOfTen hplaces]
    push_cast
    rfl
  rw [Binary64.div_eq_ofRatio hpower (by positivity) hquotient, hsign, Binary64.ofNat,
    Binary64.negative_ofRatio, bne_self_eq_false]
  rcases Nat.eq_zero_or_pos coefficient with rfl | hpos
  · simp [Binary64.ofRatio, Decimal.toBinary64, Decimal.strip_zero]
  · exact (Decimal.toBinary64_eq_ofRatio false hpos h hplaces).symm

end Json.Numeral

end ArchDiagram

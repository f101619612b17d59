/-
# Numbers without a point

A property that is spelled as a sign, digits and possibly a power of ten stands for a
rational (`Literal.value`). Digits alone are read exactly: a whole number of 64 bits as the
integer it is, and a greater one as a real number. With a power of ten the number is rounded
first and then taken for whole if the rounded number is. So such a literal is read exactly
unless it is the least whole number of 64 bits, or one that is no number of the binary64
format, or a fraction whose nearest number is whole (`Literal.Strays`,
`Literal.isExact_iff_not_strays`).
-/

import ArchDiagram.Document.Section
import ArchDiagram.Proofs.Binary64.Nearest
import ArchDiagram.Proofs.Document.Numbers

namespace ArchDiagram

theorem Property.fits_iff {n : ℤ} : Property.fits n = true ↔ -(2 ^ 63) ≤ n ∧ n < 2 ^ 63 := by
  simp [Property.fits]

namespace Document

/-! ## Spellings -/

/-- How a sign is spelled. -/
inductive Sign
  | absent
  | plus
  | minus
deriving DecidableEq, Repr

namespace Sign

def text : Sign → List Char
  | .absent => []
  | .plus => ['+']
  | .minus => ['-']

def negative : Sign → Bool
  | .minus => true
  | .absent | .plus => false

/-- The number with the sign in front. -/
def apply {α : Type} [Neg α] (sign : Sign) (magnitude : α) : α :=
  if sign.negative then -magnitude else magnitude

theorem splitSign_text (sign : Sign) {rest : List Char} (h : Numeral.NoSign rest) :
    Numeral.splitSign (sign.text ++ rest) = (sign.negative, rest) := by
  cases sign with
  | absent => exact Numeral.splitSign_signed false h
  | plus => rfl
  | minus => rfl

end Sign

/-- Decimal digits, at least one. -/
structure Digits where
  chars : List Char
  ne_nil : chars ≠ []
  isDigit : ∀ c ∈ chars, c.isDigit = true

/-- The natural number that digits spell. -/
def Digits.value (digits : Digits) : ℕ := Decimal.ofDigits digits.chars

/-- A power of ten, behind a letter that may be great or small. -/
structure PowerOfTen where
  capital : Bool
  sign : Sign
  digits : Digits

namespace PowerOfTen

def text (power : PowerOfTen) : List Char :=
  (if power.capital then 'E' else 'e') :: (power.sign.text ++ power.digits.chars)

/-- The exponent that is given. -/
def value (power : PowerOfTen) : ℤ := power.sign.apply (power.digits.value : ℤ)

end PowerOfTen

/-- A number that is spelled without a point. -/
structure Literal where
  sign : Sign
  digits : Digits
  power : Option PowerOfTen

namespace Literal

def text (literal : Literal) : List Char :=
  literal.sign.text ++ (literal.digits.chars ++ (literal.power.map PowerOfTen.text).getD [])

/-- The exponent of ten. -/
def exponent (literal : Literal) : ℤ := (literal.power.map PowerOfTen.value).getD 0

/-- The rational a literal denotes. -/
def value (literal : Literal) : ℚ :=
  literal.sign.apply (literal.digits.value * 10 ^ literal.exponent)

/-! ## Reading a literal -/

/-- The numeral of a literal. -/
def numeral (literal : Literal) : Numeral where
  negative := literal.sign.negative
  whole := literal.digits.chars
  fraction := none
  power := literal.power.map fun power => (power.sign.negative, power.digits.chars)

/-- The number that a literal is rounded to. -/
def nearest (literal : Literal) : Binary64 := literal.numeral.toBinary64

theorem noSign_digits (digits : Digits) (rest : List Char) :
    Numeral.NoSign (digits.chars ++ rest) :=
  Numeral.noSign_of_isDigit digits.ne_nil digits.isDigit

theorem power?_text (power : Option PowerOfTen) :
    Numeral.power? ((power.map PowerOfTen.text).getD []) =
      some (power.map fun power => (power.sign.negative, power.digits.chars)) := by
  cases power with
  | none => rfl
  | some power =>
      have hsign := power.sign.splitSign_text (noSign_digits power.digits [])
      have hall : power.digits.chars.all Char.isDigit = true :=
        List.all_eq_true.mpr power.digits.isDigit
      rw [List.append_nil] at hsign
      cases hcapital : power.capital <;>
        simp [Numeral.power?, PowerOfTen.text, hcapital, hsign, power.digits.ne_nil, hall]

/-- A letter stands in front of the power of ten. -/
theorem head?_power (power : Option PowerOfTen) :
    ∀ c ∈ ((power.map PowerOfTen.text).getD []).head?, c = 'e' ∨ c = 'E' := by
  cases power with
  | none => simp
  | some power =>
      rintro c ⟨⟩
      cases power.capital with
      | false => exact Or.inl rfl
      | true => exact Or.inr rfl

theorem noDigit_power (power : Option PowerOfTen) :
    Numeral.NoDigit ((power.map PowerOfTen.text).getD []) := by
  intro c hc
  rcases head?_power power c hc with rfl | rfl <;> decide

/-- A literal is read as its numeral. -/
theorem ofText?_text (literal : Literal) :
    Numeral.ofText? literal.text = some literal.numeral := by
  have hletter := head?_power literal.power
  have hdigit := noDigit_power literal.power
  have hpower := power?_text literal.power
  rw [text, numeral]
  generalize (literal.power.map PowerOfTen.text).getD [] = tail at hletter hdigit hpower
  have hfraction : Numeral.splitFraction tail = (none, tail) := by
    unfold Numeral.splitFraction
    split
    · exact absurd (hletter '.' rfl) (by decide)
    · rfl
  simp only [Numeral.ofText?, literal.sign.splitSign_text (noSign_digits literal.digits tail),
    Numeral.takeWhile_isDigit_append literal.digits.isDigit hdigit,
    Numeral.dropWhile_isDigit_append literal.digits.isDigit hdigit, hfraction, hpower,
    literal.digits.ne_nil, false_and, if_false]
  rfl

theorem propertyOf_text (literal : Literal) :
    propertyOf literal.text = literal.numeral.toProperty := by
  rw [propertyOf, literal.ofText?_text]

/-- No number is nearer to a literal than what it is rounded to. -/
theorem isNearest_nearest (literal : Literal) : literal.nearest.IsNearest literal.value := by
  have hread : literal.nearest =
      Decimal.toBinary64 literal.sign.negative ⟨literal.digits.value, literal.exponent⟩ := by
    cases hpower : literal.power <;>
      simp [nearest, Numeral.toBinary64, numeral, exponent, hpower, PowerOfTen.value, Sign.apply,
        Digits.value]
  rw [hread]
  exact Decimal.isNearest_toBinary64 literal.sign.negative
    ⟨literal.digits.value, literal.exponent⟩

/-- Digits alone denote a whole number. -/
theorem value_eq_of_power_eq_none {literal : Literal} (h : literal.power = none) :
    literal.value = (literal.sign.apply (literal.digits.value : ℤ) : ℤ) := by
  simp only [value, exponent, h, Option.map_none, Option.getD_none, zpow_zero, mul_one, Sign.apply]
  split <;> simp

theorem integer?_numeral (literal : Literal) :
    literal.numeral.integer? =
      if literal.power.isSome then none
      else some (literal.sign.apply (literal.digits.value : ℤ)) := by
  cases hpower : literal.power <;>
    simp [numeral, Numeral.integer?, hpower, Sign.apply, Digits.value]

/-! ## What a literal is read as -/

variable {literal : Literal} {n : ℤ}

/-- A whole number of 64 bits is read as it is if no power of ten is given. -/
theorem propertyOf_text_of_plain (hpower : literal.power = none) (hvalue : literal.value = n)
    (hrange : -(2 ^ 63) ≤ n ∧ n < 2 ^ 63) : propertyOf literal.text = .integer n := by
  have hsigned : literal.sign.apply (literal.digits.value : ℤ) = n := by
    exact_mod_cast (value_eq_of_power_eq_none hpower).symm.trans hvalue
  have hinteger : literal.numeral.integer?.filter Property.fits = some n := by
    simp [integer?_numeral, hpower, hsigned, Property.fits_iff.mpr hrange]
  rw [propertyOf_text, Numeral.toProperty, hinteger]

/-- Everything else goes through the nearest number. -/
theorem propertyOf_text_of_rounded
    (h : literal.power = none → ∀ n : ℤ, literal.value = n → ¬(-(2 ^ 63) ≤ n ∧ n < 2 ^ 63)) :
    propertyOf literal.text =
      match literal.nearest.toInt? with
      | some n => if n.natAbs < 2 ^ 63 then .integer n else .real literal.nearest
      | none => .real literal.nearest := by
  have hinteger : literal.numeral.integer?.filter Property.fits = none := by
    rw [integer?_numeral]
    split
    · rfl
    · rename_i hpower
      have hnone := Option.not_isSome_iff_eq_none.mp hpower
      rw [Option.filter_some, if_neg]
      exact fun hfits => h hnone _ (value_eq_of_power_eq_none hnone) (Property.fits_iff.mp hfits)
  have hfraction : literal.numeral.fraction = none := rfl
  simp only [propertyOf_text, Numeral.toProperty, hinteger, hfraction, nearest]
  cases literal.numeral.toBinary64.toInt? <;> rfl

theorem propertyOf_text_of_whole
    (h : literal.power = none → ∀ n : ℤ, literal.value = n → ¬(-(2 ^ 63) ≤ n ∧ n < 2 ^ 63))
    (hnearest : literal.nearest.value = n) (hrange : n.natAbs < 2 ^ 63) :
    propertyOf literal.text = .integer n := by
  rw [propertyOf_text_of_rounded h, Binary64.toInt?_eq_some hnearest hrange]
  exact if_pos hrange

theorem propertyOf_text_of_real
    (h : literal.power = none → ∀ n : ℤ, literal.value = n → ¬(-(2 ^ 63) ≤ n ∧ n < 2 ^ 63))
    (hnearest : ∀ n : ℤ, literal.nearest.value = n → 2 ^ 63 ≤ n.natAbs) :
    propertyOf literal.text = .real literal.nearest := by
  rw [propertyOf_text_of_rounded h]
  split
  · rename_i n hn
    exact if_neg (not_lt.mpr (hnearest n (Binary64.value_eq_of_toInt? hn)))
  · rfl

/-- The rounding of a great number is great. -/
theorem le_natAbs_of_nearest (hgreat : 2 ^ 63 ≤ |literal.value|)
    (hnearest : literal.nearest.value = n) : 2 ^ 63 ≤ n.natAbs := by
  have hpower := literal.isNearest_nearest.two_pow_le (by norm_num) hgreat
  rw [hnearest, ← Int.cast_abs, ← Nat.cast_natAbs] at hpower
  exact_mod_cast hpower

/-! ## What is read exactly -/

/-- A literal is read exactly: as the whole number it denotes if that has 64 bits, and
otherwise as a real number. -/
structure IsExact (literal : Literal) : Prop where
  integer : ∀ n : ℤ, literal.value = n → -(2 ^ 63) ≤ n ∧ n < 2 ^ 63 →
    propertyOf literal.text = .integer n
  real : (∀ n : ℤ, literal.value = n → ¬(-(2 ^ 63) ≤ n ∧ n < 2 ^ 63)) →
    ∃ x, propertyOf literal.text = .real x

/-- The literals with a power of ten that are not read exactly. -/
inductive Strays (literal : Literal) : Prop
  /-- The least whole number of 64 bits. -/
  | least (hpower : literal.power.isSome) (hvalue : literal.value = (-(2 ^ 63) : ℤ))
  /-- A whole number of 64 bits that is rounded to another number. -/
  | rounded (n : ℤ) (hpower : literal.power.isSome) (hvalue : literal.value = n)
      (hrange : -(2 ^ 63) ≤ n ∧ n < 2 ^ 63) (hnearest : literal.nearest.value ≠ n)
  /-- A fraction that is rounded to a whole number of 64 bits. -/
  | lost (n : ℤ) (hpower : literal.power.isSome) (hvalue : ∀ m : ℤ, literal.value ≠ m)
      (hnearest : literal.nearest.value = n) (hrange : n.natAbs < 2 ^ 63)

theorem not_isExact_of_strays (h : literal.Strays) : ¬literal.IsExact := by
  intro hexact
  have hpower : literal.power.isSome := by cases h <;> assumption
  have hrounded : literal.power = none →
      ∀ n : ℤ, literal.value = n → ¬(-(2 ^ 63) ≤ n ∧ n < 2 ^ 63) := by
    simp [Option.isSome_iff_ne_none.mp hpower]
  cases h with
  | least _ hvalue =>
      -- the number is one of the format, but its magnitude has 64 bits
      obtain ⟨y, hnegative, hmagnitude⟩ := Binary64.exists_magnitude_eq_two_pow true
        (show 63 ≤ 1023 by norm_num)
      have hy : y.value = literal.value := by
        rw [hvalue, Binary64.value, hnegative, hmagnitude, if_pos rfl]
        norm_num
      have hnearest := literal.isNearest_nearest.value_eq hy
      have hreal := propertyOf_text_of_real hrounded fun n hn => by
        have : n = -(2 ^ 63) := by exact_mod_cast hn.symm.trans (hnearest.trans hvalue)
        omega
      have hinteger := hexact.integer _ hvalue (by norm_num)
      simp [hreal] at hinteger
  | rounded n _ hvalue hrange hnearest =>
      have hinteger := hexact.integer n hvalue hrange
      rw [propertyOf_text_of_rounded hrounded] at hinteger
      split at hinteger
      · rename_i m hm
        split at hinteger
        · obtain rfl := Property.integer.inj hinteger
          exact hnearest (Binary64.value_eq_of_toInt? hm)
        · cases hinteger
      · cases hinteger
  | lost n _ hvalue hnearest hrange =>
      obtain ⟨x, hreal⟩ := hexact.real fun m hm => absurd hm (hvalue m)
      rw [propertyOf_text_of_whole hrounded hnearest hrange] at hreal
      cases hreal

theorem isExact_of_not_strays (h : ¬literal.Strays) : literal.IsExact where
  integer n hvalue hrange := by
    cases hpower : literal.power with
    | none => exact propertyOf_text_of_plain hpower hvalue hrange
    | some power =>
        have hsome : literal.power.isSome := by simp [hpower]
        have hleast : n ≠ -(2 ^ 63) := fun hn => h (.least hsome (by rw [hvalue, hn]))
        have hnearest : literal.nearest.value = n := by
          by_contra hother
          exact h (.rounded n hsome hvalue hrange hother)
        exact propertyOf_text_of_whole (by simp [hpower]) hnearest (by omega)
  real hreal := by
    refine ⟨_, propertyOf_text_of_real (fun _ => hreal) fun n hn => ?_⟩
    by_contra! hrange
    by_cases hwhole : ∃ m : ℤ, literal.value = m
    · obtain ⟨m, hm⟩ := hwhole
      have hgreat : (2 : ℤ) ^ 63 ≤ |m| := by
        have hout := hreal m hm
        rw [le_abs]
        omega
      refine absurd (le_natAbs_of_nearest ?_ hn) (not_le.mpr hrange)
      rw [hm]
      exact_mod_cast hgreat
    · push Not at hwhole
      cases hpower : literal.power with
      | none => exact hwhole _ (value_eq_of_power_eq_none hpower)
      | some power => exact h (.lost n (by simp [hpower]) hwhole hn hrange)

/-- The strays are all that is not read exactly, and what is read is the number a literal
denotes or the one of the format that is nearest to it. -/
theorem isExact_iff_not_strays (literal : Literal) :
    (literal.IsExact ↔ ¬literal.Strays) ∧ literal.nearest.IsNearest literal.value ∧
      (propertyOf literal.text = .real literal.nearest ∨
        ∃ n : ℤ, propertyOf literal.text = .integer n ∧
          ((n : ℚ) = literal.value ∨ (n : ℚ) = literal.nearest.value)) := by
  refine ⟨⟨fun hexact hstrays => not_isExact_of_strays hstrays hexact, isExact_of_not_strays⟩,
    literal.isNearest_nearest, ?_⟩
  by_cases hplain : literal.power = none ∧
      ∃ n : ℤ, literal.value = n ∧ -(2 ^ 63) ≤ n ∧ n < 2 ^ 63
  · obtain ⟨hpower, n, hvalue, hrange⟩ := hplain
    exact Or.inr ⟨n, propertyOf_text_of_plain hpower hvalue hrange, Or.inl hvalue.symm⟩
  · have hrounded : literal.power = none →
        ∀ n : ℤ, literal.value = n → ¬(-(2 ^ 63) ≤ n ∧ n < 2 ^ 63) :=
      fun hpower n hvalue hrange => hplain ⟨hpower, n, hvalue, hrange⟩
    by_cases hwhole : ∃ n : ℤ, literal.nearest.value = n ∧ n.natAbs < 2 ^ 63
    · obtain ⟨n, hnearest, hrange⟩ := hwhole
      exact Or.inr ⟨n, propertyOf_text_of_whole hrounded hnearest hrange, Or.inr hnearest.symm⟩
    · refine Or.inl (propertyOf_text_of_real hrounded fun n hnearest => ?_)
      by_contra! hrange
      exact hwhole ⟨n, hnearest, hrange⟩

/-- A fraction that is smaller than every number of the format. -/
example : propertyOf "1e-400".toList = .integer 0 := by decide +kernel

/-- The least whole number of 64 bits. -/
example : propertyOf "-9223372036854775808e0".toList =
    .real (Binary64.ofInt (-9223372036854775808)) := by decide +kernel

/-- The odd number after `2 ^ 53`, with a power of ten that changes nothing. -/
theorem not_forall_isExact : ¬∀ literal : Literal, literal.IsExact := by
  intro h
  have hexact := h
    ⟨.absent, ⟨"9007199254740993".toList, by decide, List.all_eq_true.mp (by decide)⟩,
      some ⟨false, .absent, ⟨['0'], by decide, List.all_eq_true.mp (by decide)⟩⟩⟩
  have hdigits : Decimal.ofDigits "9007199254740993".toList = 9007199254740993 := by decide
  have hpower : Decimal.ofDigits ['0'] = 0 := by decide
  have hinteger := hexact.integer 9007199254740993
    (by norm_num [value, exponent, PowerOfTen.value, Digits.value, Sign.apply, Sign.negative,
      hdigits, hpower]) (by norm_num)
  exact absurd hinteger (by decide +kernel)

end Literal

end Document

end ArchDiagram

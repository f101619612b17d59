/-
# Numbers that read back

The text of a number in a document is read as the same number: whole numbers by
their digits, real numbers by the shortest decimal that reads back, whichever of
the two notations sets it out. Infinity alone has no such text. Main statement:
`propertyOf_propertyText`, for every property that is not infinite.
-/

import ArchDiagram.Document.Printer
import ArchDiagram.Document.Section
import ArchDiagram.Proofs.Binary64.Readback
import ArchDiagram.Proofs.Document.Expressible

namespace ArchDiagram

namespace Decimal

theorem isDigit_of_mem_digits {n : ℕ} {c : Char} (h : c ∈ digits n) : c.isDigit = true :=
  Nat.isDigit_of_mem_toDigits (by norm_num) le_rfl h

theorem digits_ne_nil (n : ℕ) : digits n ≠ [] :=
  Nat.toDigits_ne_nil

@[simp]
theorem ofDigits_digits (n : ℕ) : ofDigits (digits n) = n :=
  Nat.ofDigitChars_ten_toDigits

theorem ofDigits_append (first second : List Char) :
    ofDigits (first ++ second) = ofDigits first * 10 ^ second.length + ofDigits second := by
  induction second using List.reverseRecOn with
  | nil => simp [ofDigits]
  | append_singleton second c ih =>
      -- a digit at the end is added last
      have hsnoc (digits : List Char) : ofDigits (digits ++ [c]) =
          10 * ofDigits digits + (c.toNat - '0'.toNat) := by simp [ofDigits]
      rw [← List.append_assoc, hsnoc, hsnoc, ih, List.length_append, pow_add]
      simp only [List.length_singleton, pow_one]
      ring

@[simp]
theorem ofDigits_replicate_zero (count : ℕ) : ofDigits (List.replicate count '0') = 0 := by
  induction count with
  | zero => rfl
  | succ count ih =>
      rw [List.replicate_succ', ofDigits_append, ih]
      simp [ofDigits]

end Decimal

namespace Document

namespace Numeral

/-- The text of a fraction. -/
def fractionText : Option (List Char) → List Char
  | none => []
  | some digits => '.' :: digits

/-- The text of a power of ten. -/
def powerText : Option (Bool × List Char) → List Char
  | none => []
  | some (negative, digits) => 'e' :: ((if negative then ['-'] else []) ++ digits)

/-- The text that spells a numeral. -/
def spelling (numeral : Numeral) : List Char :=
  (if numeral.negative then ['-'] else []) ++
    (numeral.whole ++ (fractionText numeral.fraction ++ powerText numeral.power))

/-- The parts of a numeral are digits, with one on either side of the point and one in
the power. -/
structure Valid (numeral : Numeral) : Prop where
  whole : ∀ c ∈ numeral.whole, c.isDigit = true
  fraction : ∀ digits ∈ numeral.fraction, ∀ c ∈ digits, c.isDigit = true
  some_digit : numeral.whole ≠ [] ∨ numeral.fraction.getD [] ≠ []
  power : ∀ power ∈ numeral.power, power.2 ≠ [] ∧ ∀ c ∈ power.2, c.isDigit = true

/-- No digit stands at the start of a text. -/
def NoDigit (text : List Char) : Prop := ∀ c ∈ text.head?, c.isDigit = false

theorem takeWhile_isDigit_append {digits rest : List Char}
    (hdigits : ∀ c ∈ digits, c.isDigit = true) (hrest : NoDigit rest) :
    (digits ++ rest).takeWhile Char.isDigit = digits := by
  rw [List.takeWhile_append_of_pos hdigits]
  cases rest with
  | nil => simp
  | cons c rest => simp [hrest c rfl]

theorem dropWhile_isDigit_append {digits rest : List Char}
    (hdigits : ∀ c ∈ digits, c.isDigit = true) (hrest : NoDigit rest) :
    (digits ++ rest).dropWhile Char.isDigit = rest := by
  rw [List.dropWhile_append_of_pos hdigits]
  cases rest with
  | nil => rfl
  | cons c rest => simp [hrest c rfl]

/-- Neither sign stands at the start of a text. -/
def NoSign (text : List Char) : Prop := ∀ c ∈ text.head?, c ≠ '-' ∧ c ≠ '+'

theorem noSign_of_isDigit {digits rest : List Char} (hsome : digits ≠ [])
    (hdigits : ∀ c ∈ digits, c.isDigit = true) : NoSign (digits ++ rest) := by
  obtain ⟨first, others, rfl⟩ := List.exists_cons_of_ne_nil hsome
  rintro c ⟨⟩
  have hfirst := hdigits first List.mem_cons_self
  exact ⟨by rintro rfl; exact absurd hfirst (by decide),
    by rintro rfl; exact absurd hfirst (by decide)⟩

theorem splitSign_signed (negative : Bool) {text : List Char} (h : NoSign text) :
    splitSign ((if negative then ['-'] else []) ++ text) = (negative, text) := by
  cases negative with
  | true => rfl
  | false =>
      simp only [Bool.false_eq_true, if_false, List.nil_append]
      unfold splitSign
      split
      · exact absurd rfl (h _ rfl).1
      · exact absurd rfl (h _ rfl).2
      · rfl

theorem power?_powerText {power : Option (Bool × List Char)}
    (h : ∀ spelled ∈ power, spelled.2 ≠ [] ∧ ∀ c ∈ spelled.2, c.isDigit = true) :
    power? (powerText power) = some power := by
  cases power with
  | none => rfl
  | some spelled =>
      obtain ⟨negative, digits⟩ := spelled
      obtain ⟨hsome, hdigits⟩ := h _ rfl
      have hsign : NoSign digits := by
        rw [← List.append_nil digits]
        exact noSign_of_isDigit hsome hdigits
      have hall : digits.all Char.isDigit = true := List.all_eq_true.mpr hdigits
      simp [power?, powerText, splitSign_signed negative hsign, hsome, hall]

theorem head?_powerText (power : Option (Bool × List Char)) :
    ∀ c ∈ (powerText power).head?, c = 'e' := by
  cases power with
  | none => simp [powerText]
  | some spelled => simp [powerText]

theorem noDigit_powerText (power : Option (Bool × List Char)) : NoDigit (powerText power) := by
  intro c hc
  rw [head?_powerText power c hc]
  decide

theorem noDigit_fractionText_append (fraction : Option (List Char))
    (power : Option (Bool × List Char)) : NoDigit (fractionText fraction ++ powerText power) := by
  cases fraction with
  | none => exact noDigit_powerText power
  | some digits =>
      rintro c ⟨⟩
      decide

theorem splitFraction_fractionText {fraction : Option (List Char)}
    (hdigits : ∀ digits ∈ fraction, ∀ c ∈ digits, c.isDigit = true)
    (power : Option (Bool × List Char)) :
    splitFraction (fractionText fraction ++ powerText power) = (fraction, powerText power) := by
  cases fraction with
  | none =>
      simp only [fractionText, List.nil_append]
      unfold splitFraction
      -- behind the digits stands a power of ten or nothing, but never a point
      split
      · rename_i rest heq
        exact absurd (head?_powerText power '.' (by rw [heq]; rfl)) (by decide)
      · rfl
  | some digits =>
      have hrest := noDigit_powerText power
      simp only [fractionText, List.cons_append, splitFraction,
        takeWhile_isDigit_append (hdigits _ rfl) hrest,
        dropWhile_isDigit_append (hdigits _ rfl) hrest]

/-- A valid numeral is read from its spelling. -/
theorem ofText?_spelling {numeral : Numeral} (h : numeral.Valid) :
    ofText? numeral.spelling = some numeral := by
  obtain ⟨negative, whole, fraction, power⟩ := numeral
  obtain ⟨hwhole, hfraction, hsome, hpower⟩ := h
  simp only at hwhole hfraction hsome hpower
  have hrest := noDigit_fractionText_append fraction power
  have hsign : NoSign (whole ++ (fractionText fraction ++ powerText power)) := by
    cases hfirst : whole with
    | cons c rest => exact noSign_of_isDigit (by simp) (hfirst ▸ hwhole)
    | nil =>
        -- without a digit before the point there is a point
        cases fraction with
        | none => simp [hfirst] at hsome
        | some digits =>
            rintro c ⟨⟩
            decide
  have hnone : ¬(whole = [] ∧ fraction.getD [] = []) := by
    rintro ⟨hw, hf⟩
    exact hsome.elim (· hw) (· hf)
  -- each part is cut off where the next one begins
  simp only [ofText?, spelling, splitSign_signed negative hsign,
    takeWhile_isDigit_append hwhole hrest, dropWhile_isDigit_append hwhole hrest,
    splitFraction_fractionText hfraction power, hnone, if_false, power?_powerText hpower]
  rfl

/-- What a numeral with a point stands for is the nearest real number. -/
theorem toProperty_of_fraction {numeral : Numeral} (h : numeral.fraction.isSome) :
    numeral.toProperty = .real numeral.toBinary64 := by
  obtain ⟨digits, hdigits⟩ := Option.isSome_iff_exists.mp h
  have hinteger : numeral.integer? = none := by simp [integer?, hdigits]
  simp [toProperty, hinteger, hdigits]

/-! ## Whole numbers -/

/-- The numeral of an integer: a sign and digits. -/
def ofInt (value : ℤ) : Numeral where
  negative := decide (value < 0)
  whole := Decimal.digits value.natAbs
  fraction := none
  power := none

theorem valid_ofInt (value : ℤ) : (ofInt value).Valid where
  whole _ hc := Decimal.isDigit_of_mem_digits hc
  fraction := by simp [ofInt]
  some_digit := Or.inl (Decimal.digits_ne_nil _)
  power := by simp [ofInt]

theorem spelling_ofInt (value : ℤ) : (ofInt value).spelling = (toString value).toList := by
  rw [Int.toString_eq_repr, Int.repr_eq_if]
  simp only [spelling, ofInt, fractionText, powerText, List.append_nil, decide_eq_true_eq,
    Decimal.digits]
  split
  · rename_i hneg
    rw [if_neg (by omega), String.toList_append, Nat.toList_repr,
      show value.natAbs = (-value).toNat by omega]
    rfl
  · rename_i hpos
    rw [if_pos (by omega), Nat.toList_repr, show value.natAbs = value.toNat by omega]
    rfl

theorem toProperty_ofInt {value : ℤ} (h : Property.fits value = true) :
    (ofInt value).toProperty = .integer value := by
  have hvalue : (ofInt value).integer? = some value := by
    simp only [integer?, ofInt, Decimal.ofDigits_digits, decide_eq_true_eq, Option.some.injEq]
    omega
  simp only [toProperty, hvalue, Option.filter_some, h, if_true]

/-! ## Real numbers -/

/-- A numeral spells a number: it has a point and is read as the number. -/
structure Spells (numeral : Numeral) (x : Binary64) (text : List Char) : Prop where
  valid : numeral.Valid
  fraction : numeral.fraction.isSome
  spelling : numeral.spelling = (if numeral.negative then ['-'] else []) ++ text
  toBinary64 : numeral.toBinary64 = x

/-- A text with a sign spells one number. -/
theorem Spells.unique {numeral other : Numeral} {x y : Binary64} {text : List Char}
    (h : numeral.Spells x text) (hother : other.Spells y text)
    (hsign : numeral.negative = other.negative) : x = y := by
  have hread := ofText?_spelling h.valid
  rw [h.spelling, hsign, ← hother.spelling, ofText?_spelling hother.valid] at hread
  rw [← h.toBinary64, ← hother.toBinary64, Option.some.inj hread]

/-- Digits around a point spell the number that is nearest to them. -/
theorem spells_of_point (negative : Bool) (whole fraction : List Char)
    (hwhole : ∀ c ∈ whole, c.isDigit = true) (hfraction : ∀ c ∈ fraction, c.isDigit = true)
    (hsome : fraction ≠ []) :
    Spells ⟨negative, whole, some fraction, none⟩
      (Decimal.toBinary64 negative ⟨Decimal.ofDigits (whole ++ fraction), -fraction.length⟩)
      (whole ++ '.' :: fraction) where
  valid := by
    refine ⟨hwhole, ?_, Or.inr hsome, by simp⟩
    rintro _ ⟨⟩
    exact hfraction
  fraction := rfl
  spelling := by simp [Numeral.spelling, fractionText, powerText]
  toBinary64 := by simp [Numeral.toBinary64]

variable (negative : Bool) (coefficient : ℕ) (exponent : ℤ)

theorem isDigit_of_mem_replicate (count : ℕ) :
    ∀ c ∈ List.replicate count '0', c.isDigit = true := by
  intro c hc
  rw [List.eq_of_mem_replicate hc]
  decide

/-- A point before all digits, and zeros between it and them. -/
theorem exists_spells_pointBefore
    (hplaces : ((Decimal.digits coefficient).length : ℤ) + exponent ≤ 0) :
    ∃ numeral : Numeral, numeral.negative = negative ∧
      numeral.Spells (Decimal.toBinary64 negative ⟨coefficient, exponent⟩)
        ('0' :: '.' :: (List.replicate (-((Decimal.digits coefficient).length + exponent)).toNat '0'
          ++ Decimal.digits coefficient)) := by
  generalize hzeros : (-(((Decimal.digits coefficient).length : ℤ) + exponent)).toNat = zeros
  have hfraction : ∀ c ∈ List.replicate zeros '0' ++ Decimal.digits coefficient,
      c.isDigit = true := by
    intro c hc
    rcases List.mem_append.mp hc with hc | hc
    · exact isDigit_of_mem_replicate zeros c hc
    · exact Decimal.isDigit_of_mem_digits hc
  have hsome : List.replicate zeros '0' ++ Decimal.digits coefficient ≠ [] := by
    rw [ne_eq, List.append_eq_nil_iff, not_and]
    exact fun _ => Decimal.digits_ne_nil coefficient
  have hspells := spells_of_point negative ['0'] _ (by simp) hfraction hsome
  have hvalue : Decimal.ofDigits (['0'] ++ (List.replicate zeros '0' ++
      Decimal.digits coefficient)) = coefficient := by
    have hzero : Decimal.ofDigits ['0'] = 0 := rfl
    rw [Decimal.ofDigits_append, Decimal.ofDigits_append, hzero, Decimal.ofDigits_replicate_zero,
      Decimal.ofDigits_digits, zero_mul, zero_mul, zero_add, zero_add]
  have hexponent : -((List.replicate zeros '0' ++ Decimal.digits coefficient).length : ℤ) =
      exponent := by
    rw [List.length_append, List.length_replicate]
    omega
  rw [hvalue, hexponent] at hspells
  exact ⟨_, rfl, hspells⟩

/-- A point behind all digits, and zeros between them and it. -/
theorem exists_spells_pointBehind {whole : ℕ}
    (hplaces : ((Decimal.digits coefficient).length : ℤ) + exponent = whole)
    (hwhole : (Decimal.digits coefficient).length ≤ whole) :
    ∃ numeral : Numeral, numeral.negative = negative ∧
      numeral.Spells (Decimal.toBinary64 negative ⟨coefficient, exponent⟩)
        (Decimal.digits coefficient
          ++ List.replicate (whole - (Decimal.digits coefficient).length) '0' ++ ['.', '0']) := by
  generalize hzeros : whole - (Decimal.digits coefficient).length = zeros
  have hdigits : ∀ c ∈ Decimal.digits coefficient ++ List.replicate zeros '0',
      c.isDigit = true := by
    intro c hc
    rcases List.mem_append.mp hc with hc | hc
    · exact Decimal.isDigit_of_mem_digits hc
    · exact isDigit_of_mem_replicate zeros c hc
  have hspells := spells_of_point negative _ ['0'] hdigits (by simp) (by simp)
  have hvalue : Decimal.ofDigits (Decimal.digits coefficient ++ List.replicate zeros '0' ++ ['0']) =
      coefficient * 10 ^ (zeros + 1) := by
    rw [Decimal.ofDigits_append, Decimal.ofDigits_append, Decimal.ofDigits_digits,
      Decimal.ofDigits_replicate_zero, List.length_replicate, pow_succ]
    simp [Decimal.ofDigits, mul_assoc]
  -- the zeros behind the digits count for the exponent
  have hexponent : -(['0'].length : ℤ) + (zeros + 1 : ℕ) = exponent := by
    rw [List.length_singleton]
    push_cast
    omega
  rw [hvalue, Decimal.toBinary64_mul_ten_pow, hexponent] at hspells
  exact ⟨_, rfl, hspells⟩

/-- A point among the digits. -/
theorem exists_spells_pointAmong {whole : ℕ}
    (hplaces : ((Decimal.digits coefficient).length : ℤ) + exponent = whole)
    (hwhole : whole < (Decimal.digits coefficient).length) :
    ∃ numeral : Numeral, numeral.negative = negative ∧
      numeral.Spells (Decimal.toBinary64 negative ⟨coefficient, exponent⟩)
        ((Decimal.digits coefficient).take whole ++
          '.' :: (Decimal.digits coefficient).drop whole) := by
  have hbefore : ∀ c ∈ (Decimal.digits coefficient).take whole, c.isDigit = true :=
    fun c hc => Decimal.isDigit_of_mem_digits (List.mem_of_mem_take hc)
  have hbehind : ∀ c ∈ (Decimal.digits coefficient).drop whole, c.isDigit = true :=
    fun c hc => Decimal.isDigit_of_mem_digits (List.mem_of_mem_drop hc)
  have hsome : (Decimal.digits coefficient).drop whole ≠ [] := by
    rw [ne_eq, List.drop_eq_nil_iff]
    omega
  have hspells := spells_of_point negative _ _ hbefore hbehind hsome
  have hexponent : -(((Decimal.digits coefficient).drop whole).length : ℤ) = exponent := by
    rw [List.length_drop]
    omega
  rw [List.take_append_drop, Decimal.ofDigits_digits, hexponent] at hspells
  exact ⟨_, rfl, hspells⟩

/-- Positional notation spells the decimal, wherever the point falls. -/
theorem exists_spells_positionalText :
    ∃ numeral : Numeral, numeral.negative = negative ∧
      numeral.Spells (Decimal.toBinary64 negative ⟨coefficient, exponent⟩)
        (Layout.positionalText true (Decimal.digits coefficient)
          ((Decimal.digits coefficient).length + exponent)) := by
  unfold Layout.positionalText
  extract_lets whole
  split
  · rename_i hplaces
    exact exists_spells_pointBefore negative coefficient exponent hplaces
  split
  · rename_i hplaces hwhole
    exact exists_spells_pointBehind negative coefficient exponent (by omega) hwhole
  · rename_i hplaces hwhole
    exact exists_spells_pointAmong negative coefficient exponent (by omega) (by omega)

/-- The power of ten is read as what its digits were taken from. -/
theorem signed_natAbs (power : ℤ) :
    (if decide (power < 0) = true then -(power.natAbs : ℤ) else power.natAbs) = power := by
  simp only [decide_eq_true_eq]
  omega

/-- A digit, a fraction and a power of ten spell the number that is nearest to them. -/
theorem spells_of_power {first : Char} (hfirst : first.isDigit = true) (fraction : List Char)
    (hfraction : ∀ c ∈ fraction, c.isDigit = true) (power : ℤ) :
    Spells ⟨negative, [first], some fraction,
        some (decide (power < 0), Decimal.digits power.natAbs)⟩
      (Decimal.toBinary64 negative ⟨Decimal.ofDigits (first :: fraction), power - fraction.length⟩)
      (first :: '.' :: (fraction ++ 'e' ::
        ((if power < 0 then ['-'] else []) ++ Decimal.digits power.natAbs))) where
  valid := by
    refine ⟨by simpa using hfirst, ?_, Or.inl (by simp), ?_⟩
    · rintro _ ⟨⟩
      exact hfraction
    · rintro _ ⟨⟩
      exact ⟨Decimal.digits_ne_nil _, fun c hc => Decimal.isDigit_of_mem_digits hc⟩
  fraction := rfl
  spelling := by simp [Numeral.spelling, fractionText, powerText]
  toBinary64 := by simp only [Numeral.toBinary64, Option.getD_some, Decimal.ofDigits_digits,
    signed_natAbs, List.singleton_append]

/-- Scientific notation spells the decimal. -/
theorem exists_spells_scientificText :
    ∃ numeral : Numeral, numeral.negative = negative ∧
      numeral.Spells (Decimal.toBinary64 negative ⟨coefficient, exponent⟩)
        (layout.scientificText (Decimal.digits coefficient)
          ((Decimal.digits coefficient).length + exponent - 1)) := by
  obtain ⟨first, rest, hsplit⟩ := List.exists_cons_of_ne_nil (Decimal.digits_ne_nil coefficient)
  have hdigits : ∀ c ∈ first :: rest, c.isDigit = true :=
    fun c hc => Decimal.isDigit_of_mem_digits (hsplit ▸ hc)
  have hvalue : Decimal.ofDigits (first :: rest) = coefficient := by
    rw [← hsplit, Decimal.ofDigits_digits]
  rw [List.forall_mem_cons] at hdigits
  rw [hsplit]
  generalize hpower : ((first :: rest).length : ℤ) + exponent - 1 = power
  rw [List.length_cons] at hpower
  cases rest with
  | nil =>
      -- a single digit gets a zero behind the point, which counts for the exponent
      have hspells := spells_of_power negative hdigits.1 ['0'] (by simp) power
      have hscaled : Decimal.ofDigits [first, '0'] = coefficient * 10 ^ 1 := by
        rw [show [first, '0'] = [first] ++ ['0'] from rfl, Decimal.ofDigits_append, hvalue]
        simp [Decimal.ofDigits]
      have hexponent : power - (['0'].length : ℤ) + (1 : ℕ) = exponent := by
        simp only [List.length_nil, List.length_singleton] at hpower ⊢
        omega
      rw [hscaled, Decimal.toBinary64_mul_ten_pow, hexponent] at hspells
      exact ⟨_, rfl, hspells⟩
  | cons second others =>
      have hspells := spells_of_power negative hdigits.1 _ hdigits.2 power
      have hexponent : power - ((second :: others).length : ℤ) = exponent := by
        push_cast at hpower
        omega
      rw [hvalue, hexponent] at hspells
      exact ⟨_, rfl, hspells⟩

/-- The text of the magnitude of a finite number spells the number with its sign. -/
theorem exists_spells_magnitudeText {x : Binary64} (hfinite : x.isInfinite = false) :
    ∃ numeral : Numeral, numeral.negative = x.negative ∧
      numeral.Spells x (layout.magnitudeText x) := by
  simp only [Layout.magnitudeText, hfinite, Bool.false_eq_true, if_false]
  split
  · rename_i hzero
    have hspells := spells_of_point x.negative ['0'] ['0'] (by simp) (by simp) (by simp)
    have hx : Decimal.toBinary64 x.negative ⟨Decimal.ofDigits (['0'] ++ ['0']), -1⟩ = x := by
      obtain ⟨negative, rank, hle⟩ := x
      obtain rfl : rank = 0 := by simpa [Binary64.isZero] using hzero
      simp [Decimal.toBinary64, Decimal.ofDigits, Decimal.strip_zero, Binary64.zero,
        Binary64.ofRank]
    rw [List.length_singleton, Nat.cast_one, hx] at hspells
    exact ⟨_, rfl, hspells⟩
  · rename_i hzero
    have hread := Binary64.toBinary64_shortest (by simpa using hzero) layout.tie x.negative
    have hsign : x.withSign x.negative = x := rfl
    rw [hsign] at hread
    have hpositional := exists_spells_positionalText x.negative (x.shortest layout.tie).coefficient
      (x.shortest layout.tie).exponent
    have hscientific := exists_spells_scientificText x.negative (x.shortest layout.tie).coefficient
      (x.shortest layout.tie).exponent
    rw [hread] at hpositional hscientific
    split
    · exact hpositional
    · exact hscientific

/-- The text of a finite number spells it. -/
theorem exists_spelling_real {x : Binary64} (hfinite : x.isInfinite = false) :
    ∃ numeral : Numeral, numeral.Valid ∧ numeral.spelling = layout.text x ∧
      numeral.toProperty = .real x := by
  obtain ⟨numeral, hnegative, hspells⟩ := exists_spells_magnitudeText hfinite
  refine ⟨numeral, hspells.valid, ?_, ?_⟩
  · rw [hspells.spelling, hnegative]
    rfl
  · rw [toProperty_of_fraction hspells.fraction, hspells.toBinary64]

/-! ## No blanks in numbers -/

theorem isBlank_of_isDigit {c : Char} (h : c.isDigit = true) : Text.isBlank c = false := by
  simp only [Char.isDigit, ge_iff_le, Bool.and_eq_true, decide_eq_true_eq] at h
  have hlow : 48 ≤ c.toNat := h.1
  have hhigh : c.toNat ≤ 57 := h.2
  simp [Text.isBlank, Text.blankRanges]
  omega

theorem isBlank_of_mem_spelling {numeral : Numeral} (h : numeral.Valid) :
    ∀ c ∈ numeral.spelling, Text.isBlank c = false := by
  obtain ⟨negative, whole, fraction, power⟩ := numeral
  obtain ⟨hwhole, hfraction, -, hpower⟩ := h
  have hsign (minus : Bool) : ∀ c ∈ (if minus then ['-'] else []), Text.isBlank c = false := by
    cases minus with
    | true =>
        rw [if_pos rfl, List.forall_mem_singleton]
        decide
    | false => exact nofun
  simp only [spelling, List.forall_mem_append]
  refine ⟨hsign negative, fun c hc => isBlank_of_isDigit (hwhole c hc), ?_, ?_⟩
  · cases fraction with
    | none => exact nofun
    | some digits =>
        rw [fractionText, List.forall_mem_cons]
        exact ⟨by decide, fun c hc => isBlank_of_isDigit (hfraction _ rfl c hc)⟩
  · cases power with
    | none => exact nofun
    | some spelled =>
        rw [powerText, List.forall_mem_cons, List.forall_mem_append]
        exact ⟨by decide, hsign spelled.1,
          fun c hc => isBlank_of_isDigit ((hpower _ rfl).2 c hc)⟩

theorem spelling_ne_nil {numeral : Numeral} (h : numeral.Valid) : numeral.spelling ≠ [] := by
  obtain ⟨negative, whole, fraction, power⟩ := numeral
  intro hnil
  simp only [spelling, List.append_eq_nil_iff] at hnil
  rcases h.some_digit with hwhole | hfraction
  · exact hwhole hnil.2.1
  · cases fraction with
    | none => exact hfraction rfl
    | some digits => exact absurd hnil.2.2.1 (List.cons_ne_nil _ _)

/-- The text of a number is trimmed and keeps to one line. -/
theorem trimmed_spelling {numeral : Numeral} (h : numeral.Valid) :
    Text.Trimmed numeral.spelling ∧ '\n' ∉ numeral.spelling := by
  have hblank := isBlank_of_mem_spelling h
  refine ⟨Text.trimmed_iff.mpr ⟨fun c hc => hblank c (List.mem_of_mem_head? hc),
    fun c hc => hblank c (List.mem_of_getLast? hc)⟩, fun hbreak => ?_⟩
  exact absurd (hblank _ hbreak) (by decide)

end Numeral

/-! ## Quoted texts -/

theorem toList_quoted (value : String) :
    (quoted value).toList = '"' :: (Text.escape value.toList ++ ['"']) := by
  simp [quoted]

@[simp]
theorem unquote_quoted (value : String) :
    Text.unquote (quoted value).toList = some (Text.escape value.toList) := by
  rw [toList_quoted]
  simp [Text.unquote]

theorem quoted_ne (value : String) : quoted value ≠ "" := by
  intro h
  have hnil := congrArg String.toList h
  simp [toList_quoted] at hnil

/-- A text in quotes spells no number. -/
theorem ofText?_quoted (value : String) : Numeral.ofText? (quoted value).toList = none := by
  rw [toList_quoted]
  rfl

theorem trimmed_quoted (value : String) : Text.Trimmed (quoted value).toList := by
  rw [toList_quoted]
  exact Text.trimmed_between (by decide) (by decide) _

/-- What breaks a line or moves on in it is escaped. -/
theorem forall_mem_escape (text : List Char) :
    ∀ c ∈ Text.escape text, c ≠ '\n' ∧ c ≠ '\r' ∧ c ≠ '\t' := by
  fun_induction Text.escape text with
  | case1 => exact List.forall_mem_nil _
  | case7 c rest _ _ hfeed htab hreturn ih =>
      rw [List.forall_mem_cons]
      exact ⟨⟨hfeed, hreturn, htab⟩, ih⟩
  | _ => simp_all

theorem notMem_escape (text : List Char) : '\n' ∉ Text.escape text :=
  fun h => (forall_mem_escape text _ h).1 rfl

theorem notMem_quoted (value : String) : '\n' ∉ (quoted value).toList := by
  rw [toList_quoted]
  simp [notMem_escape]

/-! ## Properties -/

/-- The text of a number is a spelling of it. -/
theorem exists_spelling_propertyText {property : Property} (h : property.Expressible) :
    (∃ value, property = .text value) ∨ ∃ numeral : Numeral, numeral.Valid ∧
      numeral.spelling = (propertyText property).toList ∧ numeral.toProperty = property := by
  cases property with
  | integer value =>
      exact Or.inr ⟨_, Numeral.valid_ofInt value, Numeral.spelling_ofInt value,
        Numeral.toProperty_ofInt h⟩
  | real value =>
      obtain ⟨numeral, hvalid, hspelling, hvalue⟩ := Numeral.exists_spelling_real h
      exact Or.inr ⟨numeral, hvalid, by rw [hspelling, propertyText, String.toList_ofList], hvalue⟩
  | text value => exact Or.inl ⟨value, rfl⟩

/-- The text of a property stands on one line. -/
theorem tidy_propertyText {property : Property} (h : property.Expressible) :
    Tidy (propertyText property) := by
  rcases exists_spelling_propertyText h with ⟨value, rfl⟩ | ⟨numeral, hvalid, hspelling, -⟩
  · exact ⟨trimmed_quoted value, notMem_quoted value⟩
  · obtain ⟨htrimmed, hline⟩ := Numeral.trimmed_spelling hvalid
    exact ⟨hspelling ▸ htrimmed, hspelling ▸ hline⟩

theorem propertyText_ne {property : Property} (h : property.Expressible) :
    propertyText property ≠ "" := by
  intro hnil
  -- quotes or digits are always written
  rcases exists_spelling_propertyText h with ⟨value, rfl⟩ | ⟨numeral, hvalid, hspelling, -⟩
  · exact quoted_ne value hnil
  · rw [hnil] at hspelling
    exact Numeral.spelling_ne_nil hvalid hspelling

/-- A property is read from its text. -/
theorem propertyOf_propertyText {property : Property} (h : property.Expressible) :
    propertyOf (propertyText property).toList = property := by
  rcases exists_spelling_propertyText h with ⟨value, rfl⟩ | ⟨numeral, hvalid, hspelling, hvalue⟩
  · simp only [propertyText, propertyOf, ofText?_quoted, unquote_quoted, Text.unescape_escape,
      String.ofList_toList]
  · rw [propertyOf, ← hspelling, Numeral.ofText?_spelling hvalid]
    exact hvalue

end Document

end ArchDiagram

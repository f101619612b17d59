/-
# Numbers of JSON texts

The text of a number is one numeral wherever it stands, as long as nothing follows that
could belong to it. A zero in front stands alone, because the digits of a number do not
begin with one. A whole number is read back from its numeral if it fits. A real number is
written with a point or a power of ten, so whatever its numeral is read as, it is no whole
number (`exists_real_of_value?`). Reading may round twice and miss the number, but not if
the digits and the power of ten are small enough to be numbers themselves
(`value?_of_exact`).
-/

import ArchDiagram.Json.Printer
import ArchDiagram.Json.Token
import ArchDiagram.Proofs.Binary64.Quotients
import ArchDiagram.Proofs.Document.Numbers

namespace ArchDiagram.Json

/-- Nothing at the start of a text belongs to a number before it. -/
def Ends (text : List Char) : Prop :=
  ∀ c ∈ text.head?, c.isDigit = false ∧ c ≠ '.' ∧ c ≠ 'e' ∧ c ≠ 'E'

theorem ends_nil : Ends [] := nofun

theorem ends_cons {c : Char} (h : c.isDigit = false ∧ c ≠ '.' ∧ c ≠ 'e' ∧ c ≠ 'E')
    (rest : List Char) : Ends (c :: rest) := by
  rintro _ ⟨⟩
  exact h

theorem Ends.append {first second : List Char} (hfirst : Ends first) (hsecond : Ends second) :
    Ends (first ++ second) := by
  cases first with
  | nil => exact hsecond
  | cons c rest => exact ends_cons (hfirst c rfl) _

theorem Ends.noDigit {text : List Char} (h : Ends text) : Document.Numeral.NoDigit text :=
  fun c hc => (h c hc).1

namespace Numeral

/-- Digits that can stand before a point: there is one, and a zero in front stands alone. -/
structure Whole (digits : List Char) : Prop where
  isDigit : ∀ c ∈ digits, c.isDigit = true
  ne : digits ≠ []
  zero : digits.head? = some '0' → digits = ['0']

/-- The digits of a number other than zero do not begin with a zero. -/
theorem head?_digits {n : ℕ} (h : 0 < n) : (Decimal.digits n).head? ≠ some '0' := by
  induction n using Nat.strong_induction_on with
  | _ n ih =>
      by_cases hsmall : n < 10
      · rw [Decimal.digits, Nat.toDigits_of_lt_base hsmall]
        interval_cases n <;> decide
      · have hlead := ih (n / 10) (by omega) (by omega)
        rw [Decimal.digits, Nat.toDigits_of_base_le (by norm_num) (by omega),
          List.head?_append_of_ne_nil _ Nat.toDigits_ne_nil]
        exact hlead

theorem whole_zero : Whole ['0'] := ⟨by simp, by simp, fun _ => rfl⟩

theorem whole_digits (n : ℕ) : Whole (Decimal.digits n) where
  isDigit _ hc := Decimal.isDigit_of_mem_digits hc
  ne := Decimal.digits_ne_nil n
  zero hhead := by
    rcases Nat.eq_zero_or_pos n with rfl | hpos
    · rfl
    · exact absurd hhead (head?_digits hpos)

/-- The text of a fraction and of a power of ten, with its sign. -/
def tailText (fraction : Option (List Char)) (power : Option (Bool × List Char)) : List Char :=
  Document.Numeral.fractionText fraction ++
    match power with
    | none => []
    | some (negative, digits) => 'e' :: (if negative then '-' else '+') :: digits

/-- The text that spells the magnitude of a numeral. -/
def spelling (numeral : Numeral) : List Char :=
  numeral.whole ++ tailText numeral.fraction numeral.power

/-- The parts of a numeral are digits where there have to be digits. -/
structure Valid (numeral : Numeral) : Prop where
  whole : Whole numeral.whole
  fraction : ∀ digits ∈ numeral.fraction, digits ≠ [] ∧ ∀ c ∈ digits, c.isDigit = true
  power : ∀ power ∈ numeral.power, power.2 ≠ [] ∧ ∀ c ∈ power.2, c.isDigit = true

/-! ## Reading a spelling -/

variable {rest : List Char}

theorem spanDigits_append {digits : List Char} (hdigits : ∀ c ∈ digits, c.isDigit = true)
    (hrest : Document.Numeral.NoDigit rest) :
    Token.spanDigits (digits ++ rest) = (digits, rest) := by
  rw [Token.spanDigits, Document.Numeral.takeWhile_isDigit_append hdigits hrest,
    Document.Numeral.dropWhile_isDigit_append hdigits hrest]

theorem power?_append {power : Option (Bool × List Char)}
    (h : ∀ spelled ∈ power, spelled.2 ≠ [] ∧ ∀ c ∈ spelled.2, c.isDigit = true)
    (hrest : Ends rest) : Token.power? (tailText none power ++ rest) = some (power, rest) := by
  cases power with
  | none =>
      cases rest with
      | nil => rfl
      | cons c rest =>
          obtain ⟨-, -, hlower, hupper⟩ := hrest c rfl
          simp [tailText, Document.Numeral.fractionText, Token.power?, hlower, hupper]
  | some spelled =>
      obtain ⟨negative, digits⟩ := spelled
      obtain ⟨hsome, hdigits⟩ := h _ rfl
      have hspan := spanDigits_append hdigits hrest.noDigit
      cases digits with
      | nil => exact absurd rfl hsome
      | cons c others =>
          rw [List.cons_append] at hspan
          cases negative <;>
            simp [tailText, Document.Numeral.fractionText, Token.power?, hspan]

/-- A digit, a point or a letter stands at the start of what follows the digits. -/
theorem noDigit_tailText (fraction : Option (List Char)) (power : Option (Bool × List Char))
    (hrest : Ends rest) : Document.Numeral.NoDigit (tailText fraction power ++ rest) := by
  cases fraction with
  | some digits => rintro c ⟨⟩; decide
  | none =>
      cases power with
      | some spelled => rintro c ⟨⟩; decide
      | none => exact hrest.noDigit

theorem fraction?_append {fraction : Option (List Char)}
    (h : ∀ digits ∈ fraction, digits ≠ [] ∧ ∀ c ∈ digits, c.isDigit = true)
    (power : Option (Bool × List Char)) (hrest : Ends rest) :
    Token.fraction? (tailText fraction power ++ rest) =
      some (fraction, tailText none power ++ rest) := by
  cases fraction with
  | none =>
      -- behind the digits stands a power of ten or what follows, but never a point
      have hpoint : ∀ c ∈ (tailText none power ++ rest).head?, c ≠ '.' := by
        cases power with
        | some spelled => rintro c ⟨⟩; decide
        | none => exact fun c hc => (hrest c hc).2.1
      unfold Token.fraction?
      split
      · rename_i heq
        exact absurd rfl (hpoint '.' (by rw [heq]; rfl))
      · rfl
  | some digits =>
      obtain ⟨hsome, hdigits⟩ := h _ rfl
      have hspan := spanDigits_append hdigits (noDigit_tailText none power hrest)
      have htext : tailText (some digits) power ++ rest =
          '.' :: (digits ++ (tailText none power ++ rest)) := by
        simp [tailText, Document.Numeral.fractionText]
      rw [htext, Token.fraction?, hspan]
      cases digits with
      | nil => exact absurd rfl hsome
      | cons c others => rfl

/-- A numeral is read from its spelling, up to where it ends. -/
theorem numeral?_spelling {numeral : Numeral} (h : numeral.Valid) (hrest : Ends rest) :
    Token.numeral? numeral.negative (numeral.spelling ++ rest) = some (numeral, rest) := by
  obtain ⟨negative, whole, fraction, power⟩ := numeral
  obtain ⟨hwhole, hfraction, hpower⟩ := h
  simp only at hwhole hfraction hpower
  have hspan := spanDigits_append hwhole.isDigit (noDigit_tailText fraction power hrest)
  rw [spelling, List.append_assoc, Token.numeral?, hspan]
  split
  · rename_i heq
    exact absurd (Prod.mk.inj heq).1 hwhole.ne
  · rename_i heq
    obtain ⟨rfl, -⟩ := Prod.mk.inj heq
    exact absurd (hwhole.zero rfl) (by simp)
  · rename_i heq
    obtain ⟨rfl, rfl⟩ := Prod.mk.inj heq
    simp [fraction?_append hfraction power hrest, power?_append hpower hrest]

/-- The sign of a numeral. -/
def signText (negative : Bool) : List Char := if negative then ['-'] else []

/-- No other token begins with a digit. -/
theorem next?_of_isDigit {c : Char} (h : c.isDigit = true) (rest : List Char) :
    Token.next? (c :: rest) =
      (Token.numeral? false (c :: rest)).map fun read => (.number read.1, read.2) := by
  unfold Token.next?
  split
  all_goals first
    | rfl
    | rename_i heq
      obtain ⟨rfl, -⟩ := List.cons.inj heq
      exact absurd h (by decide)

/-- A numeral with its sign is a token. -/
theorem next?_spelling {numeral : Numeral} (h : numeral.Valid) (hrest : Ends rest) :
    Token.next? (signText numeral.negative ++ (numeral.spelling ++ rest)) =
      some (.number numeral, rest) := by
  have hread := numeral?_spelling h hrest
  cases hnegative : numeral.negative with
  | true =>
      rw [hnegative] at hread
      simp [signText, Token.next?, hread]
  | false =>
      rw [hnegative] at hread
      obtain ⟨first, others, hwhole⟩ := List.exists_cons_of_ne_nil h.whole.ne
      have hdigit : first.isDigit = true := h.whole.isDigit first (by rw [hwhole]; simp)
      have htext : numeral.spelling ++ rest =
          first :: (others ++ tailText numeral.fraction numeral.power ++ rest) := by
        simp [spelling, hwhole]
      rw [htext] at hread ⊢
      change Token.next? (first :: _) = _
      rw [next?_of_isDigit hdigit, hread, Option.map_some]

/-! ## Whole numbers -/

/-- The numeral of an integer: a sign and digits. -/
def ofInt (value : ℤ) : Numeral where
  negative := decide (value < 0)
  whole := Decimal.digits value.natAbs
  fraction := none
  power := none

theorem valid_ofInt (value : ℤ) : (ofInt value).Valid where
  whole := whole_digits _
  fraction := nofun
  power := nofun

theorem spelling_ofInt (value : ℤ) :
    signText (ofInt value).negative ++ (ofInt value).spelling = (toString value).toList := by
  rw [← Document.Numeral.spelling_ofInt]
  simp [signText, spelling, tailText, ofInt, Document.Numeral.spelling, Document.Numeral.ofInt,
    Document.Numeral.powerText]

theorem le_ofDigitChars (digits : List Char) (significand : ℕ) :
    significand ≤ Nat.ofDigitChars 10 digits significand := by
  induction digits generalizing significand with
  | nil => exact le_rfl
  | cons c rest ih =>
      rw [Nat.ofDigitChars_cons]
      exact le_trans (by omega) (ih _)

/-- All digits are taken into a significand that stays below `2 ^ 64`. -/
theorem absorb_eq {digits : List Char} {significand : ℕ}
    (h : Nat.ofDigitChars 10 digits significand < Nat.pow 2 64) :
    absorb significand digits = (Nat.ofDigitChars 10 digits significand, []) := by
  induction digits generalizing significand with
  | nil => rfl
  | cons c rest ih =>
      rw [Nat.ofDigitChars_cons] at h ⊢
      have hnext := lt_of_le_of_lt (le_ofDigitChars rest _) h
      rw [absorb, if_pos hnext, ih h]

theorem value?_ofInt {value : ℤ} (h : Property.fits value = true) :
    (ofInt value).value? = some (.integer value) := by
  have hpow : (Int.pow 2 63 : ℤ) = 9223372036854775808 := by decide
  have hbound : Nat.pow 2 63 = 9223372036854775808 := by decide
  simp only [Property.fits, hpow, decide_eq_true_eq] at h
  have hdigits : Nat.ofDigitChars 10 (Decimal.digits value.natAbs) 0 = value.natAbs :=
    Nat.ofDigitChars_ten_toDigits
  have habsorb : absorb 0 (Decimal.digits value.natAbs) = (value.natAbs, []) := by
    rw [absorb_eq, hdigits]
    rw [hdigits]
    exact lt_of_le_of_lt (b := 9223372036854775808) (by omega) (by decide)
  simp only [value?, ofInt, habsorb, hbound, Option.isSome_none, List.isEmpty_nil, Bool.not_true,
    Bool.or_self, Bool.false_eq_true, if_false, decide_eq_false_iff_not, not_lt]
  split
  · congr 2
    omega
  · rw [if_neg (by omega)]
    congr 2
    omega

/-! ## Real numbers -/

/-- The power of ten a numeral gives. -/
def givenPower (numeral : Numeral) : ℤ :=
  match numeral.power with
  | none => 0
  | some (negative, digits) =>
      if negative then -(Decimal.ofDigits digits : ℤ) else Decimal.ofDigits digits

/-- The decimal a numeral spells. -/
def decimal (numeral : Numeral) : Decimal where
  coefficient := Decimal.ofDigits (numeral.whole ++ numeral.fraction.getD [])
  exponent := numeral.givenPower - (numeral.fraction.getD []).length

/-- A numeral spells the magnitude of a number: it has a point or a power of ten, and the
number is the one nearest to it. -/
structure Spells (numeral : Numeral) (x : Binary64) (text : List Char) : Prop where
  valid : numeral.Valid
  no_integer : numeral.fraction.isSome ∨ numeral.power.isSome
  spelling : numeral.spelling = text
  nearest : numeral.decimal.toBinary64 numeral.negative = x

theorem spells_of_point (negative : Bool) {whole fraction : List Char} (hwhole : Whole whole)
    (hsome : fraction ≠ []) (hfraction : ∀ c ∈ fraction, c.isDigit = true) :
    Spells ⟨negative, whole, some fraction, none⟩
      (Decimal.toBinary64 negative ⟨Decimal.ofDigits (whole ++ fraction), -fraction.length⟩)
      (whole ++ '.' :: fraction) where
  valid := by
    refine ⟨hwhole, ?_, nofun⟩
    rintro _ ⟨⟩
    exact ⟨hsome, hfraction⟩
  no_integer := Or.inl rfl
  spelling := by simp [Numeral.spelling, tailText, Document.Numeral.fractionText]
  nearest := by simp [decimal, givenPower]

/-- Digits that begin like those of a positive number can stand before a point. -/
theorem Whole.of_head? {coefficient : ℕ} (hpos : 0 < coefficient) {digits : List Char}
    (hdigits : ∀ c ∈ digits, c.isDigit = true)
    (hhead : digits.head? = (Decimal.digits coefficient).head?) : Whole digits where
  isDigit := hdigits
  ne := by
    rintro rfl
    exact Decimal.digits_ne_nil coefficient (List.head?_eq_none_iff.mp hhead.symm)
  zero hzero := absurd (hhead ▸ hzero) (head?_digits hpos)

/-- Positional notation has digits on both sides of a point, wherever it falls. -/
theorem exists_point_positionalText {coefficient : ℕ} (hpos : 0 < coefficient) (places : ℤ) :
    ∃ whole fraction, Whole whole ∧ fraction ≠ [] ∧ (∀ c ∈ fraction, c.isDigit = true) ∧
      Layout.positionalText true (Decimal.digits coefficient) places =
        whole ++ '.' :: fraction := by
  have hdigits : ∀ c ∈ Decimal.digits coefficient, c.isDigit = true :=
    fun c hc => Decimal.isDigit_of_mem_digits hc
  have hzeros (count : ℕ) := Document.Numeral.isDigit_of_mem_replicate count
  have hne := Decimal.digits_ne_nil coefficient
  unfold Layout.positionalText
  extract_lets whole
  split
  · refine ⟨_, _, whole_zero, ?_, ?_, rfl⟩
    · simp [hne]
    · exact List.forall_mem_append.mpr ⟨hzeros _, hdigits⟩
  split
  · refine ⟨_, ['0'], Whole.of_head? hpos ?_ ?_, List.cons_ne_nil _ _, by simp, rfl⟩
    · exact List.forall_mem_append.mpr ⟨hdigits, hzeros _⟩
    · exact List.head?_append_of_ne_nil _ hne
  · rename_i hplaces hwhole
    refine ⟨_, _, Whole.of_head? hpos ?_ ?_, ?_, ?_, rfl⟩
    · exact fun c hc => hdigits c (List.mem_of_mem_take hc)
    · rw [List.head?_take, if_neg (by omega)]
    · rw [ne_eq, List.drop_eq_nil_iff]
      omega
    · exact fun c hc => hdigits c (List.mem_of_mem_drop hc)

/-- Positional notation spells the decimal, as it does in a document. -/
theorem exists_spells_positionalText (negative : Bool) {coefficient : ℕ} (hpos : 0 < coefficient)
    (exponent : ℤ) :
    ∃ numeral : Numeral, numeral.negative = negative ∧
      numeral.Spells (Decimal.toBinary64 negative ⟨coefficient, exponent⟩)
        (Layout.positionalText true (Decimal.digits coefficient)
          ((Decimal.digits coefficient).length + exponent)) := by
  obtain ⟨whole, fraction, hwhole, hsome, hfraction, htext⟩ :=
    exists_point_positionalText hpos ((Decimal.digits coefficient).length + exponent)
  obtain ⟨written, rfl, hwritten⟩ :=
    Document.Numeral.exists_spells_positionalText negative coefficient exponent
  have hpoint := Document.Numeral.spells_of_point written.negative whole fraction hwhole.isDigit
    hfraction hsome
  rw [htext] at hwritten ⊢
  rw [← hpoint.unique hwritten rfl]
  exact ⟨_, rfl, spells_of_point written.negative hwhole hsome hfraction⟩

/-- Scientific notation spells the decimal. -/
theorem exists_spells_scientificText (negative : Bool) (coefficient : ℕ) (exponent : ℤ) :
    ∃ numeral : Numeral, numeral.negative = negative ∧
      numeral.Spells (Decimal.toBinary64 negative ⟨coefficient, exponent⟩)
        (layout.scientificText (Decimal.digits coefficient)
          ((Decimal.digits coefficient).length + exponent - 1)) := by
  obtain ⟨first, rest, hsplit⟩ := List.exists_cons_of_ne_nil (Decimal.digits_ne_nil coefficient)
  have hdigits : ∀ c ∈ first :: rest, c.isDigit = true :=
    fun c hc => Decimal.isDigit_of_mem_digits (hsplit ▸ hc)
  have hvalue : Decimal.ofDigits (first :: rest) = coefficient := by
    rw [← hsplit, Decimal.ofDigits_digits]
  rw [List.forall_mem_cons] at hdigits
  rw [hsplit]
  generalize hpower : ((first :: rest).length : ℤ) + exponent - 1 = power
  rw [List.length_cons] at hpower
  have hfraction : (if rest = [] then none else some rest).getD [] = rest := by
    split <;> simp_all
  refine ⟨⟨negative, [first], if rest = [] then none else some rest,
    some (decide (power < 0), Decimal.digits power.natAbs)⟩, rfl, ⟨?_, ?_, ?_⟩, Or.inr rfl, ?_, ?_⟩
  · exact ⟨by simpa using hdigits.1, by simp, by simp⟩
  · intro digits hdigit
    split at hdigit
    · cases hdigit
    · rename_i hsome
      obtain rfl := Option.some.inj hdigit
      exact ⟨hsome, hdigits.2⟩
  · rintro _ ⟨⟩
    exact ⟨Decimal.digits_ne_nil _, fun c hc => Decimal.isDigit_of_mem_digits hc⟩
  · by_cases hneg : power < 0 <;> cases rest <;>
      simp [Numeral.spelling, tailText, Document.Numeral.fractionText, Layout.scientificText,
        layout, hneg]
  · -- the digits behind the first one are taken off the power again
    have hexponent : power - (rest.length : ℤ) = exponent := by
      push_cast at hpower
      omega
    simp only [decimal, givenPower, hfraction, Decimal.ofDigits_digits,
      Document.Numeral.signed_natAbs, List.singleton_append, hvalue, hexponent]

/-- The text of the magnitude of a finite number is one numeral. -/
theorem exists_spells_magnitudeText {x : Binary64} (hfinite : x.isInfinite = false) :
    ∃ numeral : Numeral, numeral.negative = x.negative ∧
      numeral.Spells x (layout.magnitudeText x) := by
  simp only [Layout.magnitudeText, hfinite, Bool.false_eq_true, if_false]
  split
  · rename_i hzero
    have hspells := spells_of_point x.negative whole_zero (List.cons_ne_nil '0' []) (by simp)
    have hx : Decimal.toBinary64 x.negative ⟨Decimal.ofDigits (['0'] ++ ['0']), -1⟩ = x := by
      obtain ⟨negative, rank, hle⟩ := x
      obtain rfl : rank = 0 := by simpa [Binary64.isZero] using hzero
      simp [Decimal.toBinary64, Decimal.ofDigits, Decimal.strip_zero, Binary64.zero,
        Binary64.ofRank]
    rw [List.length_singleton, Nat.cast_one, hx] at hspells
    exact ⟨_, rfl, hspells⟩
  · rename_i hzero
    have hread := Binary64.toBinary64_shortest (by simpa using hzero) layout.tie x.negative
    -- the shortest decimal is read as the number, so its coefficient is not zero
    have hpos : 0 < (x.shortest layout.tie).coefficient := by
      rw [Nat.pos_iff_ne_zero]
      intro hcoefficient
      simp only [Decimal.toBinary64, hcoefficient, Decimal.strip_zero, if_true] at hread
      have hrank := congrArg Binary64.rank hread
      simp [Binary64.zero, Binary64.ofRank, Binary64.withSign] at hrank
      simp [Binary64.isZero, ← hrank] at hzero
    have hsign : x.withSign x.negative = x := rfl
    have hpositional := exists_spells_positionalText x.negative hpos
      (x.shortest layout.tie).exponent
    have hscientific := exists_spells_scientificText x.negative
      (x.shortest layout.tie).coefficient (x.shortest layout.tie).exponent
    rw [hread, hsign] at hpositional hscientific
    split
    · exact hpositional
    · exact hscientific

/-- The numeral of a finite number. -/
def ofReal (x : Binary64) : Numeral :=
  ((Token.numeral? x.negative (layout.magnitudeText x)).map Prod.fst).getD (ofInt 0)

theorem ofReal_spec {x : Binary64} (hfinite : x.isInfinite = false) :
    (ofReal x).negative = x.negative ∧ (ofReal x).Spells x (layout.magnitudeText x) := by
  obtain ⟨numeral, hnegative, hspells⟩ := exists_spells_magnitudeText hfinite
  have hread := numeral?_spelling hspells.valid ends_nil
  rw [List.append_nil, hspells.spelling, hnegative] at hread
  have hsame : ofReal x = numeral := by simp [ofReal, hread]
  rw [hsame]
  exact ⟨hnegative, hspells⟩

/-- The text of a finite number is its numeral with its sign. -/
theorem spelling_ofReal {x : Binary64} (hfinite : x.isInfinite = false) :
    signText (ofReal x).negative ++ (ofReal x).spelling = (realText x).toList := by
  obtain ⟨hnegative, hspells⟩ := ofReal_spec hfinite
  simp [realText, hfinite, Layout.text, hnegative, hspells.spelling, signText]

/-- A numeral with a point or a power of ten is read as a real number, if it is read. -/
theorem exists_real_of_value? {numeral : Numeral} {value : Json}
    (h : numeral.fraction.isSome ∨ numeral.power.isSome) (hvalue : numeral.value? = some value) :
    ∃ x, value = .real x := by
  simp only [value?] at hvalue
  split at hvalue
  · obtain ⟨x, -, rfl⟩ := Option.map_eq_some_iff.mp hvalue
    exact ⟨_, rfl⟩
  · rename_i hfraction
    rw [hfraction, Option.isSome_none] at h
    have hpower : numeral.power.isSome = true := h.resolve_left Bool.false_ne_true
    rw [hpower, Bool.true_or, if_pos rfl] at hvalue
    obtain ⟨x, -, rfl⟩ := Option.map_eq_some_iff.mp hvalue
    exact ⟨_, rfl⟩

/-! ## Numbers that are read back -/

/-- A numeral whose digits make a whole number below `2 ^ 53`, with at least one and at most
22 places behind the point. -/
structure Exact (numeral : Numeral) : Prop where
  coefficient : numeral.decimal.coefficient < 2 ^ 53
  places_pos : numeral.decimal.exponent < 0
  places_le : -22 ≤ numeral.decimal.exponent
  power : ∀ power ∈ numeral.power, power.1 = true

/-- Digits whose number is small enough are taken in as they are. -/
theorem absorb_append {first second : List Char}
    (h : Decimal.ofDigits (first ++ second) < 2 ^ 53) :
    absorb 0 first = (Decimal.ofDigits first, []) ∧
      absorb (Decimal.ofDigits first) second = (Decimal.ofDigits (first ++ second), []) := by
  have happend : Decimal.ofDigits (first ++ second) =
      Nat.ofDigitChars 10 second (Decimal.ofDigits first) := Nat.ofDigitChars_append 0
  have hle := le_ofDigitChars second (Decimal.ofDigits first)
  have hbound : (2 : ℕ) ^ 53 < Nat.pow 2 64 := by norm_num
  rw [happend] at h ⊢
  exact ⟨absorb_eq ((hle.trans_lt h).trans hbound), absorb_eq (h.trans hbound)⟩

/-- A small power of ten is divided by at once. -/
theorem scale?_ofNat {significand : ℕ} (h : significand < 2 ^ 53) {exponent : ℤ}
    (hneg : exponent < 0) (hle : -22 ≤ exponent) :
    scale? (Binary64.ofNat significand) exponent =
      some (Decimal.toBinary64 false ⟨significand, exponent⟩) := by
  have hexponent : -(exponent.natAbs : ℤ) = exponent := by omega
  rw [scale?, if_pos hneg, scaleDown, if_pos (by omega),
    ofNat_div_powerOfTen h (by omega), hexponent]

/-- A negative power of ten counts for the exponent. -/
theorem scaled?_eq {numeral : Numeral} (significand : ℕ) (exponent : ℤ)
    (h : ∀ power ∈ numeral.power, power.1 = true ∧ Decimal.ofDigits power.2 < 2 ^ 31) :
    numeral.scaled? significand exponent =
      scale? (Binary64.ofNat significand) (exponent + numeral.givenPower) := by
  unfold scaled? givenPower
  cases hpower : numeral.power with
  | none => simp
  | some power =>
      obtain ⟨negative, digits⟩ := power
      obtain ⟨hnegative, hsmall⟩ := h _ hpower
      obtain rfl : negative = true := hnegative
      simp only [Nat.pow_eq, hsmall, if_true]
      rfl

/-- Its digits and its power of ten are numbers, so the value is rounded once. -/
theorem value?_of_exact {numeral : Numeral} (h : numeral.Exact)
    (hkind : numeral.fraction.isSome ∨ numeral.power.isSome) :
    numeral.value? = some (.real (numeral.decimal.toBinary64 numeral.negative)) := by
  obtain ⟨hcoefficient, hneg, hle, hpower⟩ := h
  have hscaled := scale?_ofNat hcoefficient hneg hle
  obtain ⟨hwhole, hall⟩ := absorb_append hcoefficient
  have hsmall : ∀ power ∈ numeral.power,
      power.1 = true ∧ Decimal.ofDigits power.2 < 2 ^ 31 := by
    intro power hmem
    have hminus := hpower power hmem
    refine ⟨hminus, ?_⟩
    simp only [decimal, givenPower, Option.mem_def.mp hmem, hminus, if_true] at hle
    omega
  rw [Decimal.toBinary64_eq_withSign]
  cases hfraction : numeral.fraction with
  | some digits =>
      simp only [decimal, hfraction, Option.getD_some] at hscaled hall ⊢
      have hexponent : ((0 : ℕ) : ℤ) - ((digits.length : ℤ) - (0 : ℕ)) + numeral.givenPower =
          numeral.givenPower - digits.length := by omega
      simp only [value?, hfraction, hwhole, hall, scaled?_eq _ _ hsmall, List.length_nil,
        hexponent, hscaled, Option.map_some]
  | none =>
      have hsome : numeral.power.isSome = true := by simpa [hfraction] using hkind
      simp only [decimal, hfraction, Option.getD_none, List.append_nil, List.length_nil,
        Nat.cast_zero, sub_zero] at hscaled ⊢
      simp only [value?, hfraction, hwhole, hsome, scaled?_eq _ _ hsmall, Bool.true_or, if_true,
        List.length_nil, Nat.cast_zero, zero_add, hscaled, Option.map_some]

end Numeral

end ArchDiagram.Json

/-
# What is spelled as a number

A value is taken for a number if all of it is spelled as one (`Spelling`): an optional sign;
digits, digits and a point with or without more of them, or a point and digits; and an
optional power of ten. Everything else is a text. Reading does not go back, so it must not cut
off too much: the digits end where a point, a letter or the end follows, and what follows the
digits behind a point is the power of ten or nothing.
-/

import ArchDiagram.Proofs.Document.Literals
import Mathlib.Data.List.TakeWhile

namespace ArchDiagram

namespace Document

/-! ## The grammar -/

/-- The digits of a number, and its point. -/
inductive Mantissa
  /-- Digits. -/
  | whole (digits : Digits)
  /-- Digits and a point, and the digits behind it, if any. -/
  | pointed (digits : Digits) (behind : List Char) (isDigit : ∀ c ∈ behind, c.isDigit = true)
  /-- A point and the digits behind it. -/
  | fraction (digits : Digits)

def Mantissa.text : Mantissa → List Char
  | .whole digits => digits.chars
  | .pointed digits behind _ => digits.chars ++ '.' :: behind
  | .fraction digits => '.' :: digits.chars

/-- The spelling of a number. -/
structure Spelling where
  sign : Sign
  mantissa : Mantissa
  power : Option PowerOfTen

def Spelling.text (spelling : Spelling) : List Char :=
  spelling.sign.text ++ (spelling.mantissa.text ++ (spelling.power.map PowerOfTen.text).getD [])

variable {text front behind rest : List Char}

/-! ## What is spelled is read -/

/-- A point between digits is read if there is a digit on one of its sides. -/
theorem isSome_ofText?_pointed (sign : Sign) (power : Option PowerOfTen)
    (hfront : ∀ c ∈ front, c.isDigit = true) (hbehind : ∀ c ∈ behind, c.isDigit = true)
    (hsome : front ≠ [] ∨ behind ≠ []) :
    (Numeral.ofText? (sign.text ++
      (front ++ '.' :: (behind ++ (power.map PowerOfTen.text).getD [])))).isSome := by
  have hpower := Literal.power?_text power
  have hdigit := Literal.noDigit_power power
  generalize (power.map PowerOfTen.text).getD [] = tail at hpower hdigit
  have hpoint : Numeral.NoDigit ('.' :: (behind ++ tail)) := by
    rintro c ⟨⟩
    decide
  have hsign : Numeral.NoSign (front ++ '.' :: (behind ++ tail)) := by
    by_cases hempty : front = []
    · rw [hempty]
      rintro c ⟨⟩
      decide
    · exact Numeral.noSign_of_isDigit hempty hfront
  have hnone : ¬(front = [] ∧ behind = []) := fun h => hsome.elim (· h.1) (· h.2)
  simp only [Numeral.ofText?, sign.splitSign_text hsign,
    Numeral.takeWhile_isDigit_append hfront hpoint, Numeral.dropWhile_isDigit_append hfront hpoint,
    Numeral.splitFraction, Numeral.takeWhile_isDigit_append hbehind hdigit,
    Numeral.dropWhile_isDigit_append hbehind hdigit, Option.getD_some, hnone, if_false, hpower]
  rfl

theorem isSome_ofText?_text (spelling : Spelling) : (Numeral.ofText? spelling.text).isSome := by
  obtain ⟨sign, mantissa, power⟩ := spelling
  cases mantissa with
  | whole digits =>
      have hread := Literal.ofText?_text ⟨sign, digits, power⟩
      exact Option.isSome_of_eq_some hread
  | pointed digits behind isDigit =>
      have hread := isSome_ofText?_pointed sign power digits.isDigit isDigit (Or.inl digits.ne_nil)
      simpa [Spelling.text, Mantissa.text] using hread
  | fraction digits =>
      have hnone : ∀ c ∈ ([] : List Char), c.isDigit = true := fun _ => nofun
      exact isSome_ofText?_pointed sign power hnone digits.isDigit (Or.inr digits.ne_nil)

/-! ## What is read is spelled -/

theorem exists_sign (text : List Char) :
    ∃ sign : Sign, sign.text ++ (Numeral.splitSign text).2 = text := by
  unfold Numeral.splitSign
  split
  · exact ⟨.minus, rfl⟩
  · exact ⟨.plus, rfl⟩
  · exact ⟨.absent, rfl⟩

/-- A power of ten that is read is the whole rest of the text. -/
theorem exists_power {power : Option (Bool × List Char)} (h : Numeral.power? text = some power) :
    ∃ spelled : Option PowerOfTen, (spelled.map PowerOfTen.text).getD [] = text := by
  cases text with
  | nil => exact ⟨none, rfl⟩
  | cons c rest =>
      obtain ⟨sign, hsign⟩ := exists_sign rest
      simp only [Numeral.power?] at h
      split at h
      · rename_i hspelled
        obtain ⟨hletter, hne, hdigits⟩ := hspelled
        have hcapital : (if decide (c = 'E') then 'E' else 'e') = c := by
          rcases hletter with rfl | rfl <;> rfl
        refine ⟨some ⟨decide (c = 'E'), sign, ⟨_, hne, List.all_eq_true.mp hdigits⟩⟩, ?_⟩
        simp only [Option.map_some, Option.getD_some, PowerOfTen.text]
        rw [hcapital, hsign]
      · cases h

theorem fractionText_splitFraction (text : List Char) :
    Numeral.fractionText (Numeral.splitFraction text).1 ++ (Numeral.splitFraction text).2 =
      text := by
  unfold Numeral.splitFraction
  split
  · simp [Numeral.fractionText, List.takeWhile_append_dropWhile]
  · rfl

theorem isDigit_splitFraction (h : (Numeral.splitFraction text).1 = some behind) :
    ∀ c ∈ behind, c.isDigit = true := by
  unfold Numeral.splitFraction at h
  split at h
  · obtain rfl := Option.some.inj h
    exact fun c hc => List.mem_takeWhile_imp hc
  · cases h

/-- Digits on one side of a point, or without a point, are a mantissa. -/
theorem exists_mantissa {fraction : Option (List Char)} (hfront : ∀ c ∈ front, c.isDigit = true)
    (hbehind : ∀ behind, fraction = some behind → ∀ c ∈ behind, c.isDigit = true)
    (hsome : ¬(front = [] ∧ fraction.getD [] = [])) :
    ∃ mantissa : Mantissa, mantissa.text = front ++ Numeral.fractionText fraction := by
  cases fraction with
  | none =>
      have hne : front ≠ [] := fun h => hsome ⟨h, rfl⟩
      exact ⟨.whole ⟨front, hne, hfront⟩, (List.append_nil front).symm⟩
  | some behind =>
      have hdigits := hbehind behind rfl
      by_cases hempty : front = []
      · have hne : behind ≠ [] := fun h => hsome ⟨hempty, h⟩
        exact ⟨.fraction ⟨behind, hne, hdigits⟩, by rw [hempty]; rfl⟩
      · exact ⟨.pointed ⟨front, hempty, hfront⟩ behind hdigits, rfl⟩

/-- A text that is read as a numeral is put together from the parts that are read. -/
theorem exists_spelling {numeral : Numeral} (h : Numeral.ofText? text = some numeral) :
    ∃ spelling : Spelling, spelling.text = text := by
  obtain ⟨sign, hsign⟩ := exists_sign text
  simp only [Numeral.ofText?] at h
  generalize (Numeral.splitSign text).2 = unsigned at h hsign
  split at h
  · cases h
  · rename_i hsome
    obtain ⟨power, hpower, -⟩ := Option.bind_eq_some_iff.mp h
    obtain ⟨spelled, hspelled⟩ := exists_power hpower
    obtain ⟨mantissa, hmantissa⟩ := exists_mantissa
      (fun c hc => List.mem_takeWhile_imp hc) (fun _ hb => isDigit_splitFraction hb) hsome
    refine ⟨⟨sign, mantissa, spelled⟩, ?_⟩
    calc sign.text ++ (mantissa.text ++ (spelled.map PowerOfTen.text).getD [])
        = sign.text ++ (unsigned.takeWhile Char.isDigit ++ unsigned.dropWhile Char.isDigit) := by
          rw [hmantissa, hspelled, List.append_assoc, fractionText_splitFraction]
      _ = text := by rw [List.takeWhile_append_dropWhile, hsign]

/-! ## Numbers and texts -/

theorem isSome_ofText?_iff :
    (Numeral.ofText? text).isSome ↔ ∃ spelling : Spelling, spelling.text = text := by
  constructor
  · intro h
    obtain ⟨numeral, hnumeral⟩ := Option.isSome_iff_exists.mp h
    exact exists_spelling hnumeral
  · rintro ⟨spelling, rfl⟩
    exact isSome_ofText?_text spelling

/-- A numeral stands for a number. -/
theorem toProperty_cases (numeral : Numeral) :
    (∃ n, numeral.toProperty = .integer n) ∨ ∃ x, numeral.toProperty = .real x := by
  simp only [Numeral.toProperty]
  split
  · exact Or.inl ⟨_, rfl⟩
  · split
    · split
      · exact Or.inl ⟨_, rfl⟩
      · exact Or.inr ⟨_, rfl⟩
    · exact Or.inr ⟨_, rfl⟩

theorem propertyOf_of_ofText?_eq_none (h : Numeral.ofText? text = none) :
    ∃ value, propertyOf text = .text value := by
  rw [propertyOf, h]
  cases Text.unquote text with
  | none => exact ⟨_, rfl⟩
  | some inner => exact ⟨_, rfl⟩

/-- A value is a number if all of it is the spelling of one, and a text otherwise. -/
theorem propertyOf_is_number_iff (text : List Char) :
    (((∃ n, propertyOf text = .integer n) ∨ ∃ x, propertyOf text = .real x) ↔
      ∃ spelling : Spelling, spelling.text = text) ∧
    ((∃ value, propertyOf text = .text value) ↔ ¬∃ spelling : Spelling, spelling.text = text) := by
  rw [← isSome_ofText?_iff]
  cases hread : Numeral.ofText? text with
  | none =>
      obtain ⟨value, hvalue⟩ := propertyOf_of_ofText?_eq_none hread
      simp [hvalue]
  | some numeral =>
      have hvalue : propertyOf text = numeral.toProperty := by rw [propertyOf, hread]
      rcases toProperty_cases numeral with ⟨n, hn⟩ | ⟨x, hx⟩
      · simp [hvalue, hn]
      · simp [hvalue, hx]

/-- Neither a point alone nor a power of ten without digits, and nothing behind the power. -/
example : (["+.5E-3", ".", "1e", "+-1", "e5", "1e5.0"].map fun text =>
    match propertyOf text.toList with
    | .text _ => false
    | _ => true) = [true, false, false, false, false, false] := by decide +kernel

end Document

end ArchDiagram

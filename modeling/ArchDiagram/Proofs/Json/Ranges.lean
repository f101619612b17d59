/-
# Numbers that JSON texts hold

A JSON text holds whole numbers of 64 bits, with or without a sign, and real numbers below
infinity (`Json.InRange`); a greater number is an error wherever it is looked at
(`Json.inRange_of_parse?`).
-/

import ArchDiagram.Json.Source
import ArchDiagram.Proofs.Binary64.Nearest
import ArchDiagram.Proofs.Json.Members

namespace ArchDiagram

/-! ## Rounding below infinity -/

namespace Binary64

variable {x y : Binary64} {numerator denominator : ℕ}

theorem isInfinite_eq_false_iff : x.isInfinite = false ↔ x.magnitude < 2 ^ (1024 : ℤ) := by
  refine ⟨magnitude_lt, fun hless => Bool.eq_false_of_not_eq_true fun hinfinite => ?_⟩
  exact hless.ne (magnitude_of_isInfinite hinfinite)

/-- A quotient is not rounded beyond a number that is as great. -/
theorem magnitude_ofRatio_le (negative : Bool) (hden : 0 < denominator)
    (hy : (numerator / denominator : ℚ) ≤ y.magnitude) :
    (ofRatio negative numerator denominator).magnitude ≤ y.magnitude := by
  have hnear : |(ofRatio negative numerator denominator).magnitude - numerator / denominator| ≤
      |y.magnitude - numerator / denominator| :=
    abs_magnitude_ofRatio_sub_le negative hden y
  rw [abs_of_nonneg (sub_nonneg.mpr hy)] at hnear
  exact sub_le_sub_iff_right _ |>.mp ((le_abs_self _).trans hnear)

theorem isInfinite_ofRatio (negative : Bool) (hden : 0 < denominator)
    (hy : (numerator / denominator : ℚ) ≤ y.magnitude) (hfinite : y.isInfinite = false) :
    (ofRatio negative numerator denominator).isInfinite = false :=
  isInfinite_eq_false_iff.mpr
    ((magnitude_ofRatio_le negative hden hy).trans_lt (magnitude_lt hfinite))

/-- A whole number of 64 bits is not rounded to infinity. -/
theorem isInfinite_ofRatio_one (negative : Bool) {n : ℕ} (h : n ≤ 2 ^ 64) :
    (ofRatio negative n 1).isInfinite = false := by
  obtain ⟨y, -, hy⟩ := exists_magnitude_eq_two_pow false (show 64 ≤ 1023 by norm_num)
  refine isInfinite_ofRatio negative Nat.one_pos (y := y) ?_ ?_
  · rw [hy, Nat.cast_one, div_one]
    exact_mod_cast h
  · rw [isInfinite_eq_false_iff, hy, ← zpow_natCast]
    exact zpow_lt_zpow_right₀ (by norm_num) (by norm_num)

/-- Dividing by what is not below one does not lead to infinity. -/
theorem isInfinite_div (hx : x.isInfinite = false) (hy : 1 ≤ y.magnitude) :
    (x.div y).isInfinite = false := by
  have hnum : 0 < y.numerator := by
    rw [Nat.pos_iff_ne_zero]
    intro hzero
    rw [magnitude_eq_div, hzero, Nat.cast_zero, zero_div] at hy
    linarith
  refine isInfinite_ofRatio _ (Nat.mul_pos x.denominator_pos hnum) ?_ hx
  have hquotient : ((x.numerator * y.denominator : ℕ) : ℚ) / (x.denominator * y.numerator : ℕ) =
      x.magnitude / y.magnitude := by
    rw [magnitude_eq_div x, magnitude_eq_div y, div_div_div_eq, Nat.cast_mul, Nat.cast_mul]
  rw [hquotient]
  exact div_le_self x.magnitude_nonneg hy

end Binary64

namespace Json

mutual

/-- A value whose whole numbers have 64 bits, with or without a sign, and whose real numbers
are below infinity. -/
def InRange : Json → Prop
  | .integer value => -(2 ^ 63) ≤ value ∧ value < 2 ^ 64
  | .real value => value.isInfinite = false
  | .array elements => InRangeElements elements
  | .object members => InRangeMembers members
  | .null | .bool _ | .string _ => True

/-- Elements each of which is in range. -/
def InRangeElements : List Json → Prop
  | [] => True
  | element :: rest => element.InRange ∧ InRangeElements rest

/-- Members each of which has a value in range. -/
def InRangeMembers : List (String × Json) → Prop
  | [] => True
  | (_, value) :: rest => value.InRange ∧ InRangeMembers rest

end

theorem inRangeElements_iff {elements : List Json} :
    InRangeElements elements ↔ ∀ element ∈ elements, element.InRange := by
  induction elements with
  | nil => simp [InRangeElements]
  | cons element rest ih => rw [InRangeElements, List.forall_mem_cons, ih]

theorem inRangeMembers_iff {members : List (String × Json)} :
    InRangeMembers members ↔ ∀ member ∈ members, member.2.InRange := by
  induction members with
  | nil => simp [InRangeMembers]
  | cons member rest ih => rw [InRangeMembers, List.forall_mem_cons, ih]

/-! ## Numerals -/

namespace Numeral

theorem absorb_lt {significand : ℕ} (h : significand < 2 ^ 64) (digits : List Char) :
    (absorb significand digits).1 < 2 ^ 64 := by
  induction digits generalizing significand with
  | nil => exact h
  | cons c rest ih =>
      rw [absorb]
      split
      · rename_i hnext
        exact ih hnext
      · exact h

theorem one_le_magnitude_powerOfTen (power : ℕ) : 1 ≤ (powerOfTen power).magnitude := by
  have hnear := Decimal.isNearest_toBinary64 false ⟨1, power⟩
  have hten : (1 : ℚ) ≤ 10 ^ (power : ℤ) := one_le_zpow₀ (by norm_num) (by omega)
  have hpower : 2 ^ 0 ≤ |(powerOfTen power).value| :=
    hnear.two_pow_le (by norm_num) (by simpa [Decimal.value] using hten.trans (le_abs_self _))
  simpa using hpower

theorem isInfinite_scaleDown {x : Binary64} (hx : x.isInfinite = false) (places : ℕ) :
    (scaleDown x places).isInfinite = false := by
  fun_induction scaleDown x places with
  | case1 x places hfew => exact Binary64.isInfinite_div hx (one_le_magnitude_powerOfTen places)
  | case2 x places hmany hzero => exact hx
  | case3 x places hmany hzero ih =>
      exact ih (Binary64.isInfinite_div hx (one_le_magnitude_powerOfTen 308))

theorem isInfinite_of_scale? {x result : Binary64} (hx : x.isInfinite = false) {power : ℤ}
    (h : scale? x power = some result) : result.isInfinite = false := by
  unfold scale? at h
  split at h
  · obtain rfl := Option.some.inj h
    exact isInfinite_scaleDown hx _
  split at h
  · split at h
    · obtain rfl := Option.some.inj h
      exact hx
    · cases h
  · simp only at h
    split at h
    · cases h
    · obtain rfl := Option.some.inj h
      rename_i hproduct
      exact Bool.eq_false_of_not_eq_true hproduct

theorem isInfinite_of_scaled? {numeral : Numeral} {significand : ℕ} {exponent : ℤ}
    {result : Binary64} (hsignificand : significand < 2 ^ 64)
    (h : numeral.scaled? significand exponent = some result) : result.isInfinite = false := by
  have hx : (Binary64.ofNat significand).isInfinite = false :=
    Binary64.isInfinite_ofRatio_one false hsignificand.le
  unfold scaled? at h
  simp only at h
  split at h
  · exact isInfinite_of_scale? hx h
  split at h
  · exact isInfinite_of_scale? hx h
  split at h
  · cases h
  · obtain rfl := Option.some.inj h
    simp [Binary64.isInfinite, Binary64.zero, Binary64.ofRank, Binary64.infiniteRank]

/-- A numeral stands for a number in range. -/
theorem inRange_of_value? {numeral : Numeral} {value : Json} (h : numeral.value? = some value) :
    value.InRange := by
  have hsigned {found : Option Binary64} (hfound : ∀ x ∈ found, x.isInfinite = false)
      (h : (found.map fun magnitude => Json.real (magnitude.withSign numeral.negative)) =
        some value) : value.InRange := by
    obtain ⟨x, rfl, rfl⟩ := Option.map_eq_some_iff.mp h
    exact hfound x rfl
  have hwhole : (absorb 0 numeral.whole).1 < 2 ^ 64 := absorb_lt (by norm_num) _
  -- the branches: a point; a power or too many digits; no sign; a sign, rounded or not
  unfold value? at h
  simp only at h
  split at h
  · exact hsigned (fun x hx => isInfinite_of_scaled? (absorb_lt hwhole _) hx) h
  split at h
  · exact hsigned (fun x hx => isInfinite_of_scaled? hwhole hx) h
  split at h
  · obtain rfl := Option.some.inj h
    exact ⟨by omega, by exact_mod_cast hwhole⟩
  split at h
  · refine hsigned ?_ h
    rintro x ⟨⟩
    exact Binary64.isInfinite_ofRatio_one false hwhole.le
  · obtain rfl := Option.some.inj h
    rename_i hbound
    -- the number with the sign is one of 64 bits, or it would have been rounded
    have hbound : (absorb 0 numeral.whole).1 ≤ 2 ^ 63 := by
      by_contra! hgreat
      exact hbound (Or.inr hgreat)
    exact ⟨by omega, by omega⟩

end Numeral

/-! ## Texts -/

namespace Source

/-- A property of the values that are read down to a limit: the simple values have it, and a
value with brackets has it if its parts have it with one bracket less. -/
structure Carried (P : ℕ → Json → Prop) : Prop where
  null : ∀ limit, P limit .null
  bool : ∀ limit value, P limit (.bool value)
  string : ∀ limit value, P limit (.string value)
  number : ∀ limit (numeral : Numeral) value, numeral.value? = some value → P limit value
  array : ∀ limit elements, (∀ element ∈ elements, P limit element) →
    P (limit + 1) (.array elements)
  object : ∀ limit members, (∀ member ∈ members, P limit member.2) →
    P (limit + 1) (.object members)

variable {P : ℕ → Json → Prop}

mutual

/-- Whatever is read of a tree has such a property. -/
theorem Carried.of_focus? (hP : Carried P) : ∀ (source : Source) {interest : Interest} {limit : ℕ}
    {value : Json}, source.focus? interest limit = some value → P limit value
  | .null, _, limit, _, h => by
      obtain rfl := Option.some.inj h
      exact hP.null limit
  | .bool found, _, limit, _, h => by
      obtain rfl := Option.some.inj h
      exact hP.bool limit found
  | .number numeral, _, limit, value, h => hP.number limit numeral value h
  | .string _, _, limit, _, h => by
      obtain ⟨text, -, rfl⟩ := Option.map_eq_some_iff.mp h
      exact hP.string limit text
  | .array _, _, 0, _, h | .object _, _, 0, _, h => by cases h
  | .array elements, _, limit + 1, _, h => by
      obtain ⟨read, hread, rfl⟩ := Option.map_eq_some_iff.mp h
      exact hP.array limit read (hP.of_focusElements? elements hread)
  | .object members, _, limit + 1, _, h => by
      obtain ⟨read, hread, rfl⟩ := Option.map_eq_some_iff.mp h
      exact hP.object limit read (hP.of_focusMembers? members hread)

theorem Carried.of_focusElements? (hP : Carried P) : ∀ (elements : List Source)
    {interest : Interest} {limit index : ℕ} {read : List Json},
    focusElements? interest limit index elements = some read → ∀ element ∈ read, P limit element
  | [], _, _, _, _, h => by
      obtain rfl := Option.some.inj h
      exact List.forall_mem_nil _
  | element :: rest, interest, limit, index, _, h => by
      rw [focusElements?] at h
      split at h
      · rename_i value values hvalue hvalues
        obtain rfl := Option.some.inj h
        exact List.forall_mem_cons.mpr
          ⟨hP.of_focus? element hvalue, hP.of_focusElements? rest hvalues⟩
      · cases h

theorem Carried.of_focusMembers? (hP : Carried P) : ∀ (members : List (Option String × Source))
    {interest : Interest} {limit : ℕ} {read : List (String × Json)},
    focusMembers? interest limit members = some read → ∀ member ∈ read, P limit member.2
  | [], _, _, _, h => by
      obtain rfl := Option.some.inj h
      exact List.forall_mem_nil _
  | (none, _) :: _, _, _, _, h => by cases h
  | (some name, member) :: rest, interest, limit, _, h => by
      rw [focusMembers?] at h
      split at h
      -- a member that is not looked at is not there
      · exact hP.of_focusMembers? rest h
      · split at h
        · rename_i value values hvalue hvalues
          obtain rfl := Option.some.inj h
          exact List.forall_mem_cons.mpr
            ⟨hP.of_focus? member hvalue, hP.of_focusMembers? rest hvalues⟩
        · cases h

end

/-- The same of the part of a text that is looked at. -/
theorem Carried.of_read? (hP : Carried P) {interest : Interest} {text : String} {value : Json}
    (h : read? interest text = some value) : P depthLimit value := by
  obtain ⟨source, -, hfocus⟩ := Option.bind_eq_some_iff.mp h
  exact hP.of_focus? source hfocus

end Source

theorem carried_inRange : Source.Carried fun _ value => value.InRange where
  null _ := trivial
  bool _ _ := trivial
  string _ _ := trivial
  number _ _ _ := Numeral.inRange_of_value?
  array _ _ := inRangeElements_iff.mpr
  object _ _ := inRangeMembers_iff.mpr

mutual

theorem InRange.merged : ∀ {value : Json}, value.InRange → value.merged.InRange
  | .null, h | .bool _, h | .integer _, h | .real _, h | .string _, h => h
  | .array _, h => InRangeElements.merged h
  | .object members, h => by
      have hmembers := inRangeMembers_iff.mp (InRangeMembers.merged h)
      exact inRangeMembers_iff.mpr fun member hmember =>
        hmembers member (Entries.mem_of_mem_collect hmember)

theorem InRangeElements.merged : ∀ {elements : List Json}, InRangeElements elements →
    InRangeElements (mergedElements elements)
  | [], h => h
  | _ :: _, ⟨hfirst, hrest⟩ =>
      ⟨InRange.merged hfirst, InRangeElements.merged hrest⟩

theorem InRangeMembers.merged : ∀ {members : List (String × Json)}, InRangeMembers members →
    InRangeMembers (mergedMembers members)
  | [], h => h
  | (_, _) :: _, ⟨hfirst, hrest⟩ =>
      ⟨InRange.merged hfirst, InRangeMembers.merged hrest⟩

end

/-- The numbers of a JSON text are in range. -/
theorem inRange_of_parse? {text : String} {value : Json} (h : parse? text = some value) :
    value.InRange := by
  obtain ⟨read, hread, rfl⟩ := Option.map_eq_some_iff.mp h
  exact (carried_inRange.of_read? hread).merged

end Json

end ArchDiagram

/-
# Identifiers

A component may be placed several times under numbered instance names:
`decoder_1` and `decoder_2` are instances of the template `decoder`. An item of a
view is called by the instance that placed it and by its name in the template.
Main statements: a template name with a number appended leads back to the
template (`templateKey_append_digits`), and the names that are reserved are those
that do not lead to themselves (`hasReservedSuffix_iff`).
-/

namespace ArchDiagram.Ident

/-- The part of a name before one trailing underscore with a number, if it ends
in one. -/
def beforeNumber? (name : List Char) : Option (List Char) :=
  match name.reverse.takeWhile Char.isDigit, name.reverse.dropWhile Char.isDigit with
  | _ :: _, '_' :: base => some base.reverse
  | _, _ => none

/-- The name of the template an instance name stands for. -/
def templateKey (name : String) : String :=
  match beforeNumber? name.toList with
  | some base => String.ofList base
  | none => name

/-- Whether a name ends in an underscore with a number, so that no template can
be reached under it. -/
def hasReservedSuffix (name : String) : Bool :=
  (beforeNumber? name.toList).isSome

/-- The identifier of an item of the template placed as `owner`. -/
def namespaced (owner item : String) : String :=
  s!"{owner}_{item}"

/-- The identifier of the `n`-th repetition of an item. -/
def numbered (owner : String) (n : Nat) (item : String) : String :=
  s!"{owner}_{n}_{item}"

/-- An identifier as it is shown to a developer. -/
def marked (ident : String) : String :=
  "#" ++ ident

theorem beforeNumber?_append_digits {base digits : List Char} (hsome : digits ≠ [])
    (hdigits : ∀ c ∈ digits, c.isDigit = true) :
    beforeNumber? (base ++ '_' :: digits) = some base := by
  have hall : ∀ c ∈ digits.reverse, c.isDigit = true := by simpa using hdigits
  have hunder : ('_' : Char).isDigit = false := by decide
  have hreverse : (base ++ '_' :: digits).reverse = digits.reverse ++ '_' :: base.reverse := by simp
  unfold beforeNumber?
  rw [hreverse, List.takeWhile_append_of_pos hall, List.dropWhile_append_of_pos hall]
  cases hrev : digits.reverse with
  | nil => exact absurd (List.reverse_eq_nil_iff.mp hrev) hsome
  | cons c rest => simp [hunder]

/-- What stands before the number of a name is followed by an underscore and that number. -/
theorem beforeNumber?_eq_some_iff {name base : List Char} : beforeNumber? name = some base ↔
    ∃ digits, digits ≠ [] ∧ (∀ c ∈ digits, c.isDigit = true) ∧ name = base ++ '_' :: digits := by
  constructor
  · intro h
    unfold beforeNumber? at h
    split at h
    · rename_i last digits front hdigits hfront
      obtain rfl := Option.some.inj h
      -- read backwards, the name is its digits, the underscore and the rest
      have hcut := List.takeWhile_append_dropWhile (p := Char.isDigit) (l := name.reverse)
      have hall := List.all_takeWhile (p := Char.isDigit) (l := name.reverse)
      rw [hdigits] at hcut hall
      refine ⟨(last :: digits).reverse, by simp, fun c hc => ?_, ?_⟩
      · exact List.all_eq_true.mp hall c (List.mem_reverse.mp hc)
      · rw [← List.reverse_reverse name, ← hcut, hfront]
        simp
    · cases h
  · rintro ⟨digits, hsome, hdigits, rfl⟩
    exact beforeNumber?_append_digits hsome hdigits

theorem templateKey_append_digits (name : String) {digits : List Char} (hsome : digits ≠ [])
    (hdigits : ∀ c ∈ digits, c.isDigit = true) :
    templateKey (String.ofList (name.toList ++ '_' :: digits)) = name := by
  simp [templateKey, beforeNumber?_append_digits hsome hdigits]

theorem templateKey_eq_self {name : String} (h : hasReservedSuffix name = false) :
    templateKey name = name := by
  unfold hasReservedSuffix at h
  unfold templateKey
  cases hbase : beforeNumber? name.toList with
  | none => rfl
  | some base => simp [hbase] at h

/-- The names that are reserved are those that do not lead to themselves. -/
theorem hasReservedSuffix_iff {name : String} :
    hasReservedSuffix name = true ↔ templateKey name ≠ name := by
  constructor
  · intro h hkey
    obtain ⟨base, hbase⟩ := Option.isSome_iff_exists.mp h
    obtain ⟨digits, -, -, hname⟩ := beforeNumber?_eq_some_iff.mp hbase
    -- the name is longer than what stands before its number
    have hbase : base = name.toList := by
      rw [← hkey]
      simp [templateKey, hbase]
    have hlength := congrArg List.length hname
    simp [hbase] at hlength
  · intro h
    cases hplain : hasReservedSuffix name with
    | false => exact absurd (templateKey_eq_self hplain) h
    | true => rfl

end ArchDiagram.Ident

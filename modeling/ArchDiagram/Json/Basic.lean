/-
# JSON values

A JSON value as a tree. The members of an object are a list of pairs, so that a
decoder can tell a name that is given twice; `Json.merged` is the value in which
every repeated name keeps its first place and its last value.
-/

import ArchDiagram.Binary64.Basic
import ArchDiagram.Entries

namespace ArchDiagram

/-- A JSON value. Whole numbers and the others are kept apart. -/
inductive Json where
  | null
  | bool (value : Bool)
  | integer (value : Int)
  | real (value : Binary64)
  | string (value : String)
  | array (elements : List Json)
  | object (members : List (String × Json))
deriving Repr, Inhabited

namespace Json

mutual

/-- Equality of two values is decidable. -/
def decEq : (a b : Json) → Decidable (a = b)
  | .null, .null => isTrue rfl
  | .bool a, .bool b =>
      if h : a = b then isTrue (by rw [h]) else isFalse (by simp [h])
  | .integer a, .integer b =>
      if h : a = b then isTrue (by rw [h]) else isFalse (by simp [h])
  | .real a, .real b =>
      if h : a = b then isTrue (by rw [h]) else isFalse (by simp [h])
  | .string a, .string b =>
      if h : a = b then isTrue (by rw [h]) else isFalse (by simp [h])
  | .array a, .array b =>
      match decEqElements a b with
      | isTrue h => isTrue (by rw [h])
      | isFalse h => isFalse (by simp [h])
  | .object a, .object b =>
      match decEqMembers a b with
      | isTrue h => isTrue (by rw [h])
      | isFalse h => isFalse (by simp [h])
  | .null, .bool _ | .null, .integer _ | .null, .real _ | .null, .string _ | .null, .array _
  | .null, .object _ | .bool _, .null | .bool _, .integer _ | .bool _, .real _
  | .bool _, .string _ | .bool _, .array _ | .bool _, .object _ | .integer _, .null
  | .integer _, .bool _ | .integer _, .real _ | .integer _, .string _ | .integer _, .array _
  | .integer _, .object _ | .real _, .null | .real _, .bool _ | .real _, .integer _
  | .real _, .string _ | .real _, .array _ | .real _, .object _ | .string _, .null
  | .string _, .bool _ | .string _, .integer _ | .string _, .real _ | .string _, .array _
  | .string _, .object _ | .array _, .null | .array _, .bool _ | .array _, .integer _
  | .array _, .real _ | .array _, .string _ | .array _, .object _ | .object _, .null
  | .object _, .bool _ | .object _, .integer _ | .object _, .real _ | .object _, .string _
  | .object _, .array _ => isFalse nofun

/-- Equality of two lists of elements is decidable. -/
def decEqElements : (a b : List Json) → Decidable (a = b)
  | [], [] => isTrue rfl
  | [], _ :: _ | _ :: _, [] => isFalse nofun
  | x :: xs, y :: ys =>
      match decEq x y, decEqElements xs ys with
      | isTrue h, isTrue hs => isTrue (by rw [h, hs])
      | isFalse h, _ => isFalse (by simp [h])
      | _, isFalse hs => isFalse (by simp [hs])

/-- Equality of two lists of members is decidable. -/
def decEqMembers : (a b : List (String × Json)) → Decidable (a = b)
  | [], [] => isTrue rfl
  | [], _ :: _ | _ :: _, [] => isFalse nofun
  | (k, x) :: xs, (l, y) :: ys =>
      match decEq x y, decEqMembers xs ys with
      | isTrue h, isTrue hs =>
          if hkey : k = l then isTrue (by rw [h, hs, hkey]) else isFalse (by simp [hkey])
      | isFalse h, _ => isFalse (by simp [h])
      | _, isFalse hs => isFalse (by simp [hs])

end

instance : DecidableEq Json := decEq

mutual

/-- The value in which, at every level, a name given several times keeps its
first place and its last value. -/
def merged : Json → Json
  | .array elements => .array (mergedElements elements)
  | .object members => .object (Entries.collect (mergedMembers members))
  | .null => .null
  | .bool value => .bool value
  | .integer value => .integer value
  | .real value => .real value
  | .string value => .string value

/-- The elements with repeated names merged inside each. -/
def mergedElements : List Json → List Json
  | [] => []
  | element :: rest => merged element :: mergedElements rest

/-- The members with repeated names merged inside each value. -/
def mergedMembers : List (String × Json) → List (String × Json)
  | [] => []
  | (name, value) :: rest => (name, merged value) :: mergedMembers rest

end

/-- The text of a string value. -/
def string? : Json → Option String
  | .string value => some value
  | _ => none

/-- The truth of a boolean value. -/
def bool? : Json → Option Bool
  | .bool value => some value
  | _ => none

/-- The elements of an array. -/
def elements? : Json → Option (List Json)
  | .array elements => some elements
  | _ => none

/-- Whether a value counts as set when it is used as a flag: `null`, `false`,
zero and the empty string do not. -/
def isTruthy : Json → Bool
  | .null => false
  | .bool value => value
  | .integer value => value != 0
  | .real value => !value.isZero
  | .string value => value != ""
  | .array _ => true
  | .object _ => true

end Json

end ArchDiagram

/-
# Tokens of a JSON text

The text is cut into brackets, separators, literal names, numerals and strings.
A string whose escapes hold an unpaired surrogate has no characters to stand
for; its token says so, and whoever needs the string refuses it.
-/

import ArchDiagram.Json.Numeral

namespace ArchDiagram.Json

/-- A token of a JSON text. -/
inductive Token
  | openArray
  | closeArray
  | openObject
  | closeObject
  | comma
  | colon
  | null
  | bool (value : Bool)
  | number (numeral : Numeral)
  | string (value : Option String)
deriving Repr

namespace Token

/-! ## Strings -/

/-- A character of a string, or a UTF-16 unit written as a four-digit escape. -/
inductive Piece
  | char (c : Char)
  | unit (code : Nat)

/-- The value of a hexadecimal digit. -/
def hexDigit? (c : Char) : Option Nat :=
  if '0' ≤ c ∧ c ≤ '9' then some (c.toNat - '0'.toNat)
  else if 'a' ≤ c ∧ c ≤ 'f' then some (c.toNat - 'a'.toNat + 10)
  else if 'A' ≤ c ∧ c ≤ 'F' then some (c.toNat - 'A'.toNat + 10)
  else none

/-- The number four hexadecimal digits spell. -/
def hexCode? (a b c d : Char) : Option Nat := do
  let a ← hexDigit? a
  let b ← hexDigit? b
  let c ← hexDigit? c
  let d ← hexDigit? d
  return ((a * 16 + b) * 16 + c) * 16 + d

/-- The character a single-letter escape stands for. -/
def escaped? : Char → Option Char
  | '"' => some '"'
  | '\\' => some '\\'
  | '/' => some '/'
  | 'b' => some '\x08'
  | 'f' => some '\x0c'
  | 'n' => some '\n'
  | 'r' => some '\r'
  | 't' => some '\t'
  | _ => none

/-- The pieces of a string up to its closing quote, in reverse before `read`, and
what follows the quote. Control characters and unknown escapes are refused. -/
def pieces? (read : List Piece) : List Char → Option (List Piece × List Char)
  | [] => none
  | '"' :: rest => some (read.reverse, rest)
  | '\\' :: 'u' :: a :: b :: c :: d :: rest =>
      match hexCode? a b c d with
      | some code => pieces? (.unit code :: read) rest
      | none => none
  | '\\' :: c :: rest =>
      match escaped? c with
      | some meant => pieces? (.char meant :: read) rest
      | none => none
  | c :: rest => if c.toNat < 0x20 || c == '\\' then none else pieces? (.char c :: read) rest

/-- The characters of a list of pieces; two adjacent surrogates make one. -/
def characters? : List Piece → Option (List Char)
  | [] => some []
  | .char c :: rest => (characters? rest).map (c :: ·)
  | .unit high :: .unit low :: rest =>
      if 0xD800 ≤ high ∧ high < 0xDC00 then
        if 0xDC00 ≤ low ∧ low < 0xE000 then
          let code := 0x10000 + (high - 0xD800) * 0x400 + (low - 0xDC00)
          (characters? rest).map (Char.ofNat code :: ·)
        else none
      else if 0xDC00 ≤ high ∧ high < 0xE000 then none
      else (characters? (.unit low :: rest)).map (Char.ofNat high :: ·)
  | .unit code :: rest =>
      if 0xD800 ≤ code ∧ code < 0xE000 then none
      else (characters? rest).map (Char.ofNat code :: ·)

/-! ## Numbers -/

/-- Split off the decimal digits at the start of a text. -/
def spanDigits (text : List Char) : List Char × List Char :=
  (text.takeWhile Char.isDigit, text.dropWhile Char.isDigit)

/-- The digits after a point, if there is a point, and the rest. A point without
a digit is refused. -/
def fraction? : List Char → Option (Option (List Char) × List Char)
  | '.' :: rest =>
      match spanDigits rest with
      | ([], _) => none
      | (digits, after) => some (some digits, after)
  | rest => some (none, rest)

/-- The power of ten, if there is one, and the rest. An `e` without a digit is
refused. -/
def power? : List Char → Option (Option (Bool × List Char) × List Char)
  | c :: rest =>
      if c = 'e' ∨ c = 'E' then
        let signed : Bool × List Char :=
          match rest with
          | '+' :: after => (false, after)
          | '-' :: after => (true, after)
          | after => (false, after)
        match spanDigits signed.2 with
        | ([], _) => none
        | (digits, after) => some (some (signed.1, digits), after)
      else some (none, c :: rest)
  | [] => some (none, [])

/-- The numeral at the start of a text that follows an optional minus sign, and
the rest. There is at least one digit, and a zero in front stands alone. -/
def numeral? (negative : Bool) (text : List Char) : Option (Numeral × List Char) :=
  match spanDigits text with
  | ([], _) => none
  | ('0' :: _ :: _, _) => none
  | (whole, rest) => do
      let (fraction, rest) ← fraction? rest
      let (power, rest) ← power? rest
      return (⟨negative, whole, fraction, power⟩, rest)

/-! ## The whole text -/

/-- The token at the start of a text that does not start with a blank, and the
rest. -/
def next? : List Char → Option (Token × List Char)
  | '[' :: rest => some (.openArray, rest)
  | ']' :: rest => some (.closeArray, rest)
  | '{' :: rest => some (.openObject, rest)
  | '}' :: rest => some (.closeObject, rest)
  | ',' :: rest => some (.comma, rest)
  | ':' :: rest => some (.colon, rest)
  | 'n' :: 'u' :: 'l' :: 'l' :: rest => some (.null, rest)
  | 't' :: 'r' :: 'u' :: 'e' :: rest => some (.bool true, rest)
  | 'f' :: 'a' :: 'l' :: 's' :: 'e' :: rest => some (.bool false, rest)
  | '"' :: rest =>
      (pieces? [] rest).map fun read =>
        (.string ((characters? read.1).map String.ofList), read.2)
  | '-' :: rest => (numeral? true rest).map fun read => (.number read.1, read.2)
  | text => (numeral? false text).map fun read => (.number read.1, read.2)

/-- The blanks of JSON. -/
def isBlank (c : Char) : Bool :=
  c == ' ' || c == '\t' || c == '\n' || c == '\r'

/-- The tokens of a text, in reverse before `read`. Every token takes at least
one character, so `steps` characters need no more than `steps` tokens. -/
def scan? (steps : Nat) (read : List Token) (text : List Char) : Option (List Token) :=
  match text.dropWhile isBlank with
  | [] => some read.reverse
  | rest =>
      match steps, next? rest with
      | steps + 1, some (token, after) => scan? steps (token :: read) after
      | _, _ => none

/-- The tokens of a text. -/
def all? (text : List Char) : Option (List Token) :=
  scan? text.length [] text

end Token

end ArchDiagram.Json

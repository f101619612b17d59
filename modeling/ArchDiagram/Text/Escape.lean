/-
# Escapes and quotes

A text is written between double quotes on one line: a backslash, a double
quote, a line feed, a tab and a carriage return are escaped. Reading knows one
more escape, the single quote, and leaves every other backslash as it stands.
Main statement: reading undoes writing (`unescape_escape`).
-/

namespace ArchDiagram.Text

/-- Write a text so that it fits between double quotes on one line. -/
def escape : List Char → List Char
  | [] => []
  | '\\' :: rest => '\\' :: '\\' :: escape rest
  | '"' :: rest => '\\' :: '"' :: escape rest
  | '\n' :: rest => '\\' :: 'n' :: escape rest
  | '\t' :: rest => '\\' :: 't' :: escape rest
  | '\r' :: rest => '\\' :: 'r' :: escape rest
  | c :: rest => c :: escape rest

/-- Evaluate the escapes of a text in one pass; an unknown one is kept as written. -/
def unescape : List Char → List Char
  | [] => []
  | '\\' :: 'n' :: rest => '\n' :: unescape rest
  | '\\' :: 't' :: rest => '\t' :: unescape rest
  | '\\' :: 'r' :: rest => '\r' :: unescape rest
  | '\\' :: '"' :: rest => '"' :: unescape rest
  | '\\' :: '\x27' :: rest => '\x27' :: unescape rest
  | '\\' :: '\\' :: rest => '\\' :: unescape rest
  | '\\' :: c :: rest => '\\' :: c :: unescape rest
  | c :: rest => c :: unescape rest

/-- The text between the double quotes at its two ends, if it has them. -/
def unquote : List Char → Option (List Char)
  | '"' :: rest => if rest.getLast? = some '"' then some rest.dropLast else none
  | _ => none

/-- Reading undoes writing. -/
theorem unescape_escape (text : List Char) : unescape (escape text) = text := by
  fun_induction escape text with
  | case1 => rfl
  | case7 c rest hback _ _ _ _ ih =>
      rw [unescape.eq_9]
      · rw [ih]
      all_goals intros; simp_all
  | _ => simp_all [unescape]

end ArchDiagram.Text

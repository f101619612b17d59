/-
# Quoted values

Between quotes any text stands on a line of its own. Reading takes the escapes back, and
writing leaves no line break and no tab, so the line is not broken. The line is read apart at
its first colon, which is the one behind the name, and the value is trimmed and unquoted by
its outermost quotes: blanks, quotes, colons and backslashes at the ends of the text or in it
are between the quotes, and what is between them is what was written
(`reads_quoted`).
-/

import ArchDiagram.Proofs.Document.Sections

namespace ArchDiagram.Document

variable {key : List Char}

/-- A name with a value in quotes behind it. -/
def quotedRow (key text : List Char) : List Char :=
  key ++ ':' :: ' ' :: '"' :: (Text.escape text ++ ['"'])

theorem quotedRow_eq (key text : List Char) :
    quotedRow key text = key ++ ':' :: ' ' :: (quoted (String.ofList text)).toList := by
  rw [toList_quoted, String.toList_ofList, quotedRow]

theorem trimmed_quotedRow (hkey : Text.Trimmed key) (text : List Char) :
    Text.Trimmed (quotedRow key text) :=
  hkey.append (Text.trimmed_between (by decide) (by decide) (' ' :: '"' :: Text.escape text))

/-- A row with a quoted value is one line. -/
theorem splitAll_quotedRow (hkey : '\n' ∉ key) (depth : ℕ) (text : List Char) :
    Text.splitAll '\n' (List.replicate depth ' ' ++ quotedRow key text) =
      [List.replicate depth ' ' ++ quotedRow key text] :=
  Text.splitAll_of_notMem (by simp [quotedRow, hkey, notMem_escape])

/-- The value of a row is read in its quotes. -/
theorem pair?_quotedRow {line : Line} {text : List Char} (hline : line.text = quotedRow key text)
    (hkey : Text.Trimmed key) (hcolon : ':' ∉ key) :
    line.pair? = some (key, (quoted (String.ofList text)).toList) :=
  Line.pair?_of_text (hline.trans (quotedRow_eq key text)) hcolon hkey (trimmed_quoted _)

/-- A text is read back from between its quotes: escapes are undone exactly and leave nothing
that breaks the line, and from a row with a trimmed name without a colon, however deep it
stands, the escaped text is unquoted and becomes the text again. -/
theorem reads_quoted (text : List Char) :
    Text.unescape (Text.escape text) = text ∧
      (∀ c ∈ Text.escape text, c ≠ '\n' ∧ c ≠ '\r' ∧ c ≠ '\t') ∧
      ∀ key : List Char, Text.Trimmed key → ':' ∉ key → ∀ number depth : ℕ,
        ('\n' ∉ key → Text.splitAll '\n' (List.replicate depth ' ' ++ quotedRow key text) =
          [List.replicate depth ' ' ++ quotedRow key text]) ∧
        ∃ line value, Line.ofText? number (List.replicate depth ' ' ++ quotedRow key text) =
            some line ∧ line.text = quotedRow key text ∧ line.pair? = some (key, value) ∧
          Text.unquote value = some (Text.escape text) ∧
          propertyOf value = .text (String.ofList text) := by
  refine ⟨Text.unescape_escape text, forall_mem_escape text, fun key hkey hcolon number depth =>
    ⟨fun hline => splitAll_quotedRow hline depth text, ?_⟩⟩
  have hread := Piece.ofText?_indented number depth (trimmed_quotedRow hkey text)
  rw [if_neg (by simp [quotedRow])] at hread
  have hexpressible : (Property.text (String.ofList text)).Expressible := trivial
  have hvalue := propertyOf_propertyText hexpressible
  refine ⟨_, _, hread, rfl, pair?_quotedRow rfl hkey hcolon, ?_, hvalue⟩
  rw [unquote_quoted, String.toList_ofList]

/-- Quotes, a colon, a backslash and a line break at the ends of a text and in it. -/
theorem reads_quoted_ragged :
    (Text.Trimmed "info".toList ∧ ':' ∉ "info".toList) ∧
      ∃ line value, Line.ofText? 3 (List.replicate 8 ' ' ++
            quotedRow "info".toList " \": \\\n\\\" ".toList) = some line ∧
        line.text = "info: \" \\\": \\\\\\n\\\\\\\" \"".toList ∧
        line.pair? = some ("info".toList, value) ∧
        Text.unquote value = some (Text.escape " \": \\\n\\\" ".toList) ∧
        propertyOf value = .text " \": \\\n\\\" " := by
  have hkey : Text.Trimmed "info".toList := by decide
  have hcolon : ':' ∉ "info".toList := by decide
  obtain ⟨-, -, hrows⟩ := reads_quoted " \": \\\n\\\" ".toList
  obtain ⟨-, line, value, hline, htext, hpair, hquotes, hvalue⟩ := hrows _ hkey hcolon 3 8
  exact ⟨⟨hkey, hcolon⟩, line, value, hline, htext.trans (by decide), hpair, hquotes, hvalue⟩

end ArchDiagram.Document

/-
# Documents written again

A document that is read and written again is read as what it was, but for
references without a title, which are reported instead of written; and written
once more it stays as it is. This leaves out the documents that hold something
that is written as something else, which `Unambiguous` collects. Main statement:
`exists_reformat`.
-/

import ArchDiagram.Proofs.Document.Reading

namespace ArchDiagram.Document

variable {indent : ℕ} {text : String} {architectures : Architectures}

theorem reformat_of_parse (h : parse text = .ok architectures) {written : String}
    (hprint : (print indent architectures).text = .ok written) :
    (reformat indent text).2 = .ok written := by
  simp only [reformat, h, hprint]
  rfl

/-- A document that is written again is read as what it was without the references
that have no title, and written once more it stays as it is. -/
theorem exists_reformat (indent : ℕ) (h : parse text = .ok architectures)
    (hplain : architectures.Unambiguous) :
    ∃ written, (reformat indent text).2 = .ok written ∧
      parse written = .ok architectures.titled ∧ (reformat indent written).2 = .ok written := by
  obtain ⟨hne, hexpressible⟩ := expressible_titled_of_parse h hplain
  obtain ⟨written, hprint, hrows⟩ := exists_text_print indent hexpressible
  have hparse : parse written = .ok architectures.titled := ofLines_of_rows hne hexpressible hrows
  have hsame : (print indent architectures).text = .ok written := by
    rw [← text_print_titled]
    exact hprint
  exact ⟨written, reformat_of_parse h hsame, hparse, reformat_of_parse hparse hprint⟩

/-- A document that says something twice and has a reference without a title. -/
def looseText : String :=
  "a :\n  references:\n    \"\":\n      link: x\n    b:\n      authors:\n        c\n" ++
    "  d: e\n  d: f\n    g\n  properties:\n    h: 1.50\n"

/-- What the document says. -/
def looseArchitectures : Architectures :=
  [("a", ⟨[
    ("references", .references [
      { Reference.titled "" with link := some "x" },
      { Reference.titled "b" with authors := ["c"] }]),
    ("d", .swap "f" (some [("g", .default)])),
    ("properties", .properties [("h", .real (Binary64.ofRank false 4609434218613702656))])]⟩)]

theorem exists_reformat_looseText :
    parse looseText = .ok looseArchitectures ∧ looseArchitectures.Unambiguous ∧
      ∃ written, (reformat 2 looseText).2 = .ok written ∧
        parse written = .ok looseArchitectures.titled ∧
        (reformat 2 written).2 = .ok written := by
  have hparse : parse looseText = .ok looseArchitectures := by decide +kernel
  have hplain : looseArchitectures.Unambiguous := by decide
  exact ⟨hparse, hplain, exists_reformat 2 hparse hplain⟩

/-- What is written of a document is read as something else. -/
def Changes (text written : String) : Prop :=
  (reformat 4 text).2 = .ok written ∧ parse written ≠ parse text

instance (text written : String) : Decidable (Changes text written) :=
  inferInstanceAs (Decidable ((reformat 4 text).2 = .ok written ∧ parse written ≠ parse text))

/-- A reference without a title is left out, a block under the name of a section is
taken for the section, infinity is taken for a text, and an author without a name for
none. -/
theorem changes_of_ambiguous :
    Changes "a:\n  references:\n    \"\":\n" "a:\n    references:\n" ∧
    Changes "a:\n  references :\n" "a:\n    references:\n" ∧
    Changes "a:\n  properties:\n    b: 1e999\n" "a:\n    properties:\n        b: inf\n" ∧
    Changes "a:\n  references:\n    \"b\":\n      authors: \"\"\n"
      "a:\n    references:\n        \"b\":\n            authors:\n                \n" := by
  decide +kernel

end ArchDiagram.Document

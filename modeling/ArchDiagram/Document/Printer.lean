/-
# Writing documents

Architectures as a document. Every level of nesting is indented by the same
number of spaces, at least one. A name and its entry stand on one line, texts are
quoted, and a real number keeps a point so that it is read as one again. What has
no text is refused, and what was reported before the refusal stays reported.
-/

import ArchDiagram.Architecture
import ArchDiagram.Binary64.Layout
import ArchDiagram.Event
import ArchDiagram.Text.Escape

namespace ArchDiagram.Document

/-- A part of what is written. -/
inductive Piece
  /-- A line at a depth, counted in spaces. -/
  | line (depth : Nat) (text : String)
  /-- Something to report. -/
  | note (event : Event)
  /-- Nothing can be written from here on. -/
  | refusal (fault : StructureFault)
deriving DecidableEq, Repr

/-- What writing leaves: the text or the reason why there is none, and what there
is to report. -/
structure Printout where
  events : List Event
  text : Except StructureFault String
deriving Repr

namespace Piece

/-- A line with its indentation and its end. -/
def lineText (depth : Nat) (text : String) : String :=
  String.ofList (List.replicate depth ' ') ++ text ++ "\n"

/-- Put the pieces together up to the first refusal. -/
def assemble : List Piece → Printout
  | [] => ⟨[], .ok ""⟩
  | .line depth text :: rest =>
      let after := assemble rest
      { after with text := after.text.map (lineText depth text ++ ·) }
  | .note event :: rest =>
      let after := assemble rest
      { after with events := event :: after.events }
  | .refusal fault :: _ => ⟨[], .error fault⟩

end Piece

/-! ## Sections -/

/-- A real number in a document is positional from `1e-4` up to `1e16` and always
has a point; a tie goes up. -/
def layout : Layout where
  tie := .up
  positional power := decide (-4 ≤ power ∧ power ≤ 15)
  wholePoint := true
  digitPoint := true
  plusSign := false
  infinity := "inf"

/-- A text between quotes. -/
def quoted (text : String) : String :=
  "\"" ++ String.ofList (Text.escape text.toList) ++ "\""

/-- The text of a property. -/
def propertyText : Property → String
  | .integer value => toString value
  | .real value => String.ofList (layout.text value)
  | .text value => quoted value

/-- The lines of properties. -/
def propertyPieces (depth : Nat) (properties : Entries Property) : List Piece :=
  properties.map fun entry => .line depth s!"{entry.1}: {propertyText entry.2}"

/-- The text of a further member of a reference: only strings are quoted. -/
def memberText : Json → String
  | .string value => quoted value
  | value => value.compact

/-- The lines of a reference. A reference without a title has none. -/
def referencePieces (width depth : Nat) (reference : Reference) : List Piece :=
  if reference.title = "" then [.note .untitledReference]
  else
    let inner := depth + width
    let authors :=
      if reference.authors.isEmpty then []
      else .line inner "authors:" :: reference.authors.map (.line (inner + width) ·)
    let field (name : String) (value : Option String) : List Piece :=
      value.toList.map fun value => .line inner s!"{name}: {quoted value}"
    .line depth ("\"" ++ reference.title ++ "\":") :: authors
      ++ field "link" reference.link
      ++ field "info" reference.info
      ++ field "refType" reference.refType
      ++ reference.others.map fun entry => .line inner s!"{entry.1}: {memberText entry.2}"

/-! ## Blocks -/

mutual

/-- The pieces of the entry under `key`. -/
def entryPieces (width depth : Nat) (key : String) : Override → List Piece
  | .default => [.line depth key]
  | .nested children => .line depth s!"{key}:" :: blockPieces width (depth + width) children
  | .swap replacement none => [.line depth s!"{key}: {replacement}"]
  | .swap replacement (some overrides) =>
      .line depth s!"{key}: {replacement}" :: blockPieces width (depth + width) overrides
  | .references listed =>
      if key = "references" then
        .line depth "references:" :: listed.flatMap (referencePieces width (depth + width))
      else [.refusal (.misplacedSection "references" key)]
  | .properties listed =>
      if key = "properties" then
        .line depth "properties:" :: propertyPieces (depth + width) listed
      else [.refusal (.misplacedSection "properties" key)]
  | .settings _ => [.refusal (.settingsInText key)]

/-- The pieces of a block. -/
def blockPieces (width depth : Nat) : List (String × Override) → List Piece
  | [] => []
  | (key, entry) :: rest => entryPieces width depth key entry ++ blockPieces width depth rest

end

/-! ## Architectures -/

/-- The spaces of one level of nesting. -/
def levelWidth (indent : Nat) : Nat := max indent 1

/-- The pieces of an architecture. -/
def architecturePieces (indent : Nat) (name : String) (architecture : Architecture) :
    List Piece :=
  if architecture.entries.isEmpty then [.refusal (.noEntries name)]
  else
    .line 0 s!"{name}:" ::
      blockPieces (levelWidth indent) (levelWidth indent) architecture.entries

/-- Write one architecture. -/
def printArchitecture (indent : Nat) (name : String) (architecture : Architecture) : Printout :=
  Piece.assemble (architecturePieces indent name architecture)

/-- Write architectures with a blank line between them. -/
def print (indent : Nat) (architectures : Architectures) : Printout :=
  let blocks := architectures.map fun entry => architecturePieces indent entry.1 entry.2
  Piece.assemble ([Piece.line 0 ""].intercalate blocks)

end ArchDiagram.Document

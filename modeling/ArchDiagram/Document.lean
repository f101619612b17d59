/-
# Documents

A document holds architectures as text. Its first line names an architecture, as
does every further line without indentation that ends in a colon; what stands
below a name is the block of that architecture. Main definitions:
`Document.parse` and `Document.reformat`; the inverse is `Document.print`.
-/

import ArchDiagram.Document.Block
import ArchDiagram.Document.Printer

namespace ArchDiagram.Document

/-- The line that names an architecture, with the lines of its block. -/
structure Slice where
  header : Line
  lines : List Line
deriving DecidableEq, Repr

/-- Whether a line after the first names an architecture. -/
def isHeader (line : Line) : Bool :=
  line.heading?.isSome && line.indent == 0

/-- The lines before the first header, and the slices from there on. -/
def slices : List Line → List Line × List Slice
  | [] => ([], [])
  | line :: rest =>
      let (own, later) := slices rest
      if isHeader line then ([], ⟨line, own⟩ :: later) else (line :: own, later)

/-- Read an architecture. -/
def architectureOf (slice : Slice) : Except Fault (String × Architecture) :=
  let name := String.ofList (slice.header.heading?.getD [])
  match blockOf slice.lines with
  | .error fault => .error fault
  | .ok [] => .error (.emptyArchitecture slice.header.number name)
  | .ok entries => .ok (name, ⟨entries⟩)

/-- Read architectures in order, repeated names not merged. -/
def architecturesOf : List Slice → Except Fault (List (String × Architecture))
  | [] => .ok []
  | slice :: rest =>
      match architectureOf slice with
      | .error fault => .error fault
      | .ok architecture => (architecturesOf rest).map (architecture :: ·)

/-- Read the lines of a document. -/
def ofLines : List Line → Except Fault Architectures
  | [] => .error .empty
  | [_] => .error .noContents
  | first :: rest =>
      if first.heading?.isSome then
        let (own, later) := slices rest
        (architecturesOf (⟨first, own⟩ :: later)).map Entries.collect
      else .error (.missingHeader first.number first.string)

/-- Read a document. -/
def parse (text : String) : Except Fault Architectures :=
  ofLines (Line.all text.toList)

/-- Read a document and write it again. Nothing is reported if it cannot be read. -/
def reformat (indent : Nat) (text : String) : List Event × Except Fault String :=
  match parse text with
  | .error fault => ([], .error fault)
  | .ok architectures =>
      let printout := print indent architectures
      (printout.events, printout.text.mapError .unwritable)

end ArchDiagram.Document

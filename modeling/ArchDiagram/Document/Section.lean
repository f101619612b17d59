/-
# Sections

The lines below `references:` and `properties:`. A property is a line of its own,
however deep it is indented. A reference is a title with a colon, all titles of a
section at one depth, and below it are its members: a member is a name and a
value, of which a quoted value goes on in the lines below it, and the authors may
be listed one a line.
-/

import ArchDiagram.Document.Fault
import ArchDiagram.Document.Numeral
import ArchDiagram.Document.Outline
import ArchDiagram.Text.Escape

namespace ArchDiagram.Document

/-! ## Properties -/

/-- The property a value stands for: a number if it is spelled as one, and else
a text, quoted or not. -/
def propertyOf (value : List Char) : Property :=
  match Numeral.ofText? value with
  | some numeral => numeral.toProperty
  | none =>
      match Text.unquote value with
      | some inner => .text (String.ofList (Text.unescape inner))
      | none => .text (String.ofList value)

/-- The name and the property of a line. -/
def propertyOfLine (line : Line) : Except Fault (String × Property) :=
  match line.pair? with
  | none => .error (.malformedProperty line.number line.string)
  | some (name, value) => .ok (String.ofList name, propertyOf value)

/-- The properties on some lines, in order. -/
def propertiesOfLines : List Line → Except Fault (List (String × Property))
  | [] => .ok []
  | line :: rest =>
      match propertyOfLine line with
      | .error fault => .error fault
      | .ok property => (propertiesOfLines rest).map (property :: ·)

/-- The properties below `properties:`. -/
def propertiesOf (children : List Outline) : Except Fault (Entries Property) :=
  (propertiesOfLines (Outline.flattenAll children)).map Entries.collect

/-! ## References -/

/-- What a line below the title of a reference says about it. -/
inductive Member
  | authors (listed : List String)
  | text (name value : String)
deriving DecidableEq, Repr

/-- Add a member to a reference. A title among the members does not count; of a
repeated member the last value does. -/
def Member.addTo (reference : Reference) : Member → Reference
  | .authors listed => { reference with authors := listed }
  | .text "title" _ => reference
  | .text "link" value => { reference with link := some value }
  | .text "info" value => { reference with info := some value }
  | .text "refType" value => { reference with refType := some value }
  | .text name value => { reference with others := reference.others.put name (.string value) }

/-- How a member is written. -/
inductive MemberForm
  /-- One author in the line itself. -/
  | author (name : List Char)
  /-- The authors are in the lines below. -/
  | authorsBelow
  /-- A value that ends with the line. -/
  | plain (name value : List Char)
  /-- A quoted value, which goes on in the lines below. -/
  | quoted (name inner : List Char)
deriving DecidableEq, Repr

/-- How a name and a value are read as a member. -/
def MemberForm.ofPair (name value : List Char) : MemberForm :=
  if name = "authors".toList then
    match Text.unquote value with
    | some inner => .author (Text.unescape inner)
    | none => if value.isEmpty then .authorsBelow else .author value
  else
    match Text.unquote value with
    | some inner => .quoted name inner
    | none => .plain name value

/-- A quoted value and the lines it goes on in, escapes evaluated. -/
def continued (inner : List Char) (below : List Line) : List Char :=
  Text.unescape (inner ++ below.flatMap fun line => '\n' :: line.text)

mutual

/-- The members on a line and on the lines it owns. -/
def membersOf : Outline → Except Fault (List Member)
  | .node line children =>
      match line.pair? with
      | none => .error (.malformedReference line.number line.string)
      | some (name, value) =>
          match MemberForm.ofPair name value with
          | .author author =>
              (membersOfAll children).map (.authors [String.ofList author] :: ·)
          | .authorsBelow =>
              .ok [.authors ((Outline.flattenAll children).map Line.string)]
          | .plain name value =>
              (membersOfAll children).map
                (.text (String.ofList name) (String.ofList value) :: ·)
          | .quoted name inner =>
              .ok [.text (String.ofList name)
                (String.ofList (continued inner (Outline.flattenAll children)))]

/-- The members below the title of a reference, in order. -/
def membersOfAll : List Outline → Except Fault (List Member)
  | [] => .ok []
  | outline :: rest =>
      match membersOf outline with
      | .error fault => .error fault
      | .ok first => (membersOfAll rest).map (first ++ ·)

end

/-- The title a line gives, if it stands at the depth of titles. Its quotes are
taken off, and nothing in it is evaluated. -/
def title? (depth : Nat) (line : Line) : Option (List Char) :=
  if line.indent = depth then
    line.heading?.map fun title => (Text.unquote title).getD title
  else none

/-- The references with titles at a depth, in order. -/
def referencesAt (depth : Nat) : List Outline → Except Fault (List Reference)
  | [] => .ok []
  | .node line children :: rest =>
      match title? depth line with
      | none => .error (.malformedReference line.number line.string)
      | some title =>
          match membersOfAll children with
          | .error fault => .error fault
          | .ok members =>
              let reference := members.foldl Member.addTo (Reference.titled (String.ofList title))
              (referencesAt depth rest).map (reference :: ·)

/-- The references below `references:`; the first title gives the depth of all. -/
def referencesOf : List Outline → Except Fault (List Reference)
  | [] => .ok []
  | first :: rest => referencesAt first.line.indent (first :: rest)

end ArchDiagram.Document

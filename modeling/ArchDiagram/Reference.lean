/-
# References

A citation. Two references of one view are the same if they have the same
`title`. Members that are not fields are kept as they are.
-/

import ArchDiagram.Json.Fields

namespace ArchDiagram

/-- A citation. -/
structure Reference where
  title : String
  link : Option String
  info : Option String
  authors : List String
  refType : Option String
  /-- The other members, in order. -/
  others : Entries Json
deriving DecidableEq, Repr

namespace Reference

/-- A reference of which nothing is known but its title. -/
def titled (title : String) : Reference :=
  { title, link := none, info := none, authors := [], refType := none, others := [] }

/-- The names of the fields, in order. -/
def fieldNames : List String := ["title", "link", "info", "authors", "refType"]

/-- Read a reference. -/
def ofJson? (value : Json) : Option Reference := do
  let fields ← Json.Fields.ofObject? fieldNames value
  let title ← fields.required? "title" Json.string?
  let link ← fields.optional? "link" Json.string?
  let info ← fields.optional? "info" Json.string?
  let authors ← fields.defaulted? "authors" [] (Json.list? Json.string?)
  let refType ← fields.optional? "refType" Json.string?
  return { title, link, info, authors, refType, others := fields.others }

/-- Write a reference; fields without a value are left out. -/
def toJson (reference : Reference) : Json :=
  .object <|
    [("title", .string reference.title)]
      ++ Json.optionalMember "link" .string reference.link
      ++ Json.optionalMember "info" .string reference.info
      ++ Json.listMember "authors" .string reference.authors
      ++ Json.optionalMember "refType" .string reference.refType
      ++ reference.others

end Reference

end ArchDiagram

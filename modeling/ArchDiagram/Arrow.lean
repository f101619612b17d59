/-
# Arrows

An arrow is drawn into an item, from another item or from nowhere. It may run in
segments. The arrow and each segment carry labels.
-/

import ArchDiagram.Label

namespace ArchDiagram

/-- A straight part of an arrow. -/
structure Segment where
  text : Option (OneOrMany Label)
  /-- The other members, in order. -/
  others : Entries Json
deriving DecidableEq, Repr

/-- An arrow drawn into an item. -/
structure Arrow where
  /-- The item the arrow comes from. -/
  previous : Option String
  /-- The view the arrow opens. -/
  details : Option String
  text : Option (OneOrMany Label)
  segments : List Segment
  /-- The other members, in order. -/
  others : Entries Json
deriving DecidableEq, Repr

namespace Segment

/-- Read a segment. -/
def ofJson? (value : Json) : Option Segment := do
  let fields ← Json.Fields.ofObject? ["text"] value
  let text ← fields.optional? "text" (OneOrMany.ofJson? Label.ofJson?)
  return { text, others := fields.others }

/-- Write a segment. -/
def toJson (segment : Segment) : Json :=
  .object <|
    Json.optionalMember "text" (OneOrMany.toJson Label.toJson) segment.text ++ segment.others

/-- Apply a function to every label. -/
def mapLabels (f : Label → Label) (segment : Segment) : Segment :=
  { segment with text := segment.text.map (OneOrMany.map f) }

end Segment

namespace Arrow

/-- The names of the fields, in order. -/
def fieldNames : List String := ["previous", "details", "text", "segments"]

/-- Read an arrow. -/
def ofJson? (value : Json) : Option Arrow := do
  let fields ← Json.Fields.ofObject? fieldNames value
  let previous ← fields.optional? "previous" Json.string?
  let details ← fields.optional? "details" Json.string?
  let text ← fields.optional? "text" (OneOrMany.ofJson? Label.ofJson?)
  let segments ← fields.defaulted? "segments" [] (Json.list? Segment.ofJson?)
  return { previous, details, text, segments, others := fields.others }

/-- Write an arrow; fields without a value are left out. -/
def toJson (arrow : Arrow) : Json :=
  .object <|
    Json.optionalMember "previous" .string arrow.previous
      ++ Json.optionalMember "details" .string arrow.details
      ++ Json.optionalMember "text" (OneOrMany.toJson Label.toJson) arrow.text
      ++ Json.listMember "segments" Segment.toJson arrow.segments
      ++ arrow.others

/-- The labels of the arrow itself, then those of each segment in order. -/
def labels (arrow : Arrow) : List Label :=
  (arrow.text.toList ++ arrow.segments.filterMap Segment.text).flatMap OneOrMany.toList

/-- Apply a function to every label of the arrow and of its segments. -/
def mapLabels (f : Label → Label) (arrow : Arrow) : Arrow :=
  { arrow with
    text := arrow.text.map (OneOrMany.map f)
    segments := arrow.segments.map (Segment.mapLabels f) }

end Arrow

end ArchDiagram

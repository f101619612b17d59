/-
# Placeholders

A label may hold placeholders `{{name}}` for properties of the architecture. A
property is filled in if the label has a member of its name that is set. If the
label asks for none of the properties, its default stands for all placeholders.
The LaTeX text of a label is filled if it has one, and else its plain text.
-/

import ArchDiagram.Json.Printer
import ArchDiagram.Text.Replace
import ArchDiagram.View

namespace ArchDiagram

namespace Label

/-- Apply a function to the text in which placeholders are filled. -/
def mapTarget (f : List Char → List Char) (label : Label) : Label :=
  let onString (text : String) : String := String.ofList (f text.toList)
  match label.latexText with
  | some latex => { label with latexText := some (onString latex) }
  | none => { label with text := label.text.map onString }

/-- Whether the label asks for the property `name`. -/
def asksFor (label : Label) (name : String) : Bool :=
  match label.others.lookup name with
  | some value => value.isTruthy
  | none => false

/-- The properties the label asks for, in their order. -/
def asked (label : Label) (properties : Entries Property) : Entries Property :=
  properties.filter fun entry => label.asksFor entry.1

/-- Put a property for its placeholders. -/
def fillProperty (text : List Char) (name : String) (property : Property) : List Char :=
  Text.replaceAll (Text.placeholder name.toList) property.display.toList text

/-- The text of a default. -/
def defaultText : Json → String
  | .string value => value
  | value => value.compact

/-- Fill the placeholders of a label: the properties it asks for one after the
other, or else its default. -/
def fill (properties : Entries Property) (label : Label) : Label :=
  match label.asked properties, label.default with
  | [], none => label
  | [], some default => label.mapTarget (Text.replacePlaceholders (defaultText default).toList)
  | asked, _ =>
      label.mapTarget fun text =>
        asked.foldl (fun text entry => fillProperty text entry.1 entry.2) text

end Label

namespace View

/-- Fill the placeholders of all labels with the properties of the view. -/
def fill (view : View) : View :=
  view.mapLabels (Label.fill view.properties)

end View

end ArchDiagram

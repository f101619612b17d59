/-
# Events

What building views and writing documents has to report. Resolution never fails:
what cannot be placed is left out and reported. Some events are alerts for the
author of a diagram; the others only tell what was done.
-/

namespace ArchDiagram

/-- Something that happened on the way. -/
inductive Event
  /-- No architecture has this name. -/
  | architectureMissing (name : String)
  /-- Neither a detail nor a component has this name. -/
  | detailMissing (name : String)
  /-- No component has this name. -/
  | componentMissing (name : String)
  /-- An instance was met again inside itself. -/
  | cycle (owner : String)
  /-- The override for a class of slots puts nothing in them. -/
  | notASwap (slotClass owner : String)
  /-- The first item of a template asks for a place behind another item. -/
  | firstPrevious (item owner previous : String)
  /-- A reference without a title has no text. -/
  | untitledReference
  /-- A view is being built. -/
  | viewStarted (name : String)
  /-- A view has been built. -/
  | viewFinished (name : String)
  /-- A template is being expanded; its instance name stands at the end, behind
  those of the expansions around it. -/
  | expanded (path : List String)
deriving DecidableEq, Repr

namespace Event

/-- The level and the words of an alert. -/
def alert? : Event → Option String
  | .architectureMissing name => some s!"ERROR: architecture `{name}` not found"
  | .detailMissing name => some s!"ERROR: detail `{name}` not found"
  | .componentMissing name => some s!"ERROR: component `{name}` not found"
  | .cycle owner => some s!"ERROR: cyclical reference detected in component `{owner}`"
  | .notASwap slotClass owner =>
      some s!"WARN: override for class `{slotClass}` in `{owner}` is not a swap, ignoring it"
  | .firstPrevious item owner previous =>
      some s!"WARN: first item {item} in {owner} had a previous element {previous}"
  | .untitledReference => some "WARN: skipping reference without a title"
  | .viewStarted _ | .viewFinished _ | .expanded _ => none

/-- The alerts among some events, in order. -/
def alerts (events : List Event) : List String :=
  events.filterMap alert?

end Event

end ArchDiagram

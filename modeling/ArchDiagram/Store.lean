/-
# Stores

The views of a session that have been built, with the navigation between them.
-/

import ArchDiagram.Navigation
import ArchDiagram.View

namespace ArchDiagram

/-- The views that have been built and the navigation between them. -/
structure Store where
  views : Entries View
  navigation : Navigation
deriving DecidableEq, Repr

namespace Store

/-- The store without views. -/
def empty : Store := ⟨[], []⟩

/-- The view kept under a name. -/
def get? (store : Store) (name : String) : Option View :=
  store.views.lookup name

/-- Whether a view is kept under a name. -/
def contains (store : Store) (name : String) : Bool :=
  store.views.has name

/-- Keep a view under a name. -/
def insert (store : Store) (name : String) (view : View) : Store :=
  { store with views := store.views.put name view }

/-- Start the navigation of a view anew. -/
def resetNavigation (store : Store) (name : String) : Store :=
  { store with navigation := store.navigation.reset name }

/-- Enter `child` below `parent`. -/
def link (store : Store) (parent child : String) : Store :=
  { store with navigation := store.navigation.link parent child }

/-- Forget a view and its entry in the navigation. -/
def invalidate (store : Store) (name : String) : Store :=
  ⟨store.views.without name, Entries.without store.navigation name⟩

end Store

end ArchDiagram

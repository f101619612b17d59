/-
# The leaves of a diagram

What an architecture shows is determined by the registry alone. Its leaves are
given here by a recursion of their own over templates, slots and overrides, which
knows nothing of views, of identifiers or of what a session has built before.
Main statement: the items of a resolved architecture are its leaves, one for one
and in order, and placing a leaf changes nothing of it but its anchors and what
it takes over from its template (`forall₂_placedAs_resolveArchitecture`).
-/

import ArchDiagram.Session
import ArchDiagram.Proofs.Numbering
import Mathlib.Data.List.Forall2

namespace ArchDiagram

/-- A leaf of a template, at the place where an expansion comes to it. -/
structure Leaf where
  /-- The instance name the template is expanded under. -/
  owner : String
  template : Template
  /-- The name of the leaf in the template. -/
  key : String
  item : Item

/-- What stands in a slot under some overrides: the replacement of a swap for its
class, with the overrides of the swap, and else its own component, with the same
overrides. -/
def Slot.filling (slot : Slot) (swaps : Entries Override) : String × Entries Override :=
  match slot.slotClass.bind fun slotClass => swaps.lookup slotClass with
  | some (.swap replacement overrides) => (replacement, overrides.getD [])
  | _ => (slot.component, swaps)

theorem Slot.filling_eq_or (slot : Slot) (swaps : Entries Override) :
    slot.filling swaps = (slot.component, swaps) ∨
      ∃ slotClass replacement overrides,
        swaps.lookup slotClass = some (.swap replacement overrides) ∧
          slot.filling swaps = (replacement, overrides.getD []) := by
  unfold filling
  split
  · rename_i replacement overrides hlookup
    obtain ⟨slotClass, -, hswap⟩ := Option.bind_eq_some_iff.mp hlookup
    exact Or.inr ⟨slotClass, replacement, overrides, hswap, rfl⟩
  · exact Or.inl rfl

/-- The choice an expansion makes for a slot is its filling. -/
theorem Frame.choose_eq_filling (frame : Frame) (slot : Slot) :
    ((frame.choose slot).owner, (frame.choose slot).swaps) = slot.filling frame.swaps := by
  unfold choose Slot.filling
  cases slot.slotClass with
  | none => rfl
  | some slotClass =>
      simp only [Option.bind_some]
      cases frame.swaps.lookup slotClass with
      | none => rfl
      | some entry => cases entry <;> rfl

namespace Registry

/-- The instance names that can still be met below an instance. -/
def reach (registry : Registry) (id : String) (swaps : Entries Override) : List String :=
  id :: (registry.slotNames ++ Override.replacementsIn swaps)

theorem mem_reach_of_mem_reach_filling {registry : Registry} {id name : String}
    {template : Template} {key : String} {slot : Slot} {swaps : Entries Override}
    (hfound : registry.instanceOf? id = some template)
    (hslot : (key, Content.slot slot) ∈ template.content)
    (hname : name ∈ registry.reach (slot.filling swaps).1 (slot.filling swaps).2) :
    name ∈ registry.reach id swaps := by
  have hcomponent : slot.component ∈ registry.slotNames :=
    slotNames_subset (instanceOf?_mem hfound) (List.mem_filterMap.mpr ⟨_, hslot, rfl⟩)
  simp only [reach, List.mem_cons, List.mem_append] at hname ⊢
  rcases slot.filling_eq_or swaps with hfill | ⟨slotClass, replacement, overrides, hswap, hfill⟩
  · rw [hfill] at hname
    rcases hname with rfl | h | h
    · exact Or.inr (Or.inl hcomponent)
    · exact Or.inr (Or.inl h)
    · exact Or.inr (Or.inr h)
  · rw [hfill] at hname
    -- the replacement and everything below it are replacements of the entry looked up
    have hbelow (h : name ∈ (Override.swap replacement overrides).replacements) :
        name ∈ Override.replacementsIn swaps := Frame.mem_replacementsIn_of_lookup hswap h
    rcases hname with rfl | h | h
    · exact Or.inr (Or.inr (hbelow (by cases overrides <;> simp [Override.replacements])))
    · exact Or.inr (Or.inl h)
    · refine Or.inr (Or.inr (hbelow ?_))
      cases overrides with
      | none => simp [Override.replacementsIn] at h
      | some inner => exact List.mem_cons_of_mem _ h

set_option linter.unusedVariables false in
/-- The leaves below an instance inside others, in order. There are none without a
template or when the instance is met inside itself. -/
def leaves (registry : Registry) (id : String) (ancestors : List String)
    (swaps : Entries Override) : List Leaf :=
  match hfound : registry.instanceOf? id with
  | none => []
  | some template =>
      if hcycle : id ∈ ancestors then []
      else
        template.content.attach.flatMap fun ⟨(key, content), _⟩ =>
          match content with
          | .leaf item => [⟨id, template, key, item⟩]
          | .slot slot =>
              leaves registry (slot.filling swaps).1 (ancestors ++ [id]) (slot.filling swaps).2
termination_by Supply.left ancestors (registry.reach id swaps)
decreasing_by
  refine Supply.left_lt List.mem_cons_self hcycle fun other hother hnew => ?_
  simp only [List.mem_append, List.mem_singleton, not_or] at hnew
  exact ⟨mem_reach_of_mem_reach_filling hfound ‹_› hother, hnew⟩

/-- The leaves some content of a template adds to an expansion. -/
def leavesIn (registry : Registry) (frame : Frame) (content : Entries Content) : List Leaf :=
  content.flatMap fun entry =>
    match entry.2 with
    | .leaf item => [⟨frame.owner, frame.template, entry.1, item⟩]
    | .slot slot =>
        registry.leaves (slot.filling frame.swaps).1 frame.path (slot.filling frame.swaps).2

/-- The leaves of an instance are those of the content of its template. -/
theorem leaves_eq (registry : Registry) (id : String) (ancestors : List String)
    (swaps : Entries Override) :
    registry.leaves id ancestors swaps =
      match registry.instanceOf? id with
      | none => []
      | some template =>
          if id ∈ ancestors then []
          else registry.leavesIn ⟨id, template, ancestors, swaps⟩ template.content := by
  rw [leaves]
  cases hfound : registry.instanceOf? id with
  | none => rfl
  | some template =>
      simp only [leavesIn, Frame.path]
      by_cases hcycle : id ∈ ancestors
      · simp only [hcycle, if_true, dite_true]
      · simp only [hcycle, if_false, dite_false]
        refine (List.flatMap_subtype ?_).trans (by rw [List.unattach_attach])
        rintro ⟨key, content⟩ hmem
        cases content <;> rfl

end Registry

/-- The leaves of an architecture: those of its components in the order of its
entries. Sections have none. -/
def Architecture.leaves (architecture : Architecture) (registry : Registry) : List Leaf :=
  architecture.entries.flatMap fun entry =>
    match entry.2 with
    | .default => registry.leaves entry.1 [] []
    | .nested swaps => registry.leaves entry.1 [] swaps
    | .swap replacement overrides => registry.leaves replacement [] (overrides.getD [])
    | .references _ | .properties _ | .settings _ => []

/-! ## Placing -/

/-- An item without its anchors and without what it may take over from a template. -/
def Item.bare (item : Item) : Item :=
  { item with
    previous := none
    arrow := item.arrow.map (OneOrMany.map fun arrow => { arrow with previous := none })
    details := none
    info := none }

/-- An entry of a view is a leaf that has been placed: its identifier is made of
the names of the leaf, and its item is that of the leaf but for the anchors, with
the details and the information of the template where the leaf has none. -/
structure Leaf.PlacedAs (leaf : Leaf) (entry : String × Item) : Prop where
  ident : entry.1 = Ident.namespaced leaf.owner leaf.key ∨
    ∃ n, entry.1 = Ident.numbered leaf.owner (n + 1) leaf.key
  bare : entry.2.bare = leaf.item.bare
  details : entry.2.details = leaf.item.details.or leaf.template.details
  info : entry.2.info = leaf.item.info.or leaf.template.info

/-- Leaves with the entries they get when they are placed one after the other in a view
that has the identifiers `taken` already: each is placed under the first identifier that
is free when its turn comes. -/
inductive PlacedInTurn : List String → List Leaf → Entries Item → Prop
  | nil {taken : List String} : PlacedInTurn taken [] []
  | cons {taken : List String} {leaf : Leaf} {ident : String} {item : Item} {leaves : List Leaf}
      {placed : Entries Item} : Ident.FirstFree taken leaf.owner leaf.key ident →
      leaf.PlacedAs (ident, item) → PlacedInTurn (taken ++ [ident]) leaves placed →
      PlacedInTurn taken (leaf :: leaves) ((ident, item) :: placed)

namespace PlacedInTurn

variable {taken : List String} {leaves leaves' : List Leaf} {placed placed' : Entries Item}

theorem append (h : PlacedInTurn taken leaves placed)
    (h' : PlacedInTurn (taken ++ placed.names) leaves' placed') :
    PlacedInTurn taken (leaves ++ leaves') (placed ++ placed') := by
  induction h with
  | nil => simpa [Entries.names] using h'
  | cons hfree hplaced _ ih => exact .cons hfree hplaced (ih (by simpa [Entries.names] using h'))

theorem forall₂ (h : PlacedInTurn taken leaves placed) :
    List.Forall₂ Leaf.PlacedAs leaves placed := by
  induction h with
  | nil => exact .nil
  | cons _ hplaced _ ih => exact .cons hplaced ih

/-- No identifier is given twice, and none that is taken is given again. -/
theorem nodup_names (h : PlacedInTurn taken leaves placed) :
    placed.names.Nodup ∧ ∀ ident ∈ placed.names, ident ∉ taken := by
  induction h with
  | nil => simp [Entries.names]
  | @cons taken leaf ident item leaves placed hfree _ _ ih =>
      obtain ⟨hnodup, hnew⟩ := ih
      have hnames : Entries.names ((ident, item) :: placed) = ident :: placed.names := rfl
      rw [hnames, List.nodup_cons]
      refine ⟨⟨fun hmem => hnew ident hmem (by simp), hnodup⟩, fun other hother => ?_⟩
      rcases List.mem_cons.mp hother with rfl | hrest
      · exact hfree.notMem
      · exact fun htaken => hnew other hrest (List.mem_append_left _ htaken)

end PlacedInTurn

namespace Frame

theorem bare_settle (frame : Frame) (previous : Option String) (anchors : Entries String)
    (item : Item) : (frame.settle previous anchors item).bare = item.bare := by
  cases harrow : item.arrow with
  | none => simp [settle, Item.bare, harrow]
  | some arrows => cases arrows <;> simp [settle, Item.bare, harrow, OneOrMany.map]

/-- Placing a leaf appends one entry, which is the leaf under the first free identifier. -/
theorem exists_placedAs_place (frame : Frame) (isFirst : Bool) (anchors : Entries String)
    (key : String) (item : Item) (view : View) :
    ∃ ident placed, (frame.place isFirst anchors key item view).view.content =
        view.content ++ [(ident, placed)] ∧
      Ident.FirstFree view.content.names frame.owner key ident ∧
      (Leaf.mk frame.owner frame.template key item).PlacedAs (ident, placed) := by
  have hfree := firstFree_freshIdent frame.owner key view.content
  refine ⟨_, _, rfl, hfree, hfree.eq_or, bare_settle .., ?_, ?_⟩
  · simp only [settle]
    cases item.details <;> rfl
  · simp only [settle]
    cases item.info <;> rfl

end Frame

namespace Registry

/-- The expansion of an instance places its leaves in turn, if the expansion of the
content of its template does so. -/
theorem placedInTurn_expandComponent {registry : Registry} {owner : String}
    {chain : List String} {swaps : Entries Override} {view : View}
    (hcontent : ∀ template, registry.instanceOf? owner = some template → owner ∉ chain →
      ∃ placed, (registry.expandContent ⟨owner, template, chain, swaps⟩ true [] view
          template.content).view.content = view.content ++ placed ∧
        PlacedInTurn view.content.names
          (registry.leavesIn ⟨owner, template, chain, swaps⟩ template.content) placed) :
    ∃ placed, (registry.expandComponent owner chain swaps view).view.content =
        view.content ++ placed ∧
      PlacedInTurn view.content.names (registry.leaves owner chain swaps) placed := by
  rw [leaves_eq]
  unfold expandComponent expandTemplate
  cases hfound : registry.instanceOf? owner with
  | none => exact ⟨[], by simp, .nil⟩
  | some template =>
      by_cases hcycle : owner ∈ chain
      · exact ⟨[], by simp [hcycle], by simpa [hcycle] using .nil⟩
      · simpa only [hcycle, if_false] using hcontent template hfound hcycle

/-- Expanding some content leaves the items before it in place and places its leaves in
turn behind them. -/
theorem placedInTurn_expandContent (registry : Registry) (frame : Frame) (isFirst : Bool)
    (anchors : Entries String) (view : View) (content : Entries Content) :
    ∃ placed, (registry.expandContent frame isFirst anchors view content).view.content =
        view.content ++ placed ∧
      PlacedInTurn view.content.names (registry.leavesIn frame content) placed := by
  induction frame, isFirst, anchors, view, content using expandContent_induction with
  | nil frame isFirst anchors view =>
      exact ⟨[], by simp [expandContent_nil, Frame.finish, View.mergeSettings,
        View.mergeReferences], .nil⟩
  | leaf frame isFirst anchors view key item rest ih =>
      obtain ⟨ident, settled, hentry, hfree, hplaced⟩ :=
        frame.exists_placedAs_place isFirst anchors key item view
      obtain ⟨placed, hview, hrest⟩ := ih
      rw [hentry] at hview hrest
      rw [Entries.names_append] at hrest
      refine ⟨(ident, settled) :: placed, ?_, .cons hfree hplaced hrest⟩
      rw [expandContent_leaf]
      simp only [hview, List.append_assoc, List.singleton_append]
  | slot frame isFirst anchors view key slot rest ihInside ihRest =>
      obtain ⟨inside, hinside, hleaves⟩ := placedInTurn_expandComponent ihInside
      obtain ⟨placed, hview, hrest⟩ := ihRest
      rw [hinside] at hview hrest
      rw [Entries.names_append] at hrest
      refine ⟨inside ++ placed, ?_, ?_⟩
      · rw [expandContent_slot]
        simp only [hview, List.append_assoc]
      -- the leaves were given by the filling of the slot, the expansion by its choice
      · have hfilling := frame.choose_eq_filling slot
        rw [Prod.ext_iff] at hfilling
        simp only at hfilling
        rw [hfilling.1, hfilling.2] at hleaves
        exact hleaves.append hrest

/-- The same, of the expansion of an instance. -/
theorem placedInTurn_expandInstance (registry : Registry) (owner : String)
    (chain : List String) (swaps : Entries Override) (view : View) :
    ∃ placed, (registry.expandComponent owner chain swaps view).view.content =
        view.content ++ placed ∧
      PlacedInTurn view.content.names (registry.leaves owner chain swaps) placed :=
  placedInTurn_expandComponent fun template _ _ =>
    registry.placedInTurn_expandContent ⟨owner, template, chain, swaps⟩ true [] view
      template.content

/-- The entries of an architecture place its leaves in turn. -/
theorem placedInTurn_expandEntries (registry : Registry) (view : View)
    (entries : List (String × Override)) :
    ∃ placed, (registry.expandEntries view entries).view.content = view.content ++ placed ∧
      PlacedInTurn view.content.names (Architecture.leaves ⟨entries⟩ registry) placed := by
  induction entries generalizing view with
  | nil => exact ⟨[], by simp [expandEntries], .nil⟩
  | cons entry rest ih =>
      obtain ⟨key, entry⟩ := entry
      have hfirst : ∃ placed, (registry.expandEntry view key entry).view.content =
          view.content ++ placed ∧
          PlacedInTurn view.content.names (Architecture.leaves ⟨[(key, entry)]⟩ registry)
            placed := by
        cases entry with
        | default =>
            simpa [Architecture.leaves, expandEntry] using
              registry.placedInTurn_expandInstance key [] [] view
        | nested swaps =>
            simpa [Architecture.leaves, expandEntry] using
              registry.placedInTurn_expandInstance key [] swaps view
        | swap replacement overrides =>
            simpa [Architecture.leaves, expandEntry] using
              registry.placedInTurn_expandInstance replacement [] (overrides.getD []) view
        | references | properties | settings => exact ⟨[], by simp [expandEntry], .nil⟩
      obtain ⟨first, hview, hleaves⟩ := hfirst
      obtain ⟨placed, hafter, hrest⟩ := ih (registry.expandEntry view key entry).view
      rw [hview] at hafter hrest
      rw [Entries.names_append] at hrest
      refine ⟨first ++ placed, ?_, ?_⟩
      · simp only [expandEntries, hafter, List.append_assoc]
      · have hcons : Architecture.leaves ⟨(key, entry) :: rest⟩ registry =
            Architecture.leaves ⟨[(key, entry)]⟩ registry ++
              Architecture.leaves ⟨rest⟩ registry := by
          simp [Architecture.leaves]
        rw [hcons]
        exact hleaves.append hrest

/-! ### What the components decide -/

section Components

variable {registry other : Registry}

/-- An expansion looks nothing up but components. -/
theorem expandContent_congr (hsame : other.components = registry.components) (frame : Frame)
    (isFirst : Bool) (anchors : Entries String) (view : View) (content : Entries Content) :
    other.expandContent frame isFirst anchors view content =
      registry.expandContent frame isFirst anchors view content := by
  have hinstance (name : String) : other.instanceOf? name = registry.instanceOf? name := by
    rw [instanceOf?, instanceOf?, component?, component?, hsame]
  induction frame, isFirst, anchors, view, content using
    @expandContent_induction registry with
  | nil => rw [expandContent_nil, expandContent_nil]
  | leaf frame isFirst anchors view key item rest ih =>
      simp only [expandContent_leaf, ih]
  | slot frame isFirst anchors view key slot rest ihInside ihRest =>
      have hinside : other.expandComponent (frame.choose slot).owner frame.path
          (frame.choose slot).swaps view =
          registry.expandComponent (frame.choose slot).owner frame.path (frame.choose slot).swaps
            view := by
        unfold expandComponent expandTemplate
        rw [hinstance]
        cases hfound : registry.instanceOf? (frame.choose slot).owner with
        | none => rfl
        | some template =>
            by_cases hcycle : (frame.choose slot).owner ∈ frame.path
            · simp [hcycle]
            · simp [hcycle, ihInside template hfound hcycle]
      simp only [expandContent_slot, hinside, ihRest]

theorem expandTemplate_congr (hsame : other.components = registry.components) (owner : String)
    (template : Template) (chain : List String) (swaps : Entries Override) (view : View) :
    other.expandTemplate owner template chain swaps view =
      registry.expandTemplate owner template chain swaps view := by
  simp only [expandTemplate, expandContent_congr hsame]

theorem expandEntries_congr (hsame : other.components = registry.components) (view : View)
    (entries : List (String × Override)) :
    other.expandEntries view entries = registry.expandEntries view entries := by
  induction entries generalizing view with
  | nil => rfl
  | cons entry rest ih =>
      obtain ⟨key, entry⟩ := entry
      have hcomponent (owner : String) (swaps : Entries Override) :
          other.expandComponent owner [] swaps view =
            registry.expandComponent owner [] swaps view := by
        simp only [expandComponent, instanceOf?, component?, hsame, expandTemplate_congr hsame]
      have hentry : other.expandEntry view key entry = registry.expandEntry view key entry := by
        cases entry with
        | default | nested | swap => exact hcomponent ..
        | references | properties | settings => rfl
      simp only [expandEntries, hentry, ih]

end Components

/-- The entries of an architecture add its leaves in order. -/
theorem forall₂_placedAs_expandEntries (registry : Registry) (view : View)
    (entries : List (String × Override)) :
    ∃ placed, (registry.expandEntries view entries).view.content = view.content ++ placed ∧
      List.Forall₂ Leaf.PlacedAs (Architecture.leaves ⟨entries⟩ registry) placed := by
  obtain ⟨placed, hview, hplaced⟩ := registry.placedInTurn_expandEntries view entries
  exact ⟨placed, hview, hplaced.forall₂⟩

end Registry

/-- Whatever a session has built before, the items of a resolved architecture are
the leaves of the architecture, one for one and in order. -/
theorem Session.forall₂_placedAs_resolveArchitecture (session : Session) (registry : Registry)
    (name : String) (architecture : Architecture)
    (hfound : registry.architecture? name = some architecture) :
    List.Forall₂ Leaf.PlacedAs (architecture.leaves registry)
      (session.resolveArchitecture registry name).view.content := by
  obtain ⟨placed, hview, hleaves⟩ :=
    registry.forall₂_placedAs_expandEntries View.empty architecture.entries
  have hcontent : (session.resolveArchitecture registry name).view.content = placed := by
    simpa [resolveArchitecture, hfound, View.empty] using hview
  rw [hcontent]
  exact hleaves

/-! ## A swapped slot -/

/-- A template with some content and an information of its own. -/
def Template.informed (content : Entries Content) : Template :=
  { settings := [], references := [], details := none, info := some "kept", content }

/-- An item with nothing in it. -/
def Item.blank : Item :=
  { shape := none, position := none, previous := none, details := none, info := none
    arrow := none, text := none, references := none, others := [] }

/-- A block that can have its attention swapped. What may be put there asks for the
block again. -/
def Registry.blocks : Registry where
  components := [
    ("block", .informed [("in", .leaf .blank), ("attn", .slot ⟨"mha", some "attention"⟩)]),
    ("mha", .informed [("box", .leaf .blank)]),
    ("gqa", .informed [("box", .leaf .blank), ("again", .slot ⟨"block", none⟩)])]
  details := []
  architectures := [("top", ⟨[
    ("block", .nested [("attention", .swap "gqa" none)]), ("block_1", .default)]⟩)]

/-- The swap holds for the first block only, and the block inside itself is cut off. -/
theorem placedAs_blocks :
    ∃ architecture, Registry.blocks.architecture? "top" = some architecture ∧
      ((architecture.leaves .blocks).map fun leaf => (leaf.owner, leaf.key)) =
        [("block", "in"), ("gqa", "box"), ("block_1", "in"), ("mha", "box")] ∧
      List.Forall₂ Leaf.PlacedAs (architecture.leaves .blocks)
        ((Session.mk ⟨[("gqa", View.empty)], []⟩ [("depth", .integer 3)]).resolveArchitecture
          .blocks "top").view.content :=
  ⟨_, rfl, by decide +kernel,
    Session.forall₂_placedAs_resolveArchitecture _ .blocks "top" _ rfl⟩

end ArchDiagram

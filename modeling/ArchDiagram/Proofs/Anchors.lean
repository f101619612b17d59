/-
# Anchors

An item of a view is laid out against another one, and so is each of its arrows.
In every view that can be built, and so in every view that a session hands out or
keeps, these anchors are identifiers of the same view, of the item itself or of
one placed before it (`anchored_serveAll`). Hence nothing is hidden from a view
as long as no setting is on.
-/

import ArchDiagram.Proofs.Flattening
import ArchDiagram.Proofs.Requests

namespace ArchDiagram

/-- The identifiers an item and its arrows are laid out against. -/
def Item.anchors (item : Item) : List String :=
  item.previous.toList ++ item.arrows.filterMap Arrow.previous

/-- Every anchor of an item names the item itself or one before it. -/
def View.Anchored (view : View) : Prop :=
  ∀ (i : Nat) (h : i < view.content.length), ∀ anchor ∈ view.content[i].2.anchors,
    anchor ∈ Entries.names (view.content.take (i + 1))

namespace View

variable {view : View}

theorem anchored_of_content_eq_nil (h : view.content = []) : view.Anchored := by
  intro i hi
  simp [h] at hi

/-- Appending an item keeps a view anchored if the anchors of the item are in the view
that comes out. -/
theorem anchored_append {old : View} (hold : old.Anchored) {entry : String × Item}
    (hcontent : view.content = old.content ++ [entry])
    (hanchors : ∀ anchor ∈ entry.2.anchors, anchor ∈ Entries.names view.content) :
    view.Anchored := by
  intro i hi anchor hanchor
  have hlength : view.content.length = old.content.length + 1 := by simp [hcontent]
  rcases Nat.lt_or_ge i old.content.length with hlt | hge
  -- an old item has the same items before it as it had
  · have hitem : view.content[i] = old.content[i] := by simp [hcontent, hlt]
    have htake : view.content.take (i + 1) = old.content.take (i + 1) := by
      rw [hcontent, List.take_append_of_le_length hlt]
    rw [hitem] at hanchor
    rw [htake]
    exact hold i hlt anchor hanchor
  -- before the new item, itself included, is the whole view
  · obtain rfl : i = old.content.length := by omega
    have hitem : view.content[old.content.length] = entry := by simp [hcontent]
    rw [hitem] at hanchor
    rw [List.take_of_length_le (by omega)]
    exact hanchors anchor hanchor

/-- In an anchored view only a setting can hide an item. -/
theorem visibleItems_nil_of_anchored (h : view.Anchored) : view.visibleItems [] = view.content := by
  have hflags : view.hidingFlags [] = [] := by simp [hidingFlags]
  rw [visibleItems, hflags, List.filter_eq_self]
  intro entry hentry
  obtain ⟨i, hi, rfl⟩ := List.getElem_of_mem hentry
  cases hprevious : view.content[i].2.previous with
  | none => simp
  | some anchor =>
      have hnamed := h i hi anchor (by simp [Item.anchors, hprevious])
      have hmem : anchor ∈ Entries.names view.content :=
        (List.map_subset _ (List.take_subset _ _)) hnamed
      simpa [Entries.has, Entries.names, List.lookup_isSome_iff] using hmem

end View

namespace Frame

theorem mem_names_of_lastIdent {placed : Entries Item} {ident : String}
    (h : lastIdent placed = some ident) : ident ∈ Entries.names placed := by
  obtain ⟨entry, hlast, rfl⟩ := Option.map_eq_some_iff.mp h
  exact List.mem_map_of_mem (List.mem_of_getLast? hlast)

/-- The anchors of a settled item are the given one and values of the table. -/
theorem mem_anchors_settle {frame : Frame} {previous : Option String} {anchors : Entries String}
    {item : Item} {anchor : String} (h : anchor ∈ (frame.settle previous anchors item).anchors) :
    previous = some anchor ∨ anchor ∈ anchors.map Prod.snd := by
  have harrow {arrow : Arrow} (h : (arrow.previous.bind fun name => anchors.lookup name) =
      some anchor) : anchor ∈ anchors.map Prod.snd := by
    obtain ⟨name, -, hlookup⟩ := Option.bind_eq_some_iff.mp h
    exact Registry.mem_of_lookup hlookup
  rcases List.mem_append.mp h with h | h
  · exact Or.inl (by simpa [settle] using h)
  · refine Or.inr ?_
    obtain ⟨arrow, hmem, hprevious⟩ := List.mem_filterMap.mp h
    cases hitem : item.arrow with
    | none => simp [settle, Item.arrows, hitem] at hmem
    | some arrows =>
        simp only [settle, Item.arrows, hitem, Option.map_some, Option.toList_some,
          List.flatMap_singleton, OneOrMany.toList_map, List.mem_map] at hmem
        obtain ⟨original, -, rfl⟩ := hmem
        exact harrow hprevious

/-- After an item is placed, the table of the expansion names items of the view, if it did
so before. -/
theorem mem_names_of_mem_anchors_place {frame : Frame} (isFirst : Bool)
    {anchors : Entries String} (key : String) (item : Item) {view : View}
    (hanchors : ∀ ident ∈ anchors.map Prod.snd, ident ∈ Entries.names view.content) :
    ∀ ident ∈ (frame.place isFirst anchors key item view).anchors.map Prod.snd,
      ident ∈ Entries.names (frame.place isFirst anchors key item view).view.content := by
  intro ident hident
  obtain ⟨entry, hentry, rfl⟩ := List.mem_map.mp hident
  simp only [place, Entries.names_append, List.mem_append]
  rcases Entries.mem_of_mem_put hentry with hold | hnew
  · exact Or.inl (hanchors _ (List.mem_map_of_mem hold))
  · exact Or.inr (by simp [hnew, Entries.names])

/-- Placing an item keeps the view anchored. -/
theorem anchored_place {frame : Frame} (isFirst : Bool) {anchors : Entries String} (key : String)
    (item : Item) {view : View} (hview : view.Anchored)
    (hanchors : ∀ ident ∈ anchors.map Prod.snd, ident ∈ Entries.names view.content) :
    (frame.place isFirst anchors key item view).view.Anchored := by
  have htable := frame.mem_names_of_mem_anchors_place isFirst key item hanchors
  refine View.anchored_append hview rfl fun anchor hanchor => ?_
  rcases mem_anchors_settle hanchor with hprevious | htabled
  · split at hprevious
    -- the first item of an expansion follows the last one of the view
    · simp only [place, Entries.names_append]
      exact List.mem_append_left _ (mem_names_of_lastIdent hprevious)
    · obtain ⟨name, -, hlookup⟩ := Option.bind_eq_some_iff.mp hprevious
      exact htable anchor (Registry.mem_of_lookup hlookup)
  · exact htable anchor htabled

end Frame

namespace Registry

variable {registry : Registry}

/-- Expanding some content keeps a view anchored. -/
theorem anchored_expandContent {frame : Frame} {isFirst : Bool} {anchors : Entries String}
    {view : View} {content : Entries Content} (hview : view.Anchored)
    (hanchors : ∀ ident ∈ anchors.map Prod.snd, ident ∈ Entries.names view.content) :
    (registry.expandContent frame isFirst anchors view content).view.Anchored := by
  induction frame, isFirst, anchors, view, content using expandContent_induction with
  | nil frame isFirst anchors view =>
      rw [expandContent_nil]
      exact hview
  | leaf frame isFirst anchors view key item rest ih =>
      rw [expandContent_leaf]
      exact ih (frame.anchored_place isFirst key item hview hanchors)
        (frame.mem_names_of_mem_anchors_place isFirst key item hanchors)
  | slot frame isFirst anchors view key slot rest ihInside ihRest =>
      rw [expandContent_slot]
      obtain ⟨placed, hcontent, -⟩ := registry.placedInTurn_expandInstance
        (frame.choose slot).owner frame.path (frame.choose slot).swaps view
      refine ihRest ?_ fun ident hident => ?_
      -- what stands in the slot starts with a table of its own
      · unfold expandComponent expandTemplate
        cases hfound : registry.instanceOf? (frame.choose slot).owner with
        | none => exact hview
        | some template =>
            by_cases hcycle : (frame.choose slot).owner ∈ frame.path
            · simpa [hcycle] using hview
            · simpa [hcycle] using ihInside template hfound hcycle hview (by simp)
      -- the identifiers of the table stay in the view, which only grows
      · rw [hcontent, Entries.names, List.map_append]
        exact List.mem_append_left _ (hanchors ident hident)

theorem anchored_expandTemplate {owner : String} {template : Template} {chain : List String}
    {swaps : Entries Override} {view : View} (hview : view.Anchored) :
    (registry.expandTemplate owner template chain swaps view).view.Anchored := by
  unfold expandTemplate
  split
  · exact hview
  · exact anchored_expandContent hview (by simp)

theorem anchored_expandComponent {owner : String} {chain : List String} {swaps : Entries Override}
    {view : View} (hview : view.Anchored) :
    (registry.expandComponent owner chain swaps view).view.Anchored := by
  unfold expandComponent
  split
  · exact hview
  · exact anchored_expandTemplate hview

theorem anchored_expandEntries {view : View} (entries : List (String × Override))
    (hview : view.Anchored) : (registry.expandEntries view entries).view.Anchored := by
  induction entries generalizing view with
  | nil => exact hview
  | cons entry rest ih =>
      obtain ⟨key, entry⟩ := entry
      have hfirst : (registry.expandEntry view key entry).view.Anchored := by
        cases entry with
        | default | nested | swap => exact anchored_expandComponent hview
        | references | properties | settings => exact hview
      exact ih hfirst

/-- Every view that can be built is anchored. -/
theorem ensures_anchored (registry : Registry) : registry.Ensures View.Anchored where
  entries entries := anchored_expandEntries entries (View.anchored_of_content_eq_nil rfl)
  detail _ _ _ _ _ _ := anchored_expandTemplate (View.anchored_of_content_eq_nil rfl)

end Registry

/-- From an empty store, every view that is handed out or kept is anchored, whatever
is asked for and in which order; with no setting on, all of its items are to be drawn. -/
theorem Session.anchored_serveAll (registry : Registry) (properties : Entries Property)
    (requests : List Request) :
    let answer := (Session.mk Store.empty properties).serveAll registry requests
    (∀ view ∈ answer.view, view.Anchored ∧ view.visibleItems [] = view.content) ∧
      ∀ entry ∈ answer.session.store.views,
        entry.2.Anchored ∧ entry.2.visibleItems [] = entry.2.content := by
  have hempty : (Session.mk Store.empty properties).store.AllViews View.Anchored := by
    simp [Store.AllViews, Store.empty]
  obtain ⟨hviews, hkept⟩ := forall_views_serveAll registry.ensures_anchored requests hempty
  exact ⟨fun view hview => ⟨hviews view hview, View.visibleItems_nil_of_anchored (hviews view hview)⟩,
    fun entry hentry => ⟨hkept entry hentry, View.visibleItems_nil_of_anchored (hkept entry hentry)⟩⟩

end ArchDiagram

/-
# Anchors that the lint passes

The lint knows of a template the names of the leaves before each leaf. An expansion knows
the identifiers that it has given to these leaves, and it knows them for as long as it
takes, whatever is placed in between by the components in the slots, be it the same
template again. So where the lint finds nothing to say about the anchors of a template,
every anchor that the template declares is kept and leads to the leaf it names, as this
very expansion has placed it (`keepsAnchors_expandTemplate`).
-/

import ArchDiagram.Lint
import ArchDiagram.Proofs.Anchors
import ArchDiagram.Proofs.Nesting
import ArchDiagram.Proofs.Placing

namespace ArchDiagram

/-- The leaves of some content, under their names. -/
def Template.leaves (content : Entries Content) : Entries Item :=
  content.filterMap fun entry =>
    match entry.2 with
    | .slot _ => none
    | .leaf item => some (entry.1, item)

/-- A leaf of a template with the entry of the view that has been placed for it. -/
structure PlacedLeaf where
  key : String
  declared : Item
  entry : String × Item

/-- The leaf that is placed, as the view has it. -/
def Frame.placedLeaf (frame : Frame) (isFirst : Bool) (anchors : Entries String) (key : String)
    (item : Item) (view : View) : PlacedLeaf :=
  let ident := freshIdent frame.owner key view.content
  let anchors := anchors.put key ident
  let previous :=
    if isFirst && !view.content.isEmpty then lastIdent view.content
    else item.previous.bind fun name => anchors.lookup name
  ⟨key, item, ident, frame.settle previous anchors item⟩

/-- The leaves of some content of a template as expanding the content places them. What the
components in its slots place in between is left out. -/
def Registry.placedLeaves (registry : Registry) (frame : Frame) (isFirst : Bool)
    (anchors : Entries String) (view : View) : Entries Content → List PlacedLeaf
  | [] => []
  | (key, .leaf item) :: rest =>
      let placement := frame.place isFirst anchors key item view
      frame.placedLeaf isFirst anchors key item view
        :: placedLeaves registry frame false placement.anchors placement.view rest
  | (_, .slot slot) :: rest =>
      let choice := frame.choose slot
      let inside := registry.expandComponent choice.owner frame.path choice.swaps view
      placedLeaves registry frame false anchors inside.view rest

namespace PlacedLeaf

/-- The anchor `name` of a leaf has become `anchor`, which is the identifier of a leaf of
that name among `placed`. -/
def Leads (placed : List PlacedLeaf) (name : String) (anchor : Option String) : Prop :=
  ∃ target ∈ placed, target.key = name ∧ anchor = some target.entry.1

/-- The anchors that a leaf declares, of its own and of its arrows, are kept and lead to the
leaves they name. An arrow may start at its own leaf. -/
structure KeepsAnchors (earlier : List PlacedLeaf) (leaf : PlacedLeaf) : Prop where
  previous : ∀ name ∈ leaf.declared.previous, Leads earlier name leaf.entry.2.previous
  arrows : List.Forall₂
    (fun declared drawn : Arrow =>
      ∀ name ∈ declared.previous, Leads (earlier ++ [leaf]) name drawn.previous)
    leaf.declared.arrows leaf.entry.2.arrows

/-- The table of an expansion leads to the leaves that it has placed. -/
def Tabled (anchors : Entries String) (placed : List PlacedLeaf) : Prop :=
  ∀ name ∈ placed.map PlacedLeaf.key, Leads placed name (anchors.lookup name)

theorem tabled_nil (anchors : Entries String) : Tabled anchors [] := by
  simp [Tabled]

/-- A leaf that is placed is entered in the table. -/
theorem Tabled.concat {anchors : Entries String} {placed : List PlacedLeaf}
    (h : Tabled anchors placed) (leaf : PlacedLeaf) :
    Tabled (anchors.put leaf.key leaf.entry.1) (placed ++ [leaf]) := by
  intro name hname
  by_cases hkey : name = leaf.key
  · subst hkey
    exact ⟨leaf, by simp, rfl, Entries.lookup_put_self ..⟩
  · have hold : name ∈ placed.map PlacedLeaf.key := by
      rw [List.map_append, List.mem_append] at hname
      exact hname.resolve_right (by simpa using hkey)
    obtain ⟨target, htarget, hnamed, hlookup⟩ := h name hold
    refine ⟨target, List.mem_append_left _ htarget, hnamed, ?_⟩
    rw [Entries.lookup_put_of_ne _ _ hkey, hlookup]

end PlacedLeaf

namespace Frame

variable {frame : Frame} {isFirst : Bool} {anchors : Entries String} {key : String} {item : Item}
  {view : View}

theorem content_place : (frame.place isFirst anchors key item view).view.content =
    view.content ++ [(frame.placedLeaf isFirst anchors key item view).entry] := rfl

/-- A leaf whose anchors name leaves before it keeps them. -/
theorem keepsAnchors_placedLeaf {earlier : List PlacedLeaf}
    (htable : PlacedLeaf.Tabled anchors earlier) (hnew : key ∉ earlier.map PlacedLeaf.key)
    (hprevious : ∀ name ∈ item.previous, isFirst = false ∧ name ∈ earlier.map PlacedLeaf.key)
    (harrows : ∀ name ∈ item.arrows.filterMap Arrow.previous,
      name ∈ key :: earlier.map PlacedLeaf.key) :
    (frame.placedLeaf isFirst anchors key item view).KeepsAnchors earlier where
  previous := by
    intro name hname
    obtain ⟨rfl, hearlier⟩ := hprevious name hname
    obtain ⟨target, htarget, hnamed, hlookup⟩ := htable name hearlier
    have hne : name ≠ key := fun heq => hnew (heq ▸ hearlier)
    have hdeclared : item.previous = some name := hname
    refine ⟨target, htarget, hnamed, ?_⟩
    simp only [placedLeaf, settle, hdeclared, Bool.false_and, Bool.false_eq_true, if_false,
      Option.bind_some]
    rw [Entries.lookup_put_of_ne _ _ hne, hlookup]
  arrows := by
    have htable' := htable.concat (frame.placedLeaf isFirst anchors key item view)
    simp only [placedLeaf, arrows_settle, List.forall₂_map_right_iff, List.forall₂_same]
    intro arrow harrow name hname
    have hknown : name ∈ (earlier ++ [frame.placedLeaf isFirst anchors key item view]).map
        PlacedLeaf.key := by
      have hmem := harrows name (List.mem_filterMap.mpr ⟨arrow, harrow, hname⟩)
      rw [List.map_append, List.mem_append, or_comm]
      exact List.mem_cons.mp hmem |>.imp_left fun heq => by simp [heq, placedLeaf]
    rw [Option.mem_def.mp hname]
    exact htable' name hknown

/-- The warning of a placement is about an item that comes first and declares an anchor. -/
theorem eq_of_firstPrevious_mem_place {ident owner previous : String}
    (h : .note (.firstPrevious ident owner previous) ∈
      (frame.place isFirst anchors key item view).steps) :
    owner = frame.owner ∧ isFirst = true ∧ item.previous = some previous := by
  rcases List.mem_append.mp h with hreport | hattach
  · split at hreport
    · rename_i hfollows hdeclared
      obtain ⟨-, rfl, rfl⟩ : ident = _ ∧ owner = frame.owner ∧ previous = _ := by
        simpa using hreport
      exact ⟨rfl, (Bool.and_eq_true_iff.mp hfollows).1, hdeclared⟩
    · simp at hreport
  · simp at hattach

theorem firstPrevious_notMem_opening (frame : Frame) (ident owner previous : String) :
    .note (.firstPrevious ident owner previous) ∉ frame.opening := by
  simp [opening]

theorem firstPrevious_notMem_choose (frame : Frame) (slot : Slot)
    (ident owner previous : String) :
    .note (.firstPrevious ident owner previous) ∉ (frame.choose slot).steps := by
  intro h
  obtain ⟨slotClass, heq⟩ := eq_note_of_mem_choose h
  cases heq

end Frame

namespace Registry

open PlacedLeaf

variable {registry : Registry} {frame : Frame} {isFirst : Bool} {anchors : Entries String}
  {view : View} {content : Entries Content}

/-- Every leaf of the content is placed once, in order. -/
theorem map_placedLeaves :
    (registry.placedLeaves frame isFirst anchors view content).map
      (fun leaf => (leaf.key, leaf.declared)) = Template.leaves content := by
  induction content generalizing isFirst anchors view with
  | nil => rfl
  | cons entry rest ih =>
      obtain ⟨key, slot | item⟩ := entry
      · simpa [placedLeaves, Template.leaves] using ih
      · simpa [placedLeaves, Frame.placedLeaf, Template.leaves] using ih

/-- What is placed for the leaves is among what the expansion adds to the view. -/
theorem sublist_placedLeaves : ∃ added,
    (registry.expandContent frame isFirst anchors view content).view.content =
      view.content ++ added ∧
    ((registry.placedLeaves frame isFirst anchors view content).map PlacedLeaf.entry).Sublist
      added := by
  induction content generalizing isFirst anchors view with
  | nil =>
      rw [expandContent_nil]
      exact ⟨[], (List.append_nil _).symm, .slnil⟩
  | cons entry rest ih =>
      obtain ⟨key, slot | item⟩ := entry
      · obtain ⟨inside, hinside, -⟩ := registry.placedInTurn_expandInstance
          (frame.choose slot).owner frame.path (frame.choose slot).swaps view
        obtain ⟨added, hadded, hsublist⟩ := @ih false anchors
          (registry.expandComponent (frame.choose slot).owner frame.path
            (frame.choose slot).swaps view).view
        rw [expandContent_slot]
        refine ⟨inside ++ added, ?_, hsublist.trans (List.sublist_append_right _ _)⟩
        simp only [hadded, hinside, List.append_assoc]
      · obtain ⟨added, hadded, hsublist⟩ := @ih false
          (frame.place isFirst anchors key item view).anchors
          (frame.place isFirst anchors key item view).view
        rw [expandContent_leaf]
        refine ⟨_ :: added, ?_, hsublist.cons_cons _⟩
        simp only [hadded, Frame.content_place, List.append_assoc, List.singleton_append]

/-- Where the lint finds no mistake in the anchors, they are kept. `earlier` holds what this
expansion has placed so far, and the lint the names of it. -/
theorem keepsAnchors_of_anchorMistakes {earlier : List PlacedLeaf}
    (htable : Tabled anchors earlier)
    (hnames : (earlier.map PlacedLeaf.key ++ content.names).Nodup)
    {known : List String} (hknown : ∀ name ∈ known, name ∈ earlier.map PlacedLeaf.key)
    (hclean : Template.anchorMistakes isFirst known content = [])
    {before after : List PlacedLeaf} {leaf : PlacedLeaf}
    (hsplit : registry.placedLeaves frame isFirst anchors view content = before ++ leaf :: after) :
    leaf.KeepsAnchors (earlier ++ before) := by
  induction content generalizing isFirst anchors view earlier known before with
  | nil => simp [placedLeaves] at hsplit
  | cons entry rest ih =>
      obtain ⟨key, slot | item⟩ := entry
      · have hrest : (earlier.map PlacedLeaf.key ++ Entries.names rest).Nodup :=
          hnames.sublist (List.Sublist.append_left (List.sublist_cons_self _ _) _)
        exact ih htable hrest hknown hclean hsplit
      · rw [placedLeaves] at hsplit
        simp only [Template.anchorMistakes, List.append_eq_nil_iff, List.map_eq_nil_iff] at hclean
        obtain ⟨⟨hown, hdrawn⟩, hrest⟩ := hclean
        have hnew : key ∉ earlier.map PlacedLeaf.key := by
          intro hmem
          exact (List.nodup_append.mp hnames).2.2 key hmem key (by simp [Entries.names]) rfl
        cases before with
        | nil =>
            obtain ⟨rfl, -⟩ := List.cons.inj hsplit
            rw [List.append_nil]
            refine Frame.keepsAnchors_placedLeaf htable hnew (fun name hname => ?_)
              fun name hname => ?_
            -- a declared anchor is a mistake unless it names an earlier leaf
            · rw [Option.mem_def.mp hname] at hown
              cases isFirst with
              | true => simp at hown
              | false =>
                  refine ⟨rfl, hknown name ?_⟩
                  by_contra hout
                  simp [hout] at hown
            · have hplaced := List.filter_eq_nil_iff.mp hdrawn name hname
              simp only [decide_eq_true_eq, not_not] at hplaced
              exact List.mem_cons.mpr ((List.mem_cons.mp hplaced).imp_right (hknown name))
        | cons first before =>
            obtain ⟨rfl, hlater⟩ := List.cons.inj hsplit
            rw [← List.singleton_append, ← List.append_assoc]
            refine ih (htable.concat _) ?_ (fun name hname => ?_) hrest hlater
            · simpa [Entries.names, Frame.placedLeaf] using hnames
            · rw [List.map_append, List.mem_append, or_comm]
              exact (List.mem_cons.mp hname).imp (fun heq => by simp [heq, Frame.placedLeaf])
                (hknown name)

/-- The warnings of an expansion are about a first item of its own that declares an anchor, or
about instances that are expanded inside it, which are none of those around them. -/
theorem firstPrevious_mem_expandContent {ident owner previous : String}
    (h : .note (.firstPrevious ident owner previous) ∈
      (registry.expandContent frame isFirst anchors view content).steps) :
    owner ∉ frame.path ∨ owner = frame.owner ∧ isFirst = true ∧ ∃ key item rest,
      content = (key, .leaf item) :: rest ∧ item.previous = some previous := by
  induction frame, isFirst, anchors, view, content using expandContent_induction with
  | nil => simp [expandContent_nil] at h
  | leaf frame isFirst anchors view key item rest ih =>
      rw [expandContent_leaf] at h
      rcases List.mem_append.mp h with hplace | hrest
      · obtain ⟨howner, hfirst, hdeclared⟩ := Frame.eq_of_firstPrevious_mem_place hplace
        exact Or.inr ⟨howner, hfirst, key, item, rest, rfl, hdeclared⟩
      · exact Or.inl ((ih hrest).resolve_right fun hfirst => Bool.false_ne_true hfirst.2.1)
  | slot frame isFirst anchors view key slot rest ihInside ihRest =>
      rw [expandContent_slot] at h
      simp only [List.mem_append] at h
      rcases h with (hchoice | hinside) | hrest
      · exact absurd hchoice (frame.firstPrevious_notMem_choose slot ident owner previous)
      · refine Or.inl ?_
        unfold expandComponent expandTemplate at hinside
        cases hfound : registry.instanceOf? (frame.choose slot).owner with
        | none => simp [hfound] at hinside
        | some template =>
            by_cases hcycle : (frame.choose slot).owner ∈ frame.path
            · simp [hfound, hcycle] at hinside
            · simp only [hfound, hcycle, if_false, List.mem_append] at hinside
              rcases hinside with hopening | hinside
              · exact absurd hopening (Frame.firstPrevious_notMem_opening _ ident owner previous)
              -- what is expanded inside stands below all of the path
              · rcases ihInside template hfound hcycle hinside with hout | ⟨rfl, -⟩
                · exact fun hmem => hout (List.mem_append_left _ hmem)
                · exact hcycle
      · exact Or.inl ((ihRest hrest).resolve_right fun hfirst => Bool.false_ne_true hfirst.2.1)

/-- In an expansion of a template with whose anchors the lint finds no mistake, whatever the
instance name, the overrides and the view it goes into, each leaf of the template is placed
once. Every anchor that a leaf declares, of its own or of an arrow, is kept and is the
identifier under which this expansion has placed the leaf of that name. No first item is
reported to have had an anchor. -/
theorem keepsAnchors_expandTemplate (registry : Registry) {owner : String} {template : Template}
    {chain : List String} (swaps : Entries Override) (view : View)
    (hnames : template.content.names.Nodup)
    (hclean : Template.anchorMistakes true [] template.content = [])
    (hfresh : owner ∉ chain) :
    let expanded := registry.expandTemplate owner template chain swaps view
    let placed := registry.placedLeaves ⟨owner, template, chain, swaps⟩ true [] view
      template.content
    placed.map (fun leaf => (leaf.key, leaf.declared)) = Template.leaves template.content ∧
      (∃ added, expanded.view.content = view.content ++ added ∧
        (placed.map PlacedLeaf.entry).Sublist added) ∧
      (∀ earlier leaf later, placed = earlier ++ leaf :: later → leaf.KeepsAnchors earlier) ∧
      ∀ ident previous, .note (.firstPrevious ident owner previous) ∉ expanded.steps := by
  have hexpand : registry.expandTemplate owner template chain swaps view =
      let frame : Frame := ⟨owner, template, chain, swaps⟩
      let expanded := registry.expandContent frame true [] view template.content
      ⟨expanded.view, frame.opening ++ expanded.steps⟩ := by
    rw [expandTemplate, if_neg hfresh]
  rw [hexpand]
  refine ⟨map_placedLeaves, sublist_placedLeaves, fun earlier leaf later hsplit => ?_,
    fun ident previous h => ?_⟩
  · exact keepsAnchors_of_anchorMistakes (tabled_nil []) (by simpa using hnames) (by simp) hclean
      hsplit
  · rcases List.mem_append.mp h with hopening | hcontent
    · exact absurd hopening (Frame.firstPrevious_notMem_opening _ ident owner previous)
    · rcases firstPrevious_mem_expandContent hcontent with
        hout | ⟨-, -, key, item, rest, hfirst, hdeclared⟩
      · exact hout (List.mem_append_right _ (by simp))
      -- a first item that declares an anchor is a mistake
      · rw [hfirst] at hclean
        simp [Template.anchorMistakes, hdeclared] at hclean

/-- A cell with another cell between its box and its label. -/
def nestedCells : Registry where
  components := [("cell", .informed [("box", .leaf .blank), ("core", .slot ⟨"cell_1", none⟩),
    ("label", .leaf { Item.blank with
      previous := some "box"
      arrow := some (.one ⟨some "label", none, none, [], []⟩) })])]
  details := []
  architectures := [("plan", ⟨[("cell", .default), ("again", .swap "cell" none)]⟩)]

/-- The second time the box of the cell asks for `cell_box` and for `cell_1_box`, which the
two cells of the first time have; the label finds it under its number. -/
theorem keepsAnchors_nestedCells :
    (((Session.start Store.empty).resolveArchitecture nestedCells "plan").view.content.map
        fun entry => (entry.1, entry.2.anchors)) =
      [("cell_box", []), ("cell_1_box", ["cell_box"]),
        ("cell_1_label", ["cell_1_box", "cell_1_label"]),
        ("cell_label", ["cell_box", "cell_label"]), ("cell_2_box", ["cell_label"]),
        ("cell_1_1_box", ["cell_2_box"]),
        ("cell_1_1_label", ["cell_1_1_box", "cell_1_1_label"]),
        ("cell_2_label", ["cell_2_box", "cell_2_label"])] ∧
      ∃ template, nestedCells.instanceOf? "cell" = some template ∧
        template.content.names.Nodup ∧ Template.anchorMistakes true [] template.content = [] ∧
        let view := (nestedCells.expandComponent "cell" [] [] View.empty).view
        let expanded := nestedCells.expandTemplate "cell" template [] [] view
        let placed := nestedCells.placedLeaves ⟨"cell", template, [], []⟩ true [] view
          template.content
        placed.map (fun leaf => (leaf.key, leaf.declared)) = Template.leaves template.content ∧
          (∃ added, expanded.view.content = view.content ++ added ∧
            (placed.map PlacedLeaf.entry).Sublist added) ∧
          (∀ earlier leaf later, placed = earlier ++ leaf :: later → leaf.KeepsAnchors earlier) ∧
          ∀ ident previous, .note (.firstPrevious ident "cell" previous) ∉ expanded.steps := by
  refine ⟨Session.eq_of_resolveArchitectureWithin
    (fun answer => answer.view.content.map fun entry => (entry.1, entry.2.anchors))
    (by decide +kernel), _, rfl, by decide, by decide, ?_⟩
  exact keepsAnchors_expandTemplate nestedCells [] _ (by decide) (by decide) List.not_mem_nil

end Registry

end ArchDiagram

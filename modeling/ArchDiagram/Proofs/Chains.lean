/-
# Chains of expansions

Expansions stand inside each other, and so do the instance names they are made under.
Whatever is expanded, such a chain consists of different names, all of them named by
the registry, the overrides or the request, and a new expansion extends the chain of
an expansion that was begun before (`extends_of_mem_perform`). Details that are asked
for on the way continue the chain they are met in.
-/

import ArchDiagram.Proofs.Steps

namespace ArchDiagram

/-- The instance names of expansions around each other, outermost first: different
names of a pool. A chain that is not empty is the path of an expansion begun before. -/
structure AncestorChain (pool : List String) (begun : List String → Prop)
    (chain : List String) : Prop where
  nodup : chain.Nodup
  mem : ∀ name ∈ chain, name ∈ pool
  begun : chain = [] ∨ begun chain

/-- A path goes on from such a chain by a name that is new to it. -/
def Extends (pool : List String) (begun : List String → Prop) (path : List String) : Prop :=
  ∃ chain name, path = chain ++ [name] ∧ AncestorChain pool begun chain ∧ name ∈ pool ∧
    name ∉ chain

variable {registry : Registry} {pool : List String} {begun : List String → Prop}

theorem AncestorChain.nil : AncestorChain pool begun [] :=
  ⟨List.nodup_nil, by simp, Or.inl rfl⟩

/-- A path that goes on from a chain is a chain once its expansion is begun. -/
theorem Extends.ancestorChain {path : List String} (h : Extends pool begun path)
    (hbegun : begun path) : AncestorChain pool begun path := by
  obtain ⟨chain, name, rfl, hchain, hname, hnew⟩ := h
  refine ⟨?_, fun other hother => ?_, Or.inr hbegun⟩
  · rw [List.nodup_append]
    refine ⟨hchain.nodup, List.nodup_singleton name, ?_⟩
    rintro other hother _ hsingle rfl
    exact hnew (List.mem_singleton.mp hsingle ▸ hother)
  · rcases List.mem_append.mp hother with hold | hlast
    · exact hchain.mem other hold
    · exact List.mem_singleton.mp hlast ▸ hname

/-- A pool has all names that the templates of a registry mention. -/
structure Registry.Covered (registry : Registry) (pool : List String) : Prop where
  slots : ∀ name ∈ registry.slotNames, name ∈ pool
  links : ∀ name ∈ registry.linkNames, name ∈ pool

/-- What an expansion may leave to be done: a path that is begun extends a chain, the
beginning and the end of a view are not its to report, and a view that it asks for is
named by the registry and continues a chain. -/
def Step.Sound (registry : Registry) (pool : List String) (begun : List String → Prop) :
    Step → Prop
  | .note (.expanded path) => Extends pool begun path
  | .note (.viewStarted _) | .note (.viewFinished _) => False
  | .note _ => True
  | .attach name chain swaps =>
      name ∈ registry.linkNames ∧ AncestorChain pool begun chain ∧
        ∀ replacement ∈ Override.replacementsIn swaps, replacement ∈ pool

/-- An expansion inside a chain, of a template of the registry. It may be cut off. -/
structure Frame.Known (registry : Registry) (pool : List String) (begun : List String → Prop)
    (frame : Frame) : Prop where
  template : frame.template ∈ registry.templates
  chain : AncestorChain pool begun frame.chain
  owner : frame.owner ∈ pool
  swaps : ∀ replacement ∈ Override.replacementsIn frame.swaps, replacement ∈ pool

/-- An expansion that is not cut off, so that its path extends the chain. -/
structure Frame.Sound (registry : Registry) (pool : List String) (begun : List String → Prop)
    (frame : Frame) : Prop extends Frame.Known registry pool begun frame where
  fresh : frame.owner ∉ frame.chain

/-- The view that a sound step asks for is expanded inside the chain of the step. -/
theorem Step.Sound.known (hpool : registry.Covered pool) {name : String} {chain : List String}
    {swaps : Entries Override} (h : (Step.attach name chain swaps).Sound registry pool begun)
    {template : Template} (hfound : registry.detailOf? name = some template) :
    Frame.Known registry pool begun ⟨name, template, chain, swaps⟩ :=
  ⟨Registry.detailOf?_mem hfound, h.2.1, hpool.links name h.1, h.2.2⟩

namespace Frame

variable {frame : Frame}

theorem Sound.extends (h : frame.Sound registry pool begun) : Extends pool begun frame.path :=
  ⟨frame.chain, frame.owner, rfl, h.chain, h.owner, h.fresh⟩

/-- Asking for a view that the template names is sound. -/
theorem Sound.attach (h : frame.Sound registry pool begun) {name : String}
    (hname : name ∈ frame.template.links) :
    (Step.attach name frame.chain frame.swaps).Sound registry pool begun :=
  ⟨Registry.linkNames_subset h.template hname, h.chain, h.swaps⟩

theorem Sound.opening (h : frame.Sound registry pool begun) :
    ∀ step ∈ frame.opening, step.Sound registry pool begun := by
  intro step hstep
  rcases List.mem_cons.mp hstep with rfl | hstep
  · exact h.extends
  · obtain ⟨detail, hdetail, rfl⟩ := List.mem_map.mp hstep
    exact h.attach (List.mem_append_left _ hdetail)

theorem sound_choose (frame : Frame) (slot : Slot) :
    ∀ step ∈ (frame.choose slot).steps, step.Sound registry pool begun := by
  intro step hstep
  obtain ⟨slotClass, rfl⟩ := eq_note_of_mem_choose hstep
  trivial

theorem Sound.place (h : frame.Sound registry pool begun) (isFirst : Bool)
    (anchors : Entries String) {key : String} {item : Item} (view : View)
    (hitem : (key, Content.leaf item) ∈ frame.template.content) :
    ∀ step ∈ (frame.place isFirst anchors key item view).steps, step.Sound registry pool begun := by
  intro step hstep
  rcases List.mem_append.mp hstep with hreport | hattach
  · split at hreport
    · obtain rfl := List.mem_singleton.mp hreport
      trivial
    · simp at hreport
  · obtain ⟨name, hname, rfl⟩ := List.mem_map.mp hattach
    refine h.attach (List.mem_append.mpr ((mem_links_settle hname).imp_right fun hlink => ?_))
    exact List.mem_flatMap.mpr ⟨_, hitem, hlink⟩

/-- What is put in a slot of a sound expansion is expanded inside its path, once the
expansion is begun. -/
theorem Sound.known_inner (hpool : registry.Covered pool) (h : frame.Sound registry pool begun)
    (hbegun : begun frame.path) {key : String} {slot : Slot}
    (hslot : (key, Content.slot slot) ∈ frame.template.content) {template : Template}
    (hfound : registry.instanceOf? (frame.choose slot).owner = some template) :
    Frame.Known registry pool begun
      ⟨(frame.choose slot).owner, template, frame.path, (frame.choose slot).swaps⟩ where
  template := Registry.instanceOf?_mem hfound
  chain := h.extends.ancestorChain hbegun
  owner := by
    have hcomponent : slot.component ∈ registry.slotNames :=
      Registry.slotNames_subset h.template (List.mem_filterMap.mpr ⟨_, hslot, rfl⟩)
    rcases frame.choose_owner_mem slot with howner | howner
    · exact howner ▸ hpool.slots _ hcomponent
    · exact h.swaps _ howner
  swaps _ hname := h.swaps _ (frame.replacementsIn_choose_subset slot hname)

end Frame

namespace Registry

/-- A sound expansion leaves only sound steps. -/
theorem sound_expandContent (hpool : registry.Covered pool) {frame : Frame} {isFirst : Bool}
    {anchors : Entries String} {view : View} {content : Entries Content}
    (h : frame.Sound registry pool begun) (hbegun : begun frame.path)
    (hcontent : ∀ entry ∈ content, entry ∈ frame.template.content)
    (hsteps : ∀ path, Step.note (.expanded path) ∈
      (registry.expandContent frame isFirst anchors view content).steps → begun path) :
    ∀ step ∈ (registry.expandContent frame isFirst anchors view content).steps,
      step.Sound registry pool begun := by
  induction frame, isFirst, anchors, view, content using expandContent_induction with
  | nil => simp [expandContent_nil]
  | leaf frame isFirst anchors view key item rest ih =>
      rw [expandContent_leaf] at hsteps ⊢
      intro step hstep
      rcases List.mem_append.mp hstep with hplace | hrest
      · exact h.place isFirst anchors view (hcontent _ List.mem_cons_self) step hplace
      · exact ih h hbegun (fun entry hentry => hcontent entry (List.mem_cons_of_mem _ hentry))
          (fun path hpath => hsteps path (List.mem_append_right _ hpath)) step hrest
  | slot frame isFirst anchors view key slot rest ihInside ihRest =>
      rw [expandContent_slot] at hsteps ⊢
      intro step hstep
      simp only [List.mem_append] at hsteps hstep
      rcases hstep with (hchoice | hinside) | hrest
      · exact frame.sound_choose slot step hchoice
      · unfold expandComponent expandTemplate at hinside hsteps
        cases hfound : registry.instanceOf? (frame.choose slot).owner with
        | none =>
            simp only [hfound, List.mem_singleton] at hinside
            subst hinside
            trivial
        | some template =>
            simp only [hfound] at hinside hsteps
            -- a component inside itself is cut off, and its expansion is not begun
            by_cases hcycle : (frame.choose slot).owner ∈ frame.path
            · simp only [hcycle, if_true, List.mem_singleton] at hinside
              subst hinside
              trivial
            · simp only [hcycle, if_false, List.mem_append] at hinside hsteps
              have hinner : Frame.Sound registry pool begun
                  ⟨(frame.choose slot).owner, template, frame.path, (frame.choose slot).swaps⟩ :=
                ⟨h.known_inner hpool hbegun (hcontent _ List.mem_cons_self) hfound, hcycle⟩
              rcases hinside with hopening | hinside
              · exact hinner.opening step hopening
              · refine ihInside template hfound hcycle hinner ?_ (fun _ => id) ?_ step hinside
                · exact hsteps _ (Or.inl (Or.inr (Or.inl List.mem_cons_self)))
                · exact fun path hpath => hsteps path (Or.inl (Or.inr (Or.inr hpath)))
      · exact ihRest h hbegun (fun entry hentry => hcontent entry (List.mem_cons_of_mem _ hentry))
          (fun path hpath => hsteps path (Or.inr hpath)) step hrest

theorem sound_expandTemplate (hpool : registry.Covered pool) {owner : String}
    {template : Template} {chain : List String} {swaps : Entries Override} {view : View}
    (h : Frame.Known registry pool begun ⟨owner, template, chain, swaps⟩)
    (hsteps : ∀ path, Step.note (.expanded path) ∈
      (registry.expandTemplate owner template chain swaps view).steps → begun path) :
    ∀ step ∈ (registry.expandTemplate owner template chain swaps view).steps,
      step.Sound registry pool begun := by
  unfold expandTemplate at hsteps ⊢
  by_cases hcycle : owner ∈ chain
  · simp [hcycle, Step.Sound]
  · simp only [hcycle, if_false, List.mem_append] at hsteps ⊢
    have hframe : Frame.Sound registry pool begun ⟨owner, template, chain, swaps⟩ := ⟨h, hcycle⟩
    rintro step (hopening | hstep)
    · exact hframe.opening step hopening
    · refine sound_expandContent hpool hframe ?_ (fun _ => id) ?_ step hstep
      · exact hsteps _ (Or.inl List.mem_cons_self)
      · exact fun path hpath => hsteps path (Or.inr hpath)

variable {properties : Entries Property} {parent : String} {building : List String} {store : Store}

/-- Carrying out steps reports everything they have to report. -/
theorem mem_events_perform_of_note {steps : List Step} {event : Event}
    (h : Step.note event ∈ steps) :
    event ∈ (registry.perform properties parent building store steps).events := by
  induction parent, building, store, steps using perform_induction registry properties with
  | nil => simp at h
  | note parent building store other rest ih =>
      rw [perform_note]
      rcases List.mem_cons.mp h with heq | h
      · obtain rfl : event = other := by simpa using heq
        exact List.mem_cons_self
      · exact List.mem_cons_of_mem _ (ih h)
  | held parent building store name chain swaps rest hheld ih =>
      rw [perform_held hheld]
      exact ih (by simpa using h)
  | missing parent building store name chain swaps rest hheld hmissing ih =>
      rw [perform_missing hheld hmissing]
      exact List.mem_cons_of_mem _ (ih (by simpa using h))
  | build parent building store name chain swaps rest template hheld hfound _ ih =>
      rw [perform_build hheld hfound]
      exact List.mem_append_right _ (List.mem_cons_of_mem _ (ih (by simpa using h)))

/-- Carrying out sound steps, every expansion that is begun extends the chain of one
that is begun before. -/
theorem extends_of_mem_perform (hpool : registry.Covered pool) {steps : List Step}
    (hsteps : ∀ step ∈ steps, step.Sound registry pool begun)
    (hbegun : ∀ path, Event.expanded path ∈
      (registry.perform properties parent building store steps).events → begun path) :
    ∀ path, Event.expanded path ∈
      (registry.perform properties parent building store steps).events →
        Extends pool begun path := by
  induction parent, building, store, steps using perform_induction registry properties with
  | nil => simp [perform_nil]
  | note parent building store event rest ih =>
      rw [perform_note] at hbegun ⊢
      intro path hpath
      rcases List.mem_cons.mp hpath with rfl | hpath
      · exact hsteps _ List.mem_cons_self
      · exact ih (fun step hstep => hsteps step (List.mem_cons_of_mem _ hstep))
          (fun path hpath => hbegun path (List.mem_cons_of_mem _ hpath)) path hpath
  | held parent building store name chain swaps rest hheld ih =>
      rw [perform_held hheld] at hbegun ⊢
      exact ih (fun step hstep => hsteps step (List.mem_cons_of_mem _ hstep)) hbegun
  | missing parent building store name chain swaps rest hheld hmissing ih =>
      rw [perform_missing hheld hmissing] at hbegun ⊢
      intro path hpath
      refine ih (fun step hstep => hsteps step (List.mem_cons_of_mem _ hstep))
        (fun path hpath => hbegun path (List.mem_cons_of_mem _ hpath)) path ?_
      simpa using hpath
  | build parent building store name chain swaps rest template hheld hfound ihInner ihRest =>
      rw [perform_build hheld hfound] at hbegun ⊢
      intro path hpath
      simp only [List.cons_append, List.mem_cons, List.mem_append, reduceCtorEq, false_or]
        at hbegun hpath
      rcases hpath with hinner | hrest
      · refine ihInner ?_ (fun path hpath => hbegun path (Or.inl hpath)) path hinner
        exact sound_expandTemplate hpool ((hsteps _ List.mem_cons_self).known hpool hfound)
          fun path hpath => hbegun path (Or.inl (mem_events_perform_of_note hpath))
      · exact ihRest (fun step hstep => hsteps step (List.mem_cons_of_mem _ hstep))
          (fun path hpath => hbegun path (Or.inr hpath)) path hrest

end Registry

end ArchDiagram

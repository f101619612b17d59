/-
# Components that contain each other

The lint reports cycles of exactly those components that contain themselves, directly or
through others (`exists_componentCycle_iff`). Resolution compares instance names instead. If a
component leads to such a cycle, its slots come to no end, so an instance name is repeated
sooner or later, whatever numbers the names have (`exists_cycle_resolveArchitecture`). The
converse takes more than the references between components: where these have no cycle, an
instance can still stand inside itself because of a replacement, of a link to a detail, or of
a detail that has the name of a component (`exists_detour_of_cycle`).
-/

import ArchDiagram.Lint
import ArchDiagram.Proofs.Entries
import ArchDiagram.Proofs.Graph
import ArchDiagram.Proofs.Repetition

namespace ArchDiagram

open Relation

/-! ## What the lint reports -/

namespace Registry

variable {registry : Registry} {outer inner name : String}

/-- A component places an instance of another one in a slot of its own. -/
structure Contains (registry : Registry) (outer inner : String) : Prop where
  refers : ∃ template, registry.component? outer = some template ∧
    inner ∈ (Template.slotNames template.content).map Ident.templateKey
  found : (registry.component? inner).isSome

/-- The architectures of a registry do not matter to what its components contain. -/
theorem contains_insertArchitecture (registry : Registry) (name : String)
    (architecture : Architecture) :
    (registry.insertArchitecture name architecture).Contains = registry.Contains := by
  funext outer inner
  exact propext ⟨fun h => ⟨h.refers, h.found⟩, fun h => ⟨h.refers, h.found⟩⟩

theorem nodes_containment (registry : Registry) :
    registry.containment.nodes = registry.components.names := by
  simp [Graph.nodes, containment, Entries.names, Function.comp_def]

/-- The components that a template places, as the lint lists them. -/
def placedIn (registry : Registry) (template : Template) : List String :=
  (((Template.slotNames template.content).map Ident.templateKey).filter
    registry.components.has).eraseDups.reverse

theorem lookup_containment (registry : Registry) (name : String) :
    registry.containment.lookup name = (registry.component? name).map registry.placedIn :=
  Entries.lookup_map registry.placedIn registry.components name

theorem mem_successors_containment_iff :
    inner ∈ registry.containment.successors outer ↔ registry.Contains outer inner := by
  rw [Graph.successors, lookup_containment]
  constructor
  · intro h
    cases htemplate : registry.component? outer with
    | none => simp [htemplate] at h
    | some template =>
        rw [htemplate, Option.map_some, Option.getD_some, placedIn, List.mem_reverse,
          List.mem_eraseDups, List.mem_filter] at h
        exact ⟨⟨template, htemplate, h.1⟩, h.2⟩
  · rintro ⟨⟨template, htemplate, hrefers⟩, hfound⟩
    rw [htemplate, Option.map_some, Option.getD_some, placedIn, List.mem_reverse,
      List.mem_eraseDups, List.mem_filter]
    exact ⟨hrefers, hfound⟩

/-- The graph of the lint has an edge for each component that is placed in another one. -/
theorem edge_containment_iff :
    registry.containment.Edge outer inner ↔ registry.Contains outer inner := by
  rw [Graph.Edge, mem_successors_containment_iff, nodes_containment]
  exact and_iff_left_of_imp fun h => Entries.has_iff_mem_names.mp h.found

theorem edge_containment (registry : Registry) : registry.containment.Edge = registry.Contains := by
  funext outer inner
  exact propext edge_containment_iff

theorem cycleFinding_eq {members : List String} (h : members ≠ []) :
    ∃ finding group, cycleFinding members = some finding ∧
      finding.mistake = .componentCycle group ∧ ∀ name, name ∈ group ↔ name ∈ members := by
  have hsorted (name : String) : name ∈ members.mergeSort (fun a b => !decide (b < a)) ↔
      name ∈ members := List.mem_mergeSort
  unfold cycleFinding
  cases hgroup : members.mergeSort fun a b => !decide (b < a) with
  | nil =>
      obtain ⟨name, hname⟩ := List.exists_mem_of_ne_nil members h
      rw [← hsorted, hgroup] at hname
      simp at hname
  | cons first rest => exact ⟨_, _, rfl, rfl, fun name => by rw [← hgroup, hsorted]⟩

theorem not_componentCycle_of_mem_anchorMistakes {isFirst : Bool} {earlier : List String}
    {content : Entries Content} {mistake : Mistake} {group : List String}
    (h : mistake ∈ Template.anchorMistakes isFirst earlier content) :
    mistake ≠ .componentCycle group := by
  induction content generalizing isFirst earlier with
  | nil => simp [Template.anchorMistakes] at h
  | cons entry rest ih =>
      match entry with
      | (key, .slot slot) =>
          rw [Template.anchorMistakes] at h
          exact ih h
      | (key, .leaf item) =>
          simp only [Template.anchorMistakes, List.mem_append] at h
          rcases h with (hown | hdrawn) | hrest
          · rintro rfl
            split at hown
            · simp at hown
            · simp at hown
            · split at hown <;> simp at hown
          · obtain ⟨previous, -, rfl⟩ := List.mem_map.mp hdrawn
            exact nofun
          · exact ih hrest

theorem not_componentCycle_of_mem_missingComponents {names : List String} {mistake : Mistake}
    {group : List String} (h : mistake ∈ registry.missingComponents names) :
    mistake ≠ .componentCycle group := by
  obtain ⟨name, -, rfl⟩ := List.mem_map.mp h
  exact nofun

theorem not_componentCycle_of_mem_templateMistakes {template : Template} {mistake : Mistake}
    {group : List String} (h : mistake ∈ registry.templateMistakes template) :
    mistake ≠ .componentCycle group := by
  rcases List.mem_append.mp h with hmissing | hanchor
  · rcases List.mem_append.mp hmissing with hcomponent | hdetail
    · exact not_componentCycle_of_mem_missingComponents hcomponent
    · obtain ⟨name, -, rfl⟩ := List.mem_map.mp hdetail
      exact nofun
  · exact not_componentCycle_of_mem_anchorMistakes hanchor

/-- Only the last findings are about cycles. -/
theorem exists_members_of_componentCycle {finding : Finding} (hfinding : finding ∈ registry.lint)
    {group : List String} (hgroup : finding.mistake = .componentCycle group) :
    ∃ members ∈ registry.containment.cycles, cycleFinding members = some finding := by
  unfold lint at hfinding
  rcases List.mem_append.mp hfinding with hother | hcycle
  · rcases List.mem_append.mp hother with htemplate | harchitecture
    · obtain ⟨entry, -, hentry⟩ := List.mem_flatMap.mp htemplate
      obtain ⟨mistake, hmistake, rfl⟩ := List.mem_map.mp hentry
      exact absurd hgroup (not_componentCycle_of_mem_templateMistakes hmistake)
    · obtain ⟨entry, -, hentry⟩ := List.mem_flatMap.mp harchitecture
      obtain ⟨mistake, hmistake, rfl⟩ := List.mem_map.mp hentry
      exact absurd hgroup (not_componentCycle_of_mem_missingComponents hmistake)
  · exact List.mem_filterMap.mp hcycle

theorem ne_nil_of_cycleFinding {members : List String} {finding : Finding}
    (h : cycleFinding members = some finding) : members ≠ [] := by
  rintro rfl
  simp [cycleFinding] at h

/-- The cycles that the lint reports have the components that contain themselves. -/
theorem exists_componentCycle_iff :
    (∃ finding ∈ registry.lint, ∃ group, finding.mistake = .componentCycle group ∧ name ∈ group) ↔
      TransGen registry.Contains name name := by
  rw [← edge_containment, ← Graph.exists_mem_cycles_iff]
  constructor
  · rintro ⟨finding, hfinding, group, hgroup, hname⟩
    obtain ⟨members, hmembers, heq⟩ := exists_members_of_componentCycle hfinding hgroup
    obtain ⟨other, listed, hother, hlisted, hiff⟩ := cycleFinding_eq (ne_nil_of_cycleFinding heq)
    obtain rfl : finding = other := Option.some.inj (heq.symm.trans hother)
    obtain rfl : group = listed := by simpa [hgroup] using hlisted
    exact ⟨members, hmembers, (hiff name).mp hname⟩
  · rintro ⟨members, hmembers, hname⟩
    obtain ⟨finding, group, hfinding, hgroup, hiff⟩ := cycleFinding_eq (List.ne_nil_of_mem hname)
    refine ⟨finding, ?_, group, hgroup, (hiff name).mpr hname⟩
    exact List.mem_append_right _ (List.mem_filterMap.mpr ⟨members, hmembers, hfinding⟩)

end Registry

/-! ## Cycles that are reported are met -/

/-- A component leads to one that contains itself. -/
def Registry.Endless (registry : Registry) (name : String) : Prop :=
  ∃ member, ReflTransGen registry.Contains name member ∧ TransGen registry.Contains member member

theorem Registry.Endless.exists_contains {registry : Registry} {name : String}
    (h : registry.Endless name) : ∃ next, registry.Contains name next ∧ registry.Endless next := by
  obtain ⟨member, hreach, hcycle⟩ := h
  obtain ⟨next, hcontains, hafter⟩ := TransGen.head'_iff.mp (hcycle.trans_right hreach)
  exact ⟨next, hcontains, member, hafter, hcycle⟩

namespace Frame

variable {registry : Registry} {frame inner : Frame}

theorem choose_of_swaps_eq_nil (h : frame.swaps = []) (slot : Slot) :
    frame.choose slot = ⟨slot.component, [], []⟩ := by
  unfold choose
  cases slot.slotClass <;> simp [h]

/-- The expansion of the component that its name stands for. -/
def IsInstance (registry : Registry) (frame : Frame) : Prop :=
  registry.instanceOf? frame.owner = some frame.template

/-- The expansion of a component as it is, without anything put in its slots. -/
structure Plain (registry : Registry) (frame : Frame) : Prop where
  found : frame.IsInstance registry
  swaps : frame.swaps = []

/-- Whatever a component contains fills a slot when the component is expanded as it is. -/
theorem Plain.exists_fills (h : frame.Plain registry) {next : String}
    (hcontains : registry.Contains (Ident.templateKey frame.owner) next) :
    ∃ inner, frame.Fills registry inner ∧ inner.Plain registry ∧
      Ident.templateKey inner.owner = next ∧ inner.owner ∈ registry.slotNames := by
  obtain ⟨⟨template, htemplate, hrefers⟩, hnext⟩ := hcontains
  obtain rfl : frame.template = template := Option.some.inj (h.found.symm.trans htemplate)
  obtain ⟨name, hname, rfl⟩ := List.mem_map.mp hrefers
  obtain ⟨inside, hinside⟩ := Option.isSome_iff_exists.mp hnext
  obtain ⟨key, slot, hslot, rfl⟩ := Template.mem_slotNames_iff.mp hname
  have hchoose := choose_of_swaps_eq_nil h.swaps slot
  have hfound : registry.instanceOf? (frame.choose slot).owner = some inside := by
    rw [hchoose]
    exact hinside
  refine ⟨_, .slot hslot hfound, ⟨hfound, by rw [hchoose]⟩, by rw [hchoose], ?_⟩
  rw [hchoose]
  exact Registry.slotNames_subset (Registry.instanceOf?_mem h.found) hname

/-- If the references do not come to an end, a name is repeated along the slots. Until then
each expansion takes another name out of those that the slots mention. -/
theorem Plain.exists_repetition (h : frame.Plain registry) {pool : List String}
    (hpool : ∀ name ∈ registry.slotNames, name ∈ pool)
    (howner : frame.owner ∈ pool) (hchain : frame.chain.Nodup)
    (hendless : registry.Endless (Ident.templateKey frame.owner)) :
    ∃ inner, ReflTransGen (Fills registry) frame inner ∧ inner.chain.Nodup ∧
      inner.owner ∈ inner.chain := by
  induction hleft : Supply.left frame.chain pool using Nat.strong_induction_on
    generalizing frame with
  | _ left ih =>
      by_cases hcycle : frame.owner ∈ frame.chain
      · exact ⟨frame, .refl, hchain, hcycle⟩
      · obtain ⟨next, hcontains, honward⟩ := hendless.exists_contains
        obtain ⟨inner, hfills, hplain, rfl, hinner⟩ := h.exists_fills hcontains
        have hless : Supply.left inner.chain pool < left := by
          rw [← hleft, hfills.chain_eq]
          refine Supply.left_lt howner hcycle fun other hother hnew => ?_
          simp only [path, List.mem_append, List.mem_singleton, not_or] at hnew
          exact ⟨hother, hnew.1, hnew.2⟩
        have hinnerChain : inner.chain.Nodup :=
          LeadsTo.nodup_chain ⟨hcycle, Or.inl hfills⟩ hchain
        obtain ⟨last, hlast, hnodup, hrepeats⟩ :=
          ih _ hless hplain (hpool _ hinner) hinnerChain honward rfl
        exact ⟨last, .head hfills hlast, hnodup, hrepeats⟩

end Frame

namespace Session

/-- No cycle is reported without reason: if a component leads to one of those that the lint
reports in a cycle, then a diagram with an instance of it alone, resolved in any session,
comes to an instance inside itself. The instance may have the plain name of the component
(`Ident.templateKey_eq_self`). -/
theorem exists_cycle_resolveArchitecture {registry : Registry} {finding : Finding}
    (hfinding : finding ∈ registry.lint) {group : List String}
    (hgroup : finding.mistake = .componentCycle group) {member : String} (hmember : member ∈ group)
    {instanceName : String}
    (hreach : ReflTransGen registry.Contains (Ident.templateKey instanceName) member)
    (session : Session) (name : String) :
    ∃ owner, .cycle owner ∈
      (session.resolveArchitecture
        (registry.insertArchitecture name ⟨[(instanceName, .default)]⟩) name).events := by
  have hcycle : TransGen registry.Contains member member :=
    Registry.exists_componentCycle_iff.mp ⟨finding, hfinding, group, hgroup, hmember⟩
  set extended := registry.insertArchitecture name ⟨[(instanceName, .default)]⟩
  have hsame : extended.Contains = registry.Contains :=
    registry.contains_insertArchitecture name _
  rw [← hsame] at hreach hcycle
  have hendless : extended.Endless (Ident.templateKey instanceName) := ⟨member, hreach, hcycle⟩
  have hfound : extended.architecture? name = some ⟨[(instanceName, .default)]⟩ :=
    Entries.lookup_put_self _ _ _
  obtain ⟨next, ⟨⟨template, htemplate, -⟩, -⟩, -⟩ := hendless.exists_contains
  have hplain : Frame.Plain extended ⟨instanceName, template, [], []⟩ := ⟨htemplate, rfl⟩
  obtain ⟨inner, hfills, hnodup, hrepeats⟩ := hplain.exists_repetition
    (fun _ => List.mem_cons_of_mem instanceName) List.mem_cons_self List.nodup_nil hendless
  have hfollows := Registry.followsSlots_expandEntries hfound View.empty
  have hstep := (hfollows.cycle inner.owner).mpr
    ⟨_, inner, .entry List.mem_cons_self rfl htemplate, hfills, hnodup, rfl, hrepeats⟩
  refine ⟨inner.owner, ?_⟩
  simp only [resolveArchitecture, hfound, List.cons_append, List.mem_cons, List.mem_append,
    reduceCtorEq, false_or, List.not_mem_nil, or_false]
  exact Registry.mem_events_perform_of_note hstep

/-- Two components that place each other under numbered names, and one that leads to them. -/
def Registry.entangled : Registry where
  components := [
    ("hall", .informed [("box", .leaf .blank), ("side", .slot ⟨"left_2", none⟩)]),
    ("left", .informed [("box", .leaf .blank), ("across", .slot ⟨"right_1", none⟩)]),
    ("right", .informed [("box", .leaf .blank), ("back", .slot ⟨"left", some "back"⟩)])]
  details := []
  architectures := []

/-- The cycle is met from outside as well. -/
theorem exists_cycle_entangled :
    Finding.mk "left" (.componentCycle ["left", "right"]) ∈ Registry.entangled.lint ∧
      ReflTransGen Registry.entangled.Contains (Ident.templateKey "hall") "left" ∧
      ∃ owner, .cycle owner ∈
        ((Session.mk ⟨[("left", View.empty)], []⟩ []).resolveArchitecture
          (Registry.entangled.insertArchitecture "plan" ⟨[("hall", .default)]⟩) "plan").events := by
  have hcycles : Registry.entangled.containment.cycles = [["left", "right"]] :=
    Graph.cycles_eq_of_cyclesWithin 20 (by decide +kernel)
  have hfinding : Registry.cycleFinding ["left", "right"] =
      some ⟨"left", .componentCycle ["left", "right"]⟩ := by cbv
  have hfindings : Registry.entangled.lint =
      [⟨"left", .componentCycle ["left", "right"]⟩] := by
    rw [Registry.lint, hcycles, List.filterMap_cons_some hfinding]
    decide +kernel
  have hlint : Finding.mk "left" (.componentCycle ["left", "right"]) ∈
      Registry.entangled.lint := by simp [hfindings]
  have hplaces : Registry.entangled.Contains (Ident.templateKey "hall") "left" :=
    ⟨⟨_, rfl, by decide +kernel⟩, by decide +kernel⟩
  exact ⟨hlint, .single hplaces,
    exists_cycle_resolveArchitecture hlint rfl List.mem_cons_self (.single hplaces) _ "plan"⟩

end Session

/-! ## Cycles that are met without being reported -/

namespace Frame

variable {registry : Registry} {start outer inner : Frame}

/-- Expansions come from `outer` to `inner` by other means than the references of the template:
`inner` is a detail that is linked, or an override puts it in a slot of a template that places
no instance of that component itself. -/
structure Detours (registry : Registry) (outer inner : Frame) : Prop where
  leads : outer.LeadsTo registry inner
  unnamed : outer.Links registry inner ∨
    inner.owner ∈ Override.replacementsIn outer.swaps ∧
      Ident.templateKey inner.owner ∉
        (Template.slotNames outer.template.content).map Ident.templateKey

/-- Expansions that follow each other either follow a reference between components or make a
detour. -/
theorem LeadsTo.contains_or_detours (h : outer.LeadsTo registry inner)
    (houter : outer.IsInstance registry) :
    inner.IsInstance registry ∧
        registry.Contains (Ident.templateKey outer.owner) (Ident.templateKey inner.owner) ∨
      outer.Detours registry inner := by
  rcases h.next with hfills | hlinks
  · obtain @⟨key, slot, template, hslot, hfound⟩ := hfills
    by_cases hnamed : Ident.templateKey (outer.choose slot).owner ∈
        (Template.slotNames outer.template.content).map Ident.templateKey
    · exact Or.inl ⟨hfound, ⟨_, houter, hnamed⟩, Option.isSome_iff_exists.mpr ⟨_, hfound⟩⟩
    · -- the component that a slot names is named by the template
      have howner : (outer.choose slot).owner ≠ slot.component := by
        intro howner
        apply hnamed
        rw [howner]
        exact List.mem_map_of_mem (Template.mem_slotNames_iff.mpr ⟨key, slot, hslot, rfl⟩)
      exact Or.inr ⟨h, Or.inr ⟨(outer.choose_owner_mem slot).resolve_left howner, hnamed⟩⟩
  · exact Or.inr ⟨h, Or.inl hlinks⟩

/-- A run of expansions follows references between components, or makes a detour somewhere. -/
theorem contains_or_detours_of_transGen (hstart : start.IsInstance registry)
    (h : TransGen (LeadsTo registry) start inner) :
    inner.IsInstance registry ∧
        TransGen registry.Contains (Ident.templateKey start.owner)
          (Ident.templateKey inner.owner) ∨
      ∃ before after, ReflTransGen (LeadsTo registry) start before ∧
        before.Detours registry after ∧ ReflTransGen (LeadsTo registry) after inner := by
  induction h with
  | single hleads =>
      refine (hleads.contains_or_detours hstart).imp (And.imp_right .single) fun hdetours => ?_
      exact ⟨start, _, .refl, hdetours, .refl⟩
  | tail hreach hleads ih =>
      rcases ih with ⟨hmiddle, hcontains⟩ | ⟨before, after, hbefore, hdetours, hafter⟩
      · refine (hleads.contains_or_detours hmiddle).imp (And.imp_right hcontains.tail)
          fun hdetours => ?_
        exact ⟨_, _, hreach.to_reflTransGen, hdetours, .refl⟩
      · exact Or.inr ⟨before, after, hbefore, hdetours, hafter.tail hleads⟩

/-- The expansions that one leads to: what fills its slots, and the details that it links. -/
def successors (registry : Registry) (frame : Frame) : List Frame :=
  if frame.owner ∈ frame.chain then []
  else
    (frame.template.content.filterMap fun entry =>
      match entry.2 with
      | .slot slot =>
          (registry.instanceOf? (frame.choose slot).owner).map fun template =>
            ⟨(frame.choose slot).owner, template, frame.path, (frame.choose slot).swaps⟩
      | .leaf _ => none) ++
    frame.template.links.filterMap fun name =>
      (registry.detailOf? name).map fun template => ⟨name, template, frame.chain, frame.swaps⟩

theorem LeadsTo.mem_successors (h : outer.LeadsTo registry inner) :
    inner ∈ outer.successors registry := by
  rw [successors, if_neg h.fresh, List.mem_append]
  rcases h.next with hfills | hlinks
  · obtain ⟨hslot, hfound⟩ := hfills
    exact Or.inl (List.mem_filterMap.mpr ⟨_, hslot, by simp [hfound]⟩)
  · obtain ⟨hname, hfound⟩ := hlinks
    exact Or.inr (List.mem_filterMap.mpr ⟨_, hname, by simp [hfound]⟩)

end Frame

namespace Request

variable {registry : Registry} {request : Request} {frame : Frame}

/-- Each name in a chain is that of an expansion around, which a request comes to as well. -/
theorem Meets.exists_of_mem_chain (h : request.Meets registry frame) {owner : String}
    (howner : owner ∈ frame.chain) :
    ∃ earlier, request.Meets registry earlier ∧
      TransGen (Frame.LeadsTo registry) earlier frame ∧ earlier.owner = owner ∧
      earlier.path <+: frame.chain := by
  obtain ⟨start, hstart, hreach⟩ := h
  induction hreach with
  | refl => simp [hstart.chain_eq] at howner
  | @tail outer inner hreach hleads ih =>
      -- an expansion around `outer` is one around `inner`
      have hkeep (hmem : owner ∈ outer.chain) (houter : outer.chain <+: inner.chain) :
          ∃ earlier, request.Meets registry earlier ∧
            TransGen (Frame.LeadsTo registry) earlier inner ∧ earlier.owner = owner ∧
            earlier.path <+: inner.chain := by
        obtain ⟨earlier, hearlier, hafter, heq, hpath⟩ := ih hmem
        exact ⟨earlier, hearlier, hafter.tail hleads, heq, hpath.trans houter⟩
      rcases hleads.next with hfills | hlinks
      · have hchain := hfills.chain_eq
        rw [hchain, Frame.path, List.mem_append, List.mem_singleton] at howner
        rcases howner with hmem | rfl
        · exact hkeep hmem ⟨_, hchain.symm⟩
        · exact ⟨outer, ⟨start, hstart, hreach⟩, .single hleads, rfl, hchain ▸ List.prefix_rfl⟩
      · have hchain := hlinks.chain_eq
        rw [hchain] at howner hkeep ⊢
        exact hkeep howner List.prefix_rfl

/-- What a request expands is the component or the detail of its name. -/
theorem Meets.isInstance_or_detail (h : request.Meets registry frame) :
    frame.IsInstance registry ∨ registry.detailOf? frame.owner = some frame.template := by
  obtain ⟨start, hstart, hreach⟩ := h
  cases hreach with
  | refl =>
      cases hstart with
      | entry hrequest hfound hentry =>
          obtain ⟨-, -, hinstance⟩ := hentry
          exact Or.inl hinstance
      | detail hfound => exact Or.inr hfound
      | view harchitecture hfound => exact Or.inr hfound
  | tail _ hleads =>
      rcases hleads.next with hfills | hlinks
      · exact Or.inl hfills.instanceOf?_eq
      · exact Or.inr hlinks.detailOf?_eq

/-- A request meets no expansions but those of a list that has the ones it starts from and all
that these lead to. -/
theorem mem_of_meets {frames : List Frame}
    (hstarts : ∀ start, request.Starts registry start → start ∈ frames)
    (hclosed : ∀ outer ∈ frames, ∀ inner ∈ outer.successors registry, inner ∈ frames)
    (h : request.Meets registry frame) : frame ∈ frames := by
  obtain ⟨start, hstart, hreach⟩ := h
  induction hreach with
  | refl => exact hstarts start hstart
  | tail _ hleads ih => exact hclosed _ ih _ hleads.mem_successors

end Request

namespace Session

variable {registry : Registry}

/-- If the lint reports no cycle, then an instance that is met inside itself is there for a
reason that the lint does not look at: between its two expansions a detail is linked or an
override puts something new in a slot, or the first of them is that of a detail which is not
the component of that name. -/
theorem exists_detour_of_cycle
    (hlint : ∀ finding ∈ registry.lint, finding.rule ≠ "component-cycle") (session : Session)
    {requests : List Request} {owner : String}
    (h : .cycle owner ∈ (session.serveAll registry requests).events) :
    ∃ request ∈ requests, ∃ earlier cut : Frame, request.Meets registry earlier ∧
      TransGen (Frame.LeadsTo registry) earlier cut ∧
      earlier.owner = owner ∧ cut.owner = owner ∧ earlier.path <+: cut.chain ∧
      ((∃ before after, ReflTransGen (Frame.LeadsTo registry) earlier before ∧
          before.Detours registry after ∧ ReflTransGen (Frame.LeadsTo registry) after cut) ∨
        registry.detailOf? owner = some earlier.template ∧
          registry.instanceOf? owner ≠ some earlier.template) := by
  obtain ⟨request, hrequest, before, hcycle⟩ := exists_of_mem_events_serveAll h
  rcases before.arises_or_missing_serve hcycle with harises | ⟨name, hmissing | hmissing⟩
  · obtain ⟨cut, hcut, rfl, hmem⟩ := harises
    obtain ⟨earlier, hearlier, hreach, howner, hpath⟩ := hcut.exists_of_mem_chain hmem
    refine ⟨request, hrequest, earlier, cut, hearlier, hreach, howner, rfl, hpath, ?_⟩
    by_cases hinstance : earlier.IsInstance registry
    · refine Or.inl ((Frame.contains_or_detours_of_transGen hinstance hreach).resolve_left ?_)
      -- without a detour a component would contain itself
      rintro ⟨-, hcontains⟩
      rw [howner] at hcontains
      obtain ⟨finding, hfinding, group, hgroup, -⟩ :=
        Registry.exists_componentCycle_iff.mpr hcontains
      exact hlint finding hfinding (by simp [Finding.rule, hgroup])
    · have hdetail := hearlier.isInstance_or_detail.resolve_left hinstance
      rw [Frame.IsInstance, howner] at hinstance
      rw [howner] at hdetail
      exact Or.inr ⟨hdetail, hinstance⟩
  · simp at hmissing
  · simp at hmissing

end Session

/-! ## A block inside itself -/

/-- The first block of the diagram, which has its attention swapped. -/
def Frame.swappedBlock : Frame where
  owner := "block"
  template := .informed [("in", .leaf .blank), ("attn", .slot ⟨"mha", some "attention"⟩)]
  chain := []
  swaps := [("attention", .swap "gqa" none)]

/-- The block that is asked for inside of it. -/
def Frame.innerBlock : Frame :=
  { swappedBlock with chain := ["block", "gqa"], swaps := [] }

/-- All expansions that the diagram is made of. -/
def Frame.ofBlocks : List Frame := [
  swappedBlock,
  ⟨"gqa", .informed [("box", .leaf .blank), ("again", .slot ⟨"block", none⟩)], ["block"], []⟩,
  innerBlock,
  ⟨"block_1", swappedBlock.template, [], []⟩,
  ⟨"mha", .informed [("box", .leaf .blank)], ["block_1"], []⟩]

theorem Request.mem_ofBlocks {frame : Frame} (h : (Request.view "top").Meets .blocks frame) :
    frame ∈ Frame.ofBlocks := by
  have hblock : Registry.blocks.instanceOf? "block" = some Frame.swappedBlock.template ∧
      Registry.blocks.instanceOf? "block_1" = some Frame.swappedBlock.template := by
    decide +kernel
  refine mem_of_meets (fun start hstart => ?_) (by decide +kernel) h
  cases hstart with
  | @entry _ name architecture _ hname hfound hentry =>
      obtain rfl : "top" = name := by simpa using hname
      obtain rfl : _ = architecture := Option.some.inj hfound
      obtain @⟨entry, owner, swaps, template, hmem, hcomponent, htemplate⟩ := hentry
      obtain rfl | rfl : entry = ("block", .nested [("attention", .swap "gqa" none)]) ∨
          entry = ("block_1", .default) := by simpa using hmem
      · obtain ⟨rfl, rfl⟩ := Prod.mk.inj (Option.some.inj hcomponent)
        obtain rfl := Option.some.inj (hblock.1.symm.trans htemplate)
        exact List.mem_cons_self
      · obtain ⟨rfl, rfl⟩ := Prod.mk.inj (Option.some.inj hcomponent)
        obtain rfl := Option.some.inj (hblock.2.symm.trans htemplate)
        simp [Frame.ofBlocks]
  | view hmissing => cases hmissing

theorem Registry.lint_blocks : Registry.blocks.lint = [] := by
  have hcycles : Registry.blocks.containment.cycles = [] :=
    Graph.cycles_eq_of_cyclesWithin 20 (by decide +kernel)
  rw [lint, hcycles]
  decide +kernel

/-- The block that a swap puts inside itself is cut off. -/
theorem Session.cycle_blocks :
    .cycle "block" ∈ ((Session.start Store.empty).serveAll .blocks [.view "top"]).events := by
  have hevents : ((Session.start Store.empty).viewOf .blocks "top").events =
      [.viewStarted "top", .expanded ["block"], .expanded ["block", "gqa"], .cycle "block",
        .expanded ["block_1"], .expanded ["block_1", "mha"], .viewFinished "top"] :=
    eq_of_viewOfWithin Answer.events (by decide +kernel)
  simp [serveAll, serve, hevents]

/-- It stands inside itself because of the swap: between the block that has its attention
swapped and the block inside of it, something new is put in a slot. -/
theorem Session.exists_detour_blocks :
    (∀ finding ∈ Registry.blocks.lint, finding.rule ≠ "component-cycle") ∧
      .cycle "block" ∈ ((Session.start Store.empty).serveAll .blocks [.view "top"]).events ∧
      (Request.view "top").Meets .blocks .swappedBlock ∧
      TransGen (Frame.LeadsTo .blocks) .swappedBlock .innerBlock ∧
      Frame.swappedBlock.path <+: Frame.innerBlock.chain ∧
      ∃ before after, ReflTransGen (Frame.LeadsTo .blocks) .swappedBlock before ∧
        before.Detours .blocks after ∧ ReflTransGen (Frame.LeadsTo .blocks) after .innerBlock := by
  have hlint : ∀ finding ∈ Registry.blocks.lint, finding.rule ≠ "component-cycle" := by
    simp [Registry.lint_blocks]
  obtain ⟨request, hrequest, earlier, cut, hearlier, hreach, howner, hcut, hpath, hreason⟩ :=
    exists_detour_of_cycle hlint (Session.start Store.empty) cycle_blocks
  obtain rfl := List.mem_singleton.mp hrequest
  -- among the expansions of the diagram there is only one such pair
  have hpair : ∀ outer ∈ Frame.ofBlocks, ∀ inner ∈ Frame.ofBlocks, outer.owner = "block" →
      inner.owner = "block" → outer.path <+: inner.chain →
        outer = .swappedBlock ∧ inner = .innerBlock := by decide +kernel
  have hmeets : (Request.view "top").Meets .blocks cut := by
    obtain ⟨start, hstart, hbefore⟩ := hearlier
    exact ⟨start, hstart, hbefore.trans hreach.to_reflTransGen⟩
  obtain ⟨rfl, rfl⟩ := hpair earlier (Request.mem_ofBlocks hearlier) cut
    (Request.mem_ofBlocks hmeets) howner hcut hpath
  refine ⟨hlint, cycle_blocks, hearlier, hreach, hpath, hreason.resolve_right ?_⟩
  -- the block is no detail but the component
  rintro ⟨hdetail, hother⟩
  have hsame : Registry.blocks.detailOf? "block" = Registry.blocks.instanceOf? "block" := by
    decide +kernel
  exact hother (hsame ▸ hdetail)

/-- Without a cycle among the references of components, an instance can be met inside
itself. -/
theorem not_forall_not_cycle :
    ¬∀ (registry : Registry) (requests : List Request),
      (∀ finding ∈ registry.lint, finding.rule ≠ "component-cycle") →
      (∀ request ∈ requests, request.Opens) →
        ∀ owner, .cycle owner ∉
          ((Session.start Store.empty).serveAll registry requests).events := by
  intro h
  refine h .blocks [.view "top"] ?_ ?_ "block" Session.cycle_blocks
  · simp [Registry.lint_blocks]
  · simp [Request.Opens]

end ArchDiagram

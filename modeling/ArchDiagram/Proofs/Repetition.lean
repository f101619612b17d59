/-
# Instances inside themselves

Expansions stand inside each other slot by slot. Within a view they follow the slots exactly as
far as no instance name is repeated, and a cycle is reported exactly where the next slot
repeats one (`followsSlots_expand`). So no instance is expanded inside itself, however a
request comes to it (`nodup_of_expanded`). A template may be: its numbered instances are other
instances, and one of them can stand inside another one.
-/

import ArchDiagram.Proofs.DrillDown
import ArchDiagram.Proofs.Reports

namespace ArchDiagram

open Relation

namespace Frame

variable {registry : Registry} {start outer inner : Frame}

theorem nodup_path_iff : outer.path.Nodup ↔ outer.chain.Nodup ∧ outer.owner ∉ outer.chain := by
  rw [path, ← List.concat_eq_append, List.nodup_concat, and_comm]

theorem LeadsTo.nodup_chain (h : outer.LeadsTo registry inner) (houter : outer.chain.Nodup) :
    inner.chain.Nodup := by
  rcases h.next with hfills | hlinks
  · rw [hfills.chain_eq]
    exact nodup_path_iff.mpr ⟨houter, h.fresh⟩
  · rwa [hlinks.chain_eq]

/-- The names around an expansion are different ones, also if details lie between them. -/
theorem nodup_chain_of_leadsTo (h : ReflTransGen (LeadsTo registry) start inner)
    (hstart : start.chain.Nodup) : inner.chain.Nodup := by
  induction h with
  | refl => exact hstart
  | tail _ hleads ih => exact hleads.nodup_chain ih

/-- An expansion in a slot of another one that is not cut off. -/
structure Nests (registry : Registry) (outer inner : Frame) : Prop where
  fresh : outer.owner ∉ outer.chain
  fills : outer.Fills registry inner

theorem nodup_chain_of_nests (h : ReflTransGen (Nests registry) start inner)
    (hstart : start.chain.Nodup) : inner.chain.Nodup := by
  have hleads : ReflTransGen (LeadsTo registry) start inner :=
    ReflTransGen.mono (fun _ _ hnests => ⟨hnests.fresh, Or.inl hnests.fills⟩) _ _ h
  exact nodup_chain_of_leadsTo hleads hstart

/-- As long as the names are different ones, nothing is cut off. -/
theorem nests_of_fills (h : ReflTransGen (Fills registry) start inner)
    (hnodup : inner.chain.Nodup) : ReflTransGen (Nests registry) start inner := by
  induction h with
  | refl => exact .refl
  | tail _ hfills ih =>
      rw [hfills.chain_eq, nodup_path_iff] at hnodup
      exact (ih hnodup.1).tail ⟨hnodup.2, hfills⟩

theorem fills_of_nests (h : ReflTransGen (Nests registry) start inner) :
    ReflTransGen (Fills registry) start inner :=
  ReflTransGen.mono (fun _ _ hnests => hnests.fills) _ _ h

/-! ### What is left to be done -/

theorem steps_expand_of_mem (h : outer.owner ∈ outer.chain) (view : View) :
    (outer.expand registry view).steps = [.note (.cycle outer.owner)] := by
  rw [expand, Registry.expandTemplate, if_pos h]

theorem steps_expand_of_notMem (h : outer.owner ∉ outer.chain) (view : View) :
    (outer.expand registry view).steps = outer.opening ++
      (registry.expandContent outer true [] view outer.template.content).steps := by
  rw [expand, Registry.expandTemplate, if_neg h]

/-- What fills a slot leaves its steps to the expansion around it. -/
theorem exists_steps_subset_of_mem_content (registry : Registry) {key : String} {slot : Slot}
    {content : Entries Content} (h : (key, Content.slot slot) ∈ content) (isFirst : Bool)
    (anchors : Entries String) (view : View) :
    ∃ before, (registry.expandComponent (outer.choose slot).owner outer.path
        (outer.choose slot).swaps before).steps ⊆
      (registry.expandContent outer isFirst anchors view content).steps := by
  induction content generalizing isFirst anchors view with
  | nil => simp at h
  | cons entry rest ih =>
      rcases List.mem_cons.mp h with rfl | hrest
      · refine ⟨view, ?_⟩
        rw [Registry.expandContent_slot]
        exact List.Subset.trans (List.subset_append_right _ _) (List.subset_append_left _ _)
      · match entry with
        | (other, .leaf item) =>
            rw [Registry.expandContent_leaf]
            obtain ⟨before, hbefore⟩ := ih hrest false _ _
            exact ⟨before, List.Subset.trans hbefore (List.subset_append_right _ _)⟩
        | (other, .slot place) =>
            rw [Registry.expandContent_slot]
            obtain ⟨before, hbefore⟩ := ih hrest false _ _
            exact ⟨before, List.Subset.trans hbefore (List.subset_append_right _ _)⟩

/-- What an expansion leaves to be done is left by those around it. -/
theorem exists_steps_subset_of_nests (h : ReflTransGen (Nests registry) start inner) (view : View) :
    ∃ before, (inner.expand registry before).steps ⊆ (start.expand registry view).steps := by
  induction h with
  | refl => exact ⟨view, List.Subset.refl _⟩
  | tail _ hnests ih =>
      obtain ⟨middle, hmiddle⟩ := ih
      rw [steps_expand_of_notMem hnests.fresh] at hmiddle
      obtain ⟨hslot, hfound⟩ := hnests.fills
      obtain ⟨before, hbefore⟩ :=
        exists_steps_subset_of_mem_content registry hslot true [] middle
      rw [Registry.expandComponent, hfound] at hbefore
      -- the steps of the slot come after the opening
      have houter := List.Subset.trans (List.subset_append_right _ _) hmiddle
      exact ⟨before, List.Subset.trans hbefore houter⟩

end Frame

/-! ### Following the slots -/

/-- An expansion follows the slots from some frames on as long as no instance name is
repeated: the chains of names under which templates are expanded are the chains of slots with
different names, and cycles are reported where the name of the next slot is in the chain. -/
structure Expansion.FollowsSlots (expansion : Expansion) (registry : Registry)
    (starts : Frame → Prop) : Prop where
  expanded : ∀ path, .note (.expanded path) ∈ expansion.steps ↔
    path.Nodup ∧ ∃ start inner, starts start ∧ ReflTransGen (Frame.Fills registry) start inner ∧
      inner.path = path
  cycle : ∀ owner, .note (.cycle owner) ∈ expansion.steps ↔
    ∃ start inner, starts start ∧ ReflTransGen (Frame.Fills registry) start inner ∧
      inner.chain.Nodup ∧ inner.owner = owner ∧ owner ∈ inner.chain

section FollowsSlots

variable {registry : Registry} {starts : Frame → Prop} {expansion : Expansion}

/-- Whatever leaves the steps of some expansions, and no steps that arise elsewhere, follows
the slots from these expansions on. -/
theorem Expansion.followsSlots_of_arises (hstarts : ∀ start, starts start → start.chain.Nodup)
    (hleaves : ∀ start, starts start →
      ∃ before, (start.expand registry before).steps ⊆ expansion.steps)
    (harises : ∀ step ∈ expansion.steps, step.Arises registry fun inner =>
      ∃ start, starts start ∧ ReflTransGen (Frame.Nests registry) start inner) :
    expansion.FollowsSlots registry starts := by
  -- what a nested expansion leaves is left by the one at the start
  have hsubset {start inner : Frame} (hstart : starts start)
      (hnests : ReflTransGen (Frame.Nests registry) start inner) :
      ∃ view, (inner.expand registry view).steps ⊆ expansion.steps := by
    obtain ⟨before, hbefore⟩ := hleaves start hstart
    obtain ⟨view, hview⟩ := Frame.exists_steps_subset_of_nests hnests before
    exact ⟨view, List.Subset.trans hview hbefore⟩
  -- a step arises only where the slots lead without a repetition, and it is left wherever
  -- they do
  refine ⟨fun path => ⟨fun h => ?_, ?_⟩, fun owner => ⟨fun h => ?_, ?_⟩⟩
  · obtain ⟨inner, ⟨start, hstart, hnests⟩, hfresh, rfl⟩ := harises _ h
    have hchain := Frame.nodup_chain_of_nests hnests (hstarts start hstart)
    exact ⟨Frame.nodup_path_iff.mpr ⟨hchain, hfresh⟩, start, inner, hstart,
      Frame.fills_of_nests hnests, rfl⟩
  · rintro ⟨hnodup, start, inner, hstart, hfills, rfl⟩
    obtain ⟨hchain, hfresh⟩ := Frame.nodup_path_iff.mp hnodup
    obtain ⟨view, hview⟩ := hsubset hstart (Frame.nests_of_fills hfills hchain)
    rw [Frame.steps_expand_of_notMem hfresh] at hview
    exact hview (List.mem_append_left _ List.mem_cons_self)
  · obtain ⟨inner, ⟨start, hstart, hnests⟩, howner, hmem⟩ := harises _ h
    exact ⟨start, inner, hstart, Frame.fills_of_nests hnests,
      Frame.nodup_chain_of_nests hnests (hstarts start hstart), howner, hmem⟩
  · rintro ⟨start, inner, hstart, hfills, hchain, rfl, hmem⟩
    obtain ⟨view, hview⟩ := hsubset hstart (Frame.nests_of_fills hfills hchain)
    rw [Frame.steps_expand_of_mem hmem] at hview
    exact hview List.mem_cons_self

namespace Registry

theorem followsSlots_expand {frame : Frame} (h : frame.chain.Nodup) (view : View) :
    (frame.expand registry view).FollowsSlots registry (· = frame) := by
  refine Expansion.followsSlots_of_arises ?_ ?_ ?_
  · rintro _ rfl
    exact h
  · rintro _ rfl
    exact ⟨view, List.Subset.refl _⟩
  · refine arises_expand ?_ ⟨frame, rfl, .refl⟩ view
    rintro outer inner ⟨_, rfl, hnests⟩ hfresh hfills
    exact ⟨_, rfl, hnests.tail ⟨hfresh, hfills⟩⟩

theorem exists_steps_subset_of_entry (registry : Registry) {entries : List (String × Override)}
    {entry : String × Override} (hentry : entry ∈ entries) {owner : String}
    {swaps : Entries Override} (hcomponent : entry.2.component? entry.1 = some (owner, swaps))
    (view : View) :
    ∃ before, (registry.expandComponent owner [] swaps before).steps ⊆
      (registry.expandEntries view entries).steps := by
  induction entries generalizing view with
  | nil => simp at hentry
  | cons first rest ih =>
      rcases List.mem_cons.mp hentry with rfl | hentry
      · refine ⟨view, ?_⟩
        rw [← expandEntry_of_component? hcomponent]
        exact List.subset_append_left _ _
      · obtain ⟨before, hbefore⟩ := ih hentry (registry.expandEntry view first.1 first.2).view
        exact ⟨before, List.Subset.trans hbefore (List.subset_append_right _ _)⟩

theorem followsSlots_expandEntries {name : String} {architecture : Architecture}
    (hfound : registry.architecture? name = some architecture) (view : View) :
    (registry.expandEntries view architecture.entries).FollowsSlots registry
      (architecture.Starts registry) := by
  refine Expansion.followsSlots_of_arises ?_ ?_ ?_
  · rintro _ ⟨-, -, -⟩
    exact List.nodup_nil
  · rintro _ ⟨hentry, hcomponent, hinstance⟩
    obtain ⟨before, hbefore⟩ :=
      registry.exists_steps_subset_of_entry hentry hcomponent view
    rw [expandComponent, hinstance] at hbefore
    exact ⟨before, hbefore⟩
  · refine arises_expandEntries ?_ (mem_architectures hfound) (fun _ => id) ?_ view
    · rintro outer inner ⟨start, hstart, hnests⟩ hfresh hfills
      exact ⟨start, hstart, hnests.tail ⟨hfresh, hfills⟩⟩
    · exact fun start hstart => ⟨start, hstart, .refl⟩

end Registry

end FollowsSlots

/-! ### Along the chains of a request -/

section Chains

variable {registry : Registry} {request : Request} {frame : Frame}

theorem Request.Starts.chain_eq (h : request.Starts registry frame) : frame.chain = [] := by
  obtain ⟨-, -, -, -, -⟩ | - | - := h <;> rfl

theorem Request.nodup_chain_of_meets (h : request.Meets registry frame) : frame.chain.Nodup := by
  obtain ⟨start, hstart, hreach⟩ := h
  apply Frame.nodup_chain_of_leadsTo hreach
  rw [hstart.chain_eq]
  exact List.nodup_nil

theorem Session.nodup_of_expanded {session : Session} {path : List String}
    (h : .expanded path ∈ (session.serve registry request).events) : path.Nodup := by
  rcases session.arises_or_missing_serve h with harises | ⟨name, hmissing | hmissing⟩
  · obtain ⟨frame, hmeets, hfresh, rfl⟩ := harises
    exact Frame.nodup_path_iff.mpr ⟨Request.nodup_chain_of_meets hmeets, hfresh⟩
  · simp at hmissing
  · simp at hmissing

/-- One of two different names of a template has a number. -/
theorem Ident.hasReservedSuffix_of_templateKey_eq {name other : String} (hne : name ≠ other)
    (hkey : Ident.templateKey name = Ident.templateKey other) :
    Ident.hasReservedSuffix name ∨ Ident.hasReservedSuffix other := by
  by_contra hplain
  simp only [not_or, Bool.not_eq_true] at hplain
  rw [Ident.templateKey_eq_self hplain.1, Ident.templateKey_eq_self hplain.2] at hkey
  exact hne hkey

end Chains

/-- No instance is expanded inside itself, whatever is asked for: along every chain the
instance names are different ones, and of two instances of one template one has a number.
Within a view the entries of an architecture, and just as well a detail, are expanded along
the slots until a name would be repeated, and there a cycle is reported. -/
theorem Session.repeatsNoInstance (session : Session) (registry : Registry) :
    (∀ request path, .expanded path ∈ (session.serve registry request).events →
      path.Pairwise fun outer inner => outer ≠ inner ∧
        (Ident.templateKey outer = Ident.templateKey inner →
          Ident.hasReservedSuffix outer ∨ Ident.hasReservedSuffix inner)) ∧
    (∀ name architecture view, registry.architecture? name = some architecture →
      (registry.expandEntries view architecture.entries).FollowsSlots registry
        (architecture.Starts registry)) ∧
    ∀ (frame : Frame) view, frame.chain.Nodup →
      (frame.expand registry view).FollowsSlots registry (· = frame) := by
  refine ⟨fun request path hpath => ?_, fun name architecture view hfound => ?_,
    fun frame view hnodup => ?_⟩
  · refine (Session.nodup_of_expanded hpath).imp fun hne => ⟨hne, ?_⟩
    exact Ident.hasReservedSuffix_of_templateKey_eq hne
  · exact Registry.followsSlots_expandEntries hfound view
  · exact Registry.followsSlots_expand hnodup view

/-- A component that places itself under a numbered name. -/
def Registry.regress : Registry where
  components :=
    [("unit", .informed [("box", .leaf .blank), ("again", .slot ⟨"unit_1", none⟩)])]
  details := []
  architectures := [("plan", ⟨[("unit", .default)]⟩)]

theorem Registry.expanded_regress :
    .expanded ["unit", "unit_1"] ∈ ((Session.start Store.empty).viewOf .regress "plan").events := by
  have hevents : ((Session.start Store.empty).viewOf .regress "plan").events =
      [.viewStarted "plan", .expanded ["unit"], .expanded ["unit", "unit_1"], .cycle "unit_1",
        .viewFinished "plan"] :=
    Session.eq_of_viewOfWithin Session.Answer.events (by decide +kernel)
  simp [hevents]

/-- The numbered instance is expanded inside the other one, and inside itself it is cut off. -/
theorem Session.repeatsNoInstance_regress :
    .expanded ["unit", "unit_1"] ∈
        ((Session.start Store.empty).viewOf .regress "plan").events ∧
      ["unit", "unit_1"].Pairwise (fun outer inner => outer ≠ inner ∧
        (Ident.templateKey outer = Ident.templateKey inner →
          Ident.hasReservedSuffix outer ∨ Ident.hasReservedSuffix inner)) ∧
      .note (.cycle "unit_1") ∈
        (Registry.regress.expandEntries View.empty [("unit", .default)]).steps := by
  obtain ⟨hpairwise, hentries, -⟩ := repeatsNoInstance (Session.start Store.empty) .regress
  refine ⟨Registry.expanded_regress, hpairwise (.view "plan") _ Registry.expanded_regress, ?_⟩
  rw [(hentries "plan" ⟨[("unit", .default)]⟩ View.empty rfl).cycle]
  let unit : Template := .informed [("box", .leaf .blank), ("again", .slot ⟨"unit_1", none⟩)]
  let start : Frame := ⟨"unit", unit, [], []⟩
  let middle : Frame := ⟨"unit_1", unit, ["unit"], []⟩
  let last : Frame := ⟨"unit_1", unit, ["unit", "unit_1"], []⟩
  have hslot : ("again", Content.slot ⟨"unit_1", none⟩) ∈ unit.content :=
    List.mem_cons_of_mem _ List.mem_cons_self
  have hunit : Registry.regress.instanceOf? "unit_1" = some unit := by decide +kernel
  have hfirst : start.Fills .regress middle :=
    @Frame.Fills.slot .regress start "again" ⟨"unit_1", none⟩ unit hslot hunit
  have hsecond : middle.Fills .regress last :=
    @Frame.Fills.slot .regress middle "again" ⟨"unit_1", none⟩ unit hslot hunit
  refine ⟨start, last, .entry List.mem_cons_self rfl (by decide +kernel), ?_, ?_, rfl, ?_⟩
  · exact (ReflTransGen.single hfirst).tail hsecond
  · decide +kernel
  · decide +kernel

/-- A template can be expanded inside itself, under numbered names. -/
theorem not_forall_nodup_templateKeys :
    ¬∀ (registry : Registry) (name : String) (path : List String),
      .expanded path ∈
          ((Session.start Store.empty).viewOf registry name).events →
        (path.map Ident.templateKey).Nodup := by
  intro h
  have hnodup := h .regress "plan" ["unit", "unit_1"] Registry.expanded_regress
  exact absurd hnodup (by decide +kernel)

end ArchDiagram

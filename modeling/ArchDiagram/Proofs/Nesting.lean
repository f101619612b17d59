/-
# How deep a resolution nests

A resolution is written here once more as one recursion that may fail to end: views
that are asked for are built in the middle of the expansion that asks for them, and
nothing is said about how the expansions inside each other come to an end, only how
many of them there may be (`Registry.expandWithin`). It does end: with one expansion
more than fit between the names of the views being built and the instance names of a
chain, it gives the answer of the session, on every registry and in every session
(`Session.ends_resolve`). A view inside another one uses up the name of a view that is
not being built, and an expansion inside another one uses up a name of the chain; the
chain may be shorter again in a view that is asked for, so the number of views left
counts first.
-/

import ArchDiagram.Proofs.Builds

namespace ArchDiagram

/-- What has come of an expansion: the view it adds to, the store, and what there is to
report. -/
structure Stage where
  view : View
  store : Store
  events : List Event

/-- A way to expand a template for the view `parent` while the views of `building` are
being built. It need not come to an end. -/
abbrev Expander :=
  (parent : String) → (building : List String) → Frame → View → Store → Option Stage

/-- What an entry of an architecture expands: an instance name and the overrides for it.
Sections expand nothing. -/
def Override.component? (key : String) : Override → Option (String × Entries Override)
  | .default => some (key, [])
  | .nested swaps => some (key, swaps)
  | .swap replacement overrides => some (replacement, overrides.getD [])
  | .references _ | .properties _ | .settings _ => none

namespace Registry

/-! ## Resolving in one recursion -/

section Recursion

variable (registry : Registry) (properties : Entries Property) (expand : Expander)
  (parent : String) (building : List String)

/-- Ask for a view: build it now, unless it is kept or being built. -/
def attachWith (name : String) (chain : List String) (swaps : Entries Override) (store : Store) :
    Option Outcome :=
  if store.contains name ∨ name ∈ building then some ⟨store.linked parent name, []⟩
  else
    match registry.detailOf? name with
    | none => some ⟨store, [.detailMissing name]⟩
    | some template => do
        let built ← expand name (name :: building) ⟨name, template, chain, swaps⟩
          (blankView properties) (store.resetNavigation name)
        return ⟨(built.store.insert name built.view).linked parent name,
          .viewStarted name :: built.events ++ [.viewFinished name]⟩

/-- Carry out steps as they come. -/
def carryOutWith (store : Store) : List Step → Option Outcome
  | [] => some ⟨store, []⟩
  | .note event :: rest => do
      let after ← carryOutWith store rest
      return ⟨after.store, event :: after.events⟩
  | .attach name chain swaps :: rest => do
      let first ← registry.attachWith properties expand parent building name chain swaps store
      let after ← carryOutWith first.store rest
      return ⟨after.store, first.events ++ after.events⟩

/-- Expand the component an instance name stands for. -/
def componentWith (owner : String) (chain : List String) (swaps : Entries Override) (view : View)
    (store : Store) : Option Stage :=
  match registry.instanceOf? owner with
  | none => some ⟨view, store, [.componentMissing owner]⟩
  | some template => expand parent building ⟨owner, template, chain, swaps⟩ view store

/-- Expand some content, carrying out the steps of each entry before the next one. -/
def contentWith (frame : Frame) (isFirst : Bool) (anchors : Entries String) (view : View)
    (store : Store) : Entries Content → Option Stage
  | [] => some ⟨frame.finish view, store, []⟩
  | (key, .leaf item) :: rest => do
      let placement := frame.place isFirst anchors key item view
      let first ← registry.carryOutWith properties expand parent building store placement.steps
      let after ← contentWith frame false placement.anchors placement.view first.store rest
      return ⟨after.view, after.store, first.events ++ after.events⟩
  | (_, .slot slot) :: rest => do
      let choice := frame.choose slot
      let first ← registry.carryOutWith properties expand parent building store choice.steps
      let inside ← registry.componentWith expand parent building choice.owner frame.path
        choice.swaps view first.store
      let after ← contentWith frame false anchors inside.view inside.store rest
      return ⟨after.view, after.store, first.events ++ inside.events ++ after.events⟩

/-- Expand a template, with `expand` for the expansions inside it. -/
def expandWith (frame : Frame) (view : View) (store : Store) : Option Stage :=
  if frame.owner ∈ frame.chain then some ⟨view, store, [.cycle frame.owner]⟩
  else do
    let opened ← registry.carryOutWith properties expand parent building store frame.opening
    let filled ← registry.contentWith properties expand parent building frame true [] view
      opened.store frame.template.content
    return ⟨filled.view, filled.store, opened.events ++ filled.events⟩

/-- Add the entries of an architecture to a view in order. -/
def entriesWith (view : View) (store : Store) : List (String × Override) → Option Stage
  | [] => some ⟨view, store, []⟩
  | (key, entry) :: rest => do
      let first ←
        match entry.component? key with
        | none => some ⟨(registry.expandEntry view key entry).view, store, []⟩
        | some (owner, swaps) =>
            registry.componentWith expand parent building owner [] swaps view store
      let after ← entriesWith first.view first.store rest
      return ⟨after.view, after.store, first.events ++ after.events⟩

end Recursion

/-- Expand a template with at most `depth` expansions inside each other, this one
included. There is no result if they do not suffice. -/
def expandWithin (registry : Registry) (properties : Entries Property) : (depth : Nat) → Expander
  | 0 => fun _ _ _ _ _ => none
  | depth + 1 => registry.expandWith properties (registry.expandWithin properties depth)

end Registry

namespace Session

/-- Flatten an architecture with at most `depth` expansions inside each other. -/
def resolveArchitectureWithin (session : Session) (registry : Registry) (name : String)
    (depth : Nat) : Option (Answer View) :=
  match registry.architecture? name with
  | none => some ⟨View.empty, session, [.architectureMissing name]⟩
  | some architecture => do
      let stage ← registry.entriesWith (registry.expandWithin architecture.properties depth) name []
        View.empty (session.store.resetNavigation name) architecture.entries
      return ⟨stage.view, ⟨stage.store, architecture.properties⟩,
        .viewStarted name :: stage.events ++ [.viewFinished name]⟩

/-- Flatten a detail with at most `depth` expansions inside each other. -/
def resolveDetailWithin (session : Session) (registry : Registry) (name : String)
    (overrides : Entries Override) (depth : Nat) : Option (Answer (Option View)) :=
  match registry.detailOf? name with
  | none => some ⟨none, session, [.detailMissing name]⟩
  | some template => do
      let stage ← registry.expandWithin session.properties depth name [name]
        ⟨name, template, [], overrides⟩ (Registry.blankView session.properties)
        (session.store.resetNavigation name)
      return ⟨some stage.view, { session with store := stage.store },
        .viewStarted name :: stage.events ++ [.viewFinished name]⟩

/-- Resolve a name with at most `depth` expansions inside each other. -/
def resolveWithin (session : Session) (registry : Registry) (name : String) (depth : Nat) :
    Option (Answer (Option View)) :=
  if (registry.architecture? name).isSome then
    (session.resolveArchitectureWithin registry name depth).map fun answer =>
      ⟨some answer.view, answer.session, answer.events⟩
  else session.resolveDetailWithin registry name [] depth

/-- The view of a name, with at most `depth` expansions inside each other. -/
def viewOfWithin (session : Session) (registry : Registry) (name : String) (depth : Nat) :
    Option (Answer (Option View)) :=
  match session.store.get? name with
  | some view => some ⟨some view, session, []⟩
  | none =>
      (session.resolveWithin registry name depth).map fun answer =>
        match answer.view with
        | none => answer
        | some view =>
            { answer with
              session := { answer.session with store := answer.session.store.insert name view } }

end Session

namespace Registry

/-! ## The recursion ends -/

/-- An expansion with its steps carried out. -/
def stage (registry : Registry) (properties : Entries Property) (parent : String)
    (building : List String) (store : Store) (expanded : Expansion) : Stage :=
  let outcome := registry.perform properties parent building store expanded.steps
  ⟨expanded.view, outcome.store, outcome.events⟩

/-- How many expansions can still be inside one of the chain `chain`, while the views of
`building` are being built: as many as there are new names for the chain, and with each
new view a whole chain again. -/
def room (registry : Registry) (pool building chain : List String) : Nat :=
  Supply.left building registry.linkNames * (Supply.left [] pool + 1) + Supply.left chain pool

variable {registry : Registry} {pool : List String} {properties : Entries Property}
  {expand : Expander} {parent : String} {building : List String} {depth : Nat}

theorem left_chain_le (pool chain : List String) : Supply.left chain pool ≤ Supply.left [] pool :=
  Supply.left_le fun _ hother _ => ⟨hother, by simp⟩

/-- A new view leaves less room, whatever the chain is in it. -/
theorem room_lt_of_building {name : String} (hname : name ∈ registry.linkNames)
    (hnew : name ∉ building) (chain chain' : List String) :
    registry.room pool (name :: building) chain' < registry.room pool building chain := by
  have hviews := Supply.left_eq_add_one hname hnew
  have hchain := left_chain_le pool chain'
  rw [room, room, hviews, Nat.add_mul, Nat.one_mul]
  omega

/-- A longer chain leaves less room. -/
theorem room_lt_of_chain {name : String} {chain : List String} (hname : name ∈ pool)
    (hnew : name ∉ chain) :
    registry.room pool building (chain ++ [name]) < registry.room pool building chain := by
  have hless : Supply.left (chain ++ [name]) pool < Supply.left chain pool := by
    refine Supply.left_lt hname hnew fun other hother hout => ?_
    simpa [hother] using hout
  exact Nat.add_lt_add_left hless _

/-- The expander gives the result of the expansion wherever there is less room than `depth`. -/
def Completes (registry : Registry) (pool : List String) (properties : Entries Property)
    (depth : Nat) (expand : Expander) : Prop :=
  ∀ parent building frame view store, frame.Known registry pool (fun _ => True) →
    registry.room pool building frame.chain < depth →
    expand parent building frame view store = some (registry.stage properties parent building store
      (registry.expandTemplate frame.owner frame.template frame.chain frame.swaps view))

section Ends

variable (parent) (hpool : registry.Covered pool)
  (hexpand : registry.Completes pool properties depth expand)
include hpool hexpand

/-- Steps can be carried out if there is room for the steps of a view inside. -/
theorem carryOutWith_eq {chain : List String} (hroom : registry.room pool building chain ≤ depth)
    {steps : List Step} (hsteps : ∀ step ∈ steps, step.Sound registry pool fun _ => True)
    (store : Store) :
    registry.carryOutWith properties expand parent building store steps =
      some (registry.perform properties parent building store steps) := by
  induction steps generalizing store with
  | nil => rw [perform_nil]; rfl
  | cons step rest ih =>
      have hrest := ih fun step hstep => hsteps step (List.mem_cons_of_mem _ hstep)
      cases step with
      | note event => simp [carryOutWith, hrest, perform_note]
      | attach name chain' swaps =>
          have hsound := hsteps _ List.mem_cons_self
          simp only [carryOutWith, attachWith]
          by_cases hheld : store.contains name ∨ name ∈ building
          · simp [hheld, hrest, perform_held hheld]
          · cases hfound : registry.detailOf? name with
            | none => simp [hheld, hrest, perform_missing hheld hfound]
            | some template =>
                -- the view is new, so there is less room inside it, whatever its chain is
                have hinner := hexpand name (name :: building) ⟨name, template, chain', swaps⟩
                  (blankView properties) (store.resetNavigation name) (hsound.known hpool hfound)
                  (lt_of_lt_of_le (room_lt_of_building hsound.1 (not_or.mp hheld).2 _ _) hroom)
                simp [hheld, hinner, hrest, stage, perform_build hheld hfound]

omit hpool in
theorem componentWith_eq {owner : String} {chain : List String} {swaps : Entries Override}
    (hframe : ∀ template, registry.instanceOf? owner = some template →
      Frame.Known registry pool (fun _ => True) ⟨owner, template, chain, swaps⟩)
    (hroom : registry.room pool building chain < depth) (view : View) (store : Store) :
    registry.componentWith expand parent building owner chain swaps view store =
      some (registry.stage properties parent building store
        (registry.expandComponent owner chain swaps view)) := by
  unfold componentWith expandComponent
  cases hfound : registry.instanceOf? owner with
  | none => simp [stage, perform_note, perform_nil]
  | some template => exact hexpand _ _ _ _ _ (hframe template hfound) hroom

/-- Some content can be expanded if there is room for an expansion inside. -/
theorem contentWith_eq {frame : Frame} (hframe : frame.Sound registry pool fun _ => True)
    (hroom : registry.room pool building frame.path < depth) {content : Entries Content}
    (hcontent : ∀ entry ∈ content, entry ∈ frame.template.content) (isFirst : Bool)
    (anchors : Entries String) (view : View) (store : Store) :
    registry.contentWith properties expand parent building frame isFirst anchors view store
        content =
      some (registry.stage properties parent building store
        (registry.expandContent frame isFirst anchors view content)) := by
  induction content generalizing isFirst anchors view store with
  | nil => simp [contentWith, stage, expandContent_nil, perform_nil]
  | cons entry rest ih =>
      have hrest := ih fun entry hentry => hcontent entry (List.mem_cons_of_mem _ hentry)
      have hentry := hcontent entry List.mem_cons_self
      obtain ⟨key, content⟩ := entry
      cases content with
      | leaf item =>
          have hsteps := carryOutWith_eq parent hpool hexpand hroom.le
            (hframe.place isFirst anchors view hentry) store
          simp [contentWith, hsteps, hrest, stage, expandContent_leaf, perform_append]
      | slot slot =>
          have hsteps := carryOutWith_eq parent hpool hexpand hroom.le
            (frame.sound_choose slot) store
          -- a component that is met again inside itself is cut off and needs no room
          have hinside (store : Store) := componentWith_eq parent hexpand
            (fun template hfound => hframe.known_inner hpool trivial hentry hfound) hroom view store
          simp [contentWith, hsteps, hinside, hrest, stage, expandContent_slot, perform_append]

end Ends

/-- Where there is less room than `depth`, that many expansions inside each other suffice. -/
theorem completes_expandWithin (properties : Entries Property) (hpool : registry.Covered pool)
    (depth : Nat) :
    registry.Completes pool properties depth (registry.expandWithin properties depth) := by
  induction depth with
  | zero => exact fun _ _ _ _ _ _ hroom => absurd hroom (Nat.not_lt_zero _)
  | succ depth ih =>
      intro parent building frame view store hframe hroom
      simp only [expandWithin, expandWith, expandTemplate]
      by_cases hcycle : frame.owner ∈ frame.chain
      · simp [hcycle, stage, perform_note, perform_nil]
      · have hsound : frame.Sound registry pool fun _ => True := ⟨hframe, hcycle⟩
        have hopened := carryOutWith_eq parent hpool ih (Nat.le_of_lt_succ hroom)
          hsound.opening store
        -- the path goes on from the chain by a new name, so there is less room inside it
        have hfilled (store : Store) := contentWith_eq parent hpool ih hsound
          (lt_of_lt_of_le (room_lt_of_chain hframe.owner hcycle) (Nat.le_of_lt_succ hroom))
          (fun _ => id) true [] view store
        simp [hcycle, hopened, hfilled, stage, perform_append]

end Registry

/-! ## From a request on -/

namespace Registry

/-- The instance names that an entry of an architecture brings in. -/
def entryIdents (entry : String × Override) : List String :=
  match entry.2.component? entry.1 with
  | none => []
  | some (owner, swaps) => owner :: Override.replacementsIn swaps

/-- The instance names that the templates and the architectures of a registry mention. -/
def idents (registry : Registry) : List String :=
  registry.slotNames ++ registry.linkNames ++
    registry.architectures.flatMap fun entry => entry.2.entries.flatMap entryIdents

variable {registry : Registry} {pool : List String} {begun : List String → Prop}

theorem covered_of_idents (h : ∀ name ∈ registry.idents, name ∈ pool) : registry.Covered pool where
  slots name hname := h name (List.mem_append_left _ (List.mem_append_left _ hname))
  links name hname := h name (List.mem_append_left _ (List.mem_append_right _ hname))

theorem mem_idents_of_entry {name id : String} {architecture : Architecture}
    (hfound : registry.architecture? name = some architecture) {entry : String × Override}
    (hentry : entry ∈ architecture.entries) (hid : id ∈ entryIdents entry) :
    id ∈ registry.idents := by
  obtain ⟨before, after, heq, -⟩ := List.lookup_eq_some_iff.mp hfound
  refine List.mem_append_right _ (List.mem_flatMap.mpr ⟨(name, architecture), ?_, ?_⟩)
  · rw [heq]
    simp
  · exact List.mem_flatMap.mpr ⟨entry, hentry, hid⟩

theorem expandEntry_of_component? {key : String} {entry : Override} {owner : String}
    {swaps : Entries Override} (h : entry.component? key = some (owner, swaps)) (view : View) :
    registry.expandEntry view key entry = registry.expandComponent owner [] swaps view := by
  cases entry <;> simp [Override.component?] at h <;> obtain ⟨rfl, rfl⟩ := h <;> rfl

theorem steps_expandEntry_of_component? {key : String} {entry : Override}
    (h : entry.component? key = none) (view : View) :
    (registry.expandEntry view key entry).steps = [] := by
  cases entry <;> simp [Override.component?] at h <;> rfl

/-- What an entry expands stands inside nothing else. -/
theorem known_of_entry {entry : String × Override} (hentry : ∀ id ∈ entryIdents entry, id ∈ pool)
    {owner : String} {swaps : Entries Override}
    (hcomponent : entry.2.component? entry.1 = some (owner, swaps)) (template : Template)
    (hfound : registry.instanceOf? owner = some template) :
    Frame.Known registry pool begun ⟨owner, template, [], swaps⟩ := by
  simp only [entryIdents, hcomponent] at hentry
  exact ⟨instanceOf?_mem hfound, .nil, hentry owner List.mem_cons_self,
    fun id hid => hentry id (List.mem_cons_of_mem _ hid)⟩

theorem sound_expandComponent (hpool : registry.Covered pool) {owner : String}
    {chain : List String} {swaps : Entries Override} {view : View}
    (h : ∀ template, registry.instanceOf? owner = some template →
      Frame.Known registry pool begun ⟨owner, template, chain, swaps⟩)
    (hsteps : ∀ path, Step.note (.expanded path) ∈
      (registry.expandComponent owner chain swaps view).steps → begun path) :
    ∀ step ∈ (registry.expandComponent owner chain swaps view).steps,
      step.Sound registry pool begun := by
  unfold expandComponent at hsteps ⊢
  cases hfound : registry.instanceOf? owner with
  | none => simp [Step.Sound]
  | some template =>
      simp only [hfound] at hsteps ⊢
      exact sound_expandTemplate hpool (h template hfound) hsteps

/-- The entries of an architecture leave only sound steps. -/
theorem sound_expandEntries (hpool : registry.Covered pool) {view : View}
    {entries : List (String × Override)}
    (hentries : ∀ entry ∈ entries, ∀ id ∈ entryIdents entry, id ∈ pool)
    (hsteps : ∀ path, Step.note (.expanded path) ∈ (registry.expandEntries view entries).steps →
      begun path) :
    ∀ step ∈ (registry.expandEntries view entries).steps, step.Sound registry pool begun := by
  induction entries generalizing view with
  | nil => simp [expandEntries]
  | cons entry rest ih =>
      obtain ⟨key, entry⟩ := entry
      have hentry := hentries _ List.mem_cons_self
      simp only [expandEntries, List.mem_append] at hsteps ⊢
      rintro step (hstep | hstep)
      · cases hcomponent : entry.component? key with
        | none => simp [steps_expandEntry_of_component? hcomponent] at hstep
        | some opened =>
            obtain ⟨owner, swaps⟩ := opened
            rw [expandEntry_of_component? hcomponent] at hstep hsteps
            exact sound_expandComponent hpool (known_of_entry hentry hcomponent)
              (fun path hpath => hsteps path (Or.inl hpath)) step hstep
      · exact ih (fun entry hentry => hentries entry (List.mem_cons_of_mem _ hentry))
          (fun path hpath => hsteps path (Or.inr hpath)) step hstep

theorem entriesWith_eq {properties : Entries Property} {expand : Expander} (parent : String)
    {building : List String} {depth : Nat}
    (hexpand : registry.Completes pool properties depth expand)
    (hroom : registry.room pool building [] < depth) {entries : List (String × Override)}
    (hentries : ∀ entry ∈ entries, ∀ id ∈ entryIdents entry, id ∈ pool) (view : View)
    (store : Store) :
    registry.entriesWith expand parent building view store entries =
      some (registry.stage properties parent building store
        (registry.expandEntries view entries)) := by
  induction entries generalizing view store with
  | nil => simp [entriesWith, stage, expandEntries, perform_nil]
  | cons entry rest ih =>
      have hrest := ih fun entry hentry => hentries entry (List.mem_cons_of_mem _ hentry)
      have hentry := hentries _ List.mem_cons_self
      obtain ⟨key, entry⟩ := entry
      cases hcomponent : entry.component? key with
      | none =>
          simp [entriesWith, hcomponent, hrest, stage, expandEntries,
            steps_expandEntry_of_component? hcomponent]
      | some opened =>
          obtain ⟨owner, swaps⟩ := opened
          have hinside := componentWith_eq parent hexpand
            (known_of_entry hentry hcomponent) hroom view store
          simp [entriesWith, hcomponent, hinside, hrest, stage, expandEntries, perform_append,
            expandEntry_of_component? hcomponent]

/-- As many expansions inside each other as names can tell apart. -/
def nestingBound (registry : Registry) (pool : List String) : Nat :=
  (Supply.left [] registry.linkNames + 1) * (Supply.left [] pool + 1)

theorem room_lt_nestingBound (registry : Registry) (pool building chain : List String) :
    registry.room pool building chain < registry.nestingBound pool := by
  have hviews : Supply.left building registry.linkNames ≤ Supply.left [] registry.linkNames :=
    left_chain_le _ _
  have hchain := left_chain_le pool chain
  have hmul := Nat.mul_le_mul_right (Supply.left [] pool + 1) hviews
  rw [room, nestingBound, Nat.add_mul, Nat.one_mul]
  omega

end Registry

namespace Session

/-- What it means that a request ends, while the views of `building` are being built: with
as many expansions inside each other as the link names and the names of `pool` can tell
apart, the one recursion comes to the answer; every expansion on the way extends the
chain of one begun before by a new name of the pool; and every view begun after the
first one is neither kept nor being built. -/
structure Ends {α : Type} (session : Session) (registry : Registry) (pool building : List String)
    (within : Nat → Option (Answer α)) (answer : Answer α) : Prop where
  within : ∀ depth, registry.nestingBound pool ≤ depth → within depth = some answer
  chains : ∀ path, Event.expanded path ∈ answer.events →
    Extends pool (fun path => Event.expanded path ∈ answer.events) path
  builds : Event.BuildsNew (Entries.names session.store.views) building answer.events.tail

variable {registry : Registry} {pool : List String}

theorem ends_resolveArchitecture (session : Session) (hpool : ∀ name ∈ registry.idents, name ∈ pool)
    (name : String) :
    session.Ends registry pool [] (session.resolveArchitectureWithin registry name)
      (session.resolveArchitecture registry name) := by
  cases hfound : registry.architecture? name with
  | none =>
      refine ⟨fun depth _ => ?_, fun path hpath => ?_, ?_⟩
      · simp [resolveArchitectureWithin, resolveArchitecture, hfound]
      · simp [resolveArchitecture, hfound] at hpath
      · simp [resolveArchitecture, hfound, Event.BuildsNew]
  | some architecture =>
      have hcovered := Registry.covered_of_idents hpool
      have hentries (entry) (hentry : entry ∈ architecture.entries) (id)
          (hid : id ∈ Registry.entryIdents entry) : id ∈ pool :=
        hpool id (Registry.mem_idents_of_entry hfound hentry hid)
      refine ⟨fun depth hdepth => ?_, ?_, ?_⟩
      -- nothing is being built and no chain has begun
      · have hcomplete := Registry.entriesWith_eq name
          (Registry.completes_expandWithin architecture.properties hcovered depth)
          (lt_of_lt_of_le (Registry.room_lt_nestingBound registry pool [] []) hdepth) hentries
          View.empty (session.store.resetNavigation name)
        simp [resolveArchitectureWithin, resolveArchitecture, hfound, hcomplete, Registry.stage]
      · simp only [resolveArchitecture, hfound, List.cons_append, List.mem_cons, List.mem_append,
          reduceCtorEq, false_or, List.not_mem_nil, or_false]
        refine Registry.extends_of_mem_perform hcovered ?_ fun _ => id
        exact Registry.sound_expandEntries hcovered hentries
          fun path hpath => Registry.mem_events_perform_of_note hpath
      · simp only [resolveArchitecture, hfound, List.cons_append, List.tail_cons]
        exact Registry.buildsNew_perform (session.store.resetNavigation name) hcovered
          [.viewFinished name] (Registry.sound_expandEntries hcovered hentries fun _ _ => trivial)
          trivial

theorem ends_resolveDetail (session : Session) (hpool : ∀ name ∈ registry.idents, name ∈ pool)
    {name : String} (overrides : Entries Override) (hname : name ∈ pool)
    (hoverrides : ∀ replacement ∈ Override.replacementsIn overrides, replacement ∈ pool) :
    session.Ends registry pool [name] (session.resolveDetailWithin registry name overrides)
      (session.resolveDetail registry name overrides) := by
  cases hfound : registry.detailOf? name with
  | none =>
      refine ⟨fun depth _ => ?_, fun path hpath => ?_, ?_⟩
      · simp [resolveDetailWithin, resolveDetail, hfound]
      · simp [resolveDetail, hfound] at hpath
      · simp [resolveDetail, hfound, Event.BuildsNew]
  | some template =>
      have hcovered := Registry.covered_of_idents hpool
      have hknown {begun : List String → Prop} :
          Frame.Known registry pool begun ⟨name, template, [], overrides⟩ :=
        ⟨Registry.detailOf?_mem hfound, .nil, hname, hoverrides⟩
      refine ⟨fun depth hdepth => ?_, ?_, ?_⟩
      -- the detail is expanded itself, in a chain that has not begun
      · have hcomplete := Registry.completes_expandWithin session.properties hcovered
          depth name [name] ⟨name, template, [], overrides⟩
          (Registry.blankView session.properties) (session.store.resetNavigation name) hknown
          (lt_of_lt_of_le (Registry.room_lt_nestingBound registry pool [name] []) hdepth)
        simp [resolveDetailWithin, resolveDetail, hfound, hcomplete, Registry.stage]
      · simp only [resolveDetail, hfound, List.cons_append, List.mem_cons, List.mem_append,
          reduceCtorEq, false_or, List.not_mem_nil, or_false]
        refine Registry.extends_of_mem_perform hcovered ?_ fun _ => id
        exact Registry.sound_expandTemplate hcovered hknown
          fun path hpath => Registry.mem_events_perform_of_note hpath
      · simp only [resolveDetail, hfound, List.cons_append, List.tail_cons]
        exact Registry.buildsNew_perform (session.store.resetNavigation name) hcovered
          [.viewFinished name] (Registry.sound_expandTemplate hcovered hknown fun _ _ => trivial)
          trivial

theorem ends_viewOf (session : Session) (hpool : ∀ name ∈ registry.idents, name ∈ pool)
    {name : String} (hname : name ∈ pool) :
    session.Ends registry pool (if (registry.architecture? name).isSome then [] else [name])
      (session.viewOfWithin registry name) (session.viewOf registry name) := by
  cases hkept : session.store.get? name with
  | some view =>
      refine ⟨fun depth _ => ?_, fun path hpath => ?_, ?_⟩
      · simp [viewOfWithin, viewOf, hkept]
      · simp [viewOf, hkept] at hpath
      · simp [viewOf, hkept, Event.BuildsNew]
  | none =>
      by_cases harchitecture : (registry.architecture? name).isSome
      · have hends := session.ends_resolveArchitecture hpool name
        rw [if_pos harchitecture]
        refine ⟨fun depth hdepth => ?_, ?_, ?_⟩
        · simp [viewOfWithin, resolveWithin, viewOf, resolve, hkept, harchitecture,
            hends.within depth hdepth]
        · simpa [viewOf, resolve, hkept, harchitecture] using hends.chains
        · simpa [viewOf, resolve, hkept, harchitecture] using hends.builds
      · have hends := session.ends_resolveDetail hpool [] hname (by
          simp [Override.replacementsIn])
        rw [if_neg harchitecture]
        -- the answer without a view is the answer itself, and keeping a view reports nothing
        have hevents : (session.viewOf registry name).events =
            (session.resolveDetail registry name []).events := by
          simp only [viewOf, resolve, hkept, harchitecture]
          cases hview : (session.resolveDetail registry name []).view <;> simp [hview]
        refine ⟨fun depth hdepth => ?_, ?_, ?_⟩
        · simp only [viewOfWithin, resolveWithin, viewOf, resolve, hkept, harchitecture,
            hends.within depth hdepth]
          rfl
        · rw [hevents]
          exact hends.chains
        · rw [hevents]
          exact hends.builds

/-! ### Evaluating requests -/

/-- What the evaluation of a request says holds of the request. -/
theorem Ends.eq_of_within {α β : Type} {session : Session} {pool building : List String}
    {within : Nat → Option (Answer α)} {answer : Answer α}
    (hends : session.Ends registry pool building within answer) (f : Answer α → β) {value : β}
    (h : (within (registry.nestingBound pool)).map f = some value) : f answer = value := by
  rwa [hends.within _ le_rfl, Option.map_some, Option.some_inj] at h

theorem eq_of_resolveArchitectureWithin {α : Type} {session : Session} {name : String}
    (f : Answer View → α) {value : α}
    (h : (session.resolveArchitectureWithin registry name
      (registry.nestingBound registry.idents)).map f = some value) :
    f (session.resolveArchitecture registry name) = value :=
  (session.ends_resolveArchitecture (fun _ => id) name).eq_of_within f h

theorem eq_of_resolveDetailWithin {α : Type} {session : Session} {name : String}
    {overrides : Entries Override} (f : Answer (Option View) → α) {value : α}
    (h : (session.resolveDetailWithin registry name overrides (registry.nestingBound
      (name :: (registry.idents ++ Override.replacementsIn overrides)))).map f = some value) :
    f (session.resolveDetail registry name overrides) = value :=
  (session.ends_resolveDetail
    (fun _ hident => List.mem_cons_of_mem _ (List.mem_append_left _ hident)) overrides
    List.mem_cons_self
    fun _ hident => List.mem_cons_of_mem _ (List.mem_append_right _ hident)).eq_of_within f h

theorem eq_of_viewOfWithin {α : Type} {session : Session} {name : String}
    (f : Answer (Option View) → α) {value : α}
    (h : (session.viewOfWithin registry name
      (registry.nestingBound (name :: registry.idents))).map f = some value) :
    f (session.viewOf registry name) = value :=
  (session.ends_viewOf (fun _ => List.mem_cons_of_mem _) List.mem_cons_self).eq_of_within f h

/-- Every request ends, on every registry and in every session: for an architecture, for
a detail under any overrides, and for a view of either kind. -/
theorem ends_resolve (session : Session) (registry : Registry) :
    (∀ name, session.Ends registry registry.idents []
      (session.resolveArchitectureWithin registry name)
      (session.resolveArchitecture registry name)) ∧
    (∀ name overrides,
      session.Ends registry (name :: (registry.idents ++ Override.replacementsIn overrides)) [name]
        (session.resolveDetailWithin registry name overrides)
        (session.resolveDetail registry name overrides)) ∧
    ∀ name, session.Ends registry (name :: registry.idents)
      (if (registry.architecture? name).isSome then [] else [name])
      (session.viewOfWithin registry name) (session.viewOf registry name) := by
  refine ⟨session.ends_resolveArchitecture fun _ => id, fun name overrides => ?_, fun name => ?_⟩
  · refine session.ends_resolveDetail (fun id hid => ?_) overrides List.mem_cons_self
      fun id hid => ?_
    · exact List.mem_cons_of_mem _ (List.mem_append_left _ hid)
    · exact List.mem_cons_of_mem _ (List.mem_append_right _ hid)
  · exact session.ends_viewOf (fun id hid => List.mem_cons_of_mem _ hid) List.mem_cons_self

end Session

end ArchDiagram

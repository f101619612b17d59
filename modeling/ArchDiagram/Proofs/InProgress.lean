/-
# Details in progress

A detail is entered in a set while it is being built, and taken out again when its view is
finished, so that it is not built inside itself. A resolver is a session that changes this set
as it goes on, and that also records every detail whose template it expands. It serves requests
as the session does, leaves the set empty, and expands no detail twice (`serve_eq`). Since a
session that is only asked for views to keep never builds a view that it keeps, no request
after another one expands a detail again either (`serveAll_eq`). Together with what a request
leaves alone, this is `expandsOnce_serve`.
-/

import ArchDiagram.Proofs.DrillDown
import ArchDiagram.Proofs.Keeping

namespace ArchDiagram

/-- A session at work, with the details that are being built and a record of the details whose
templates have been expanded, in order. -/
structure Resolver where
  session : Session
  inProgress : Finset String
  expanded : List String

namespace Resolver

/-- A resolver between requests, which has done nothing yet. -/
def idle (session : Session) : Resolver := ⟨session, ∅, []⟩

/-- Change the store. -/
def mapStore (f : Store → Store) (resolver : Resolver) : Resolver :=
  { resolver with session := { resolver.session with store := f resolver.session.store } }

/-- Begin a detail: its list in the navigation starts anew. -/
def enter (resolver : Resolver) (name : String) : Resolver where
  session := { resolver.session with store := resolver.session.store.resetNavigation name }
  inProgress := insert name resolver.inProgress
  expanded := resolver.expanded ++ [name]

/-- Finish a detail. -/
def leave (resolver : Resolver) (name : String) : Resolver :=
  { resolver with inProgress := resolver.inProgress.erase name }

/-- A way to build a detail inside a chain under some overrides. There may be no such detail,
and building it need not come to an end. -/
abbrev Builder :=
  Resolver → (name : String) → (chain : List String) → Entries Override →
    Option (Option View × Resolver)

section Recursion

variable (registry : Registry) (build : Builder)

/-- Make sure that a detail is built, and enter it below `parent`. -/
def attach (parent : String) (resolver : Resolver) (name : String) (chain : List String)
    (swaps : Entries Override) : Option Resolver :=
  if resolver.session.store.contains name ∨ name ∈ resolver.inProgress then
    some (resolver.mapStore fun store => store.linked parent name)
  else do
    let (view, after) ← build resolver name chain swaps
    match view with
    | none => return after
    | some view => return after.mapStore fun store => (store.insert name view).linked parent name

/-- Carry out the steps of an expansion into the view `parent`. -/
def carryOut (parent : String) (resolver : Resolver) : List Step → Option Resolver
  | [] => some resolver
  | .note _ :: rest => carryOut parent resolver rest
  | .attach name chain swaps :: rest => do
      let after ← resolver.attach build parent name chain swaps
      carryOut parent after rest

/-- Build a detail, with `build` for the details inside it. -/
def buildWith : Builder := fun resolver name chain swaps =>
  match registry.detailOf? name with
  | none => some (none, resolver)
  | some template => do
      let expanded := registry.expandTemplate name template chain swaps
        (Registry.blankView resolver.session.properties)
      let after ← carryOut build name (resolver.enter name) expanded.steps
      return (some expanded.view, after.leave name)

/-- Build a detail with at most `depth` details inside each other, this one included. -/
def buildWithin : (depth : Nat) → Builder
  | 0 => fun _ _ _ _ => none
  | depth + 1 => buildWith registry (buildWithin depth)

/-- Flatten an architecture. -/
def resolveArchitecture (resolver : Resolver) (name : String) : Option (View × Resolver) :=
  match registry.architecture? name with
  | none => some (View.empty, resolver)
  | some architecture => do
      let expanded := registry.expandEntries View.empty architecture.entries
      let session := ⟨resolver.session.store.resetNavigation name, architecture.properties⟩
      let after ← carryOut build name { resolver with session } expanded.steps
      return (expanded.view, after)

/-- The view of a name, which is kept. -/
def viewOf (resolver : Resolver) (name : String) : Option (Option View × Resolver) :=
  match resolver.session.store.get? name with
  | some view => some (some view, resolver)
  | none => do
      let (view, after) ←
        if (registry.architecture? name).isSome then
          (resolver.resolveArchitecture registry build name).map fun built =>
            (some built.1, built.2)
        else build resolver name [] []
      match view with
      | none => return (none, after)
      | some view => return (some view, after.mapStore fun store => store.insert name view)

/-- Serve one request. -/
def serveWith (resolver : Resolver) : Request → Option (Option View × Resolver)
  | .architecture name =>
      (resolver.resolveArchitecture registry build name).map fun built => (some built.1, built.2)
  | .detail name overrides => build resolver name [] overrides
  | .view name => resolver.viewOf registry build name
  | .renew => some (none, ⟨Session.start resolver.session.store, ∅, resolver.expanded⟩)

end Recursion

/-- Serve one request with at most `depth` details inside each other. -/
def serve (registry : Registry) (depth : Nat) (resolver : Resolver) (request : Request) :
    Option (Option View × Resolver) :=
  resolver.serveWith registry (buildWithin registry depth) request

/-- Serve requests in order. -/
def serveAll (registry : Registry) (depth : Nat) (resolver : Resolver) :
    List Request → Option (List View × Resolver)
  | [] => some ([], resolver)
  | request :: rest => do
      let (view, after) ← resolver.serve registry depth request
      let (views, last) ← after.serveAll registry depth rest
      return (view.toList ++ views, last)

end Resolver

/-! ### Building each detail once -/

/-- Between two stores the details of a list have been built, each once: they were not kept
before nor in progress, and they are kept now. -/
structure BuiltOnce (store : Store) (inProgress : Finset String) (after : Store)
    (names : List String) : Prop where
  nodup : names.Nodup
  new : ∀ name ∈ names, ¬store.contains name ∧ name ∉ inProgress
  kept : ∀ name ∈ names, after.contains name

namespace BuiltOnce

variable {store other middle after : Store} {inProgress : Finset String}
  {names others : List String} {name : String}

theorem nil : BuiltOnce store inProgress after [] :=
  ⟨List.nodup_nil, by simp, by simp⟩

/-- Only which views are kept before matters. -/
theorem of_contains_eq (h : BuiltOnce other inProgress after names)
    (heq : ∀ name, other.contains name = store.contains name) :
    BuiltOnce store inProgress after names :=
  ⟨h.nodup, fun name hname => by simpa [heq] using h.new name hname, h.kept⟩

theorem keep (h : BuiltOnce store inProgress after names) (name : String) (view : View) :
    BuiltOnce store inProgress (after.insert name view) names :=
  ⟨h.nodup, h.new, fun built hbuilt => Store.contains_insert.mpr (Or.inl (h.kept built hbuilt))⟩

/-- What has been built first is kept, so it is not built again. -/
theorem append (hfirst : BuiltOnce store inProgress middle names)
    (hsecond : BuiltOnce middle inProgress after others)
    (hbefore : ∀ name, store.contains name → middle.contains name)
    (hafter : ∀ name, middle.contains name → after.contains name) :
    BuiltOnce store inProgress after (names ++ others) := by
  refine ⟨?_, fun name hname => ?_, fun name hname => ?_⟩
  · refine List.nodup_append.mpr ⟨hfirst.nodup, hsecond.nodup, ?_⟩
    rintro name hname _ hother rfl
    exact (hsecond.new name hother).1 (hfirst.kept name hname)
  · rcases List.mem_append.mp hname with hname | hname
    · exact hfirst.new name hname
    · obtain ⟨hnew, hout⟩ := hsecond.new name hname
      exact ⟨fun hkept => hnew (hbefore name hkept), hout⟩
  · rcases List.mem_append.mp hname with hname | hname
    · exact hafter name (hfirst.kept name hname)
    · exact hsecond.kept name hname

/-- A detail is built by building the details inside it while it is in progress. -/
theorem cons (h : BuiltOnce store (insert name inProgress) after names)
    (hnew : ¬store.contains name) (hout : name ∉ inProgress) (view : View) :
    BuiltOnce store inProgress (after.insert name view) (name :: names) := by
  refine ⟨List.nodup_cons.mpr ⟨fun hmem => ?_, h.nodup⟩, ?_, ?_⟩
  · exact (h.new name hmem).2 (Finset.mem_insert_self name inProgress)
  · simp only [List.mem_cons, forall_eq_or_imp]
    refine ⟨⟨hnew, hout⟩, fun other hother => ?_⟩
    exact (h.new other hother).imp_right fun hother hmem =>
      hother (Finset.mem_insert_of_mem hmem)
  · simp only [List.mem_cons, forall_eq_or_imp, Store.contains_insert]
    exact ⟨Or.inr trivial, fun other hother => Or.inl (h.kept other hother)⟩

end BuiltOnce

namespace Registry

variable {registry : Registry} {building : List String} {name : String}

/-- As many details as can be built inside each other, and one more. -/
def buildDepth (registry : Registry) : Nat :=
  Supply.left [] registry.linkNames + 1

theorem left_attached_rest (registry : Registry) (building : List String) (step : Step)
    (rest : List Step) :
    Supply.left building (Step.attached rest ++ registry.linkNames) ≤
      Supply.left building (Step.attached (step :: rest) ++ registry.linkNames) := by
  refine Supply.left_le fun other hother hnew => ⟨?_, hnew⟩
  cases step with
  | note event => exact hother
  | attach name chain swaps => exact List.mem_cons_of_mem _ hother

theorem left_attached_pos (registry : Registry) (hnew : name ∉ building) (chain : List String)
    (swaps : Entries Override) (rest : List Step) :
    0 < Supply.left building (Step.attached (.attach name chain swaps :: rest) ++
      registry.linkNames) := by
  have hmem : name ∈ Step.attached (.attach name chain swaps :: rest) ++ registry.linkNames :=
    List.mem_cons_self
  rw [Supply.left_eq_add_one hmem hnew]
  exact Nat.succ_pos _

/-- Inside a detail that is built there is one name less to be built. -/
theorem left_attached_inside (hnew : name ∉ building) {template : Template}
    (hfound : registry.detailOf? name = some template) (chain : List String)
    (swaps : Entries Override) (view : View) (rest : List Step) :
    Supply.left (name :: building) (Step.attached
        (registry.expandTemplate name template chain swaps view).steps ++ registry.linkNames) <
      Supply.left building (Step.attached (.attach name chain swaps :: rest) ++
        registry.linkNames) := by
  refine Supply.left_lt List.mem_cons_self hnew fun other hother hout => ?_
  rw [List.mem_cons, not_or] at hout
  refine ⟨List.mem_append_right _ ?_, hout.2, hout.1⟩
  rcases List.mem_append.mp hother with hasked | hlink
  · exact mem_linkNames_of_attached_expandTemplate (detailOf?_mem hfound) hasked
  · exact hlink

/-- A request asks only for details that the registry names. -/
theorem left_attached_le (registry : Registry) (building : List String) (steps : List Step)
    (h : ∀ other ∈ Step.attached steps, other ∈ registry.linkNames) :
    Supply.left building (Step.attached steps ++ registry.linkNames) + 1 ≤
      registry.buildDepth := by
  refine Nat.succ_le_succ (Supply.left_le fun other hother _ => ⟨?_, List.not_mem_nil⟩)
  exact (List.mem_append.mp hother).elim (h other) id

end Registry

namespace Resolver

section Steps

variable {registry : Registry} {build : Builder} {parent name : String} {resolver after : Resolver}
  {chain : List String} {swaps : Entries Override} {depth : Nat}

theorem attach_held (h : resolver.session.store.contains name ∨ name ∈ resolver.inProgress) :
    resolver.attach build parent name chain swaps =
      some (resolver.mapStore fun store => store.linked parent name) :=
  if_pos h

theorem attach_missing (h : ¬(resolver.session.store.contains name ∨ name ∈ resolver.inProgress))
    (hbuild : build resolver name chain swaps = some (none, after)) :
    resolver.attach build parent name chain swaps = some after := by
  rw [attach, if_neg h, hbuild]
  rfl

theorem attach_built (h : ¬(resolver.session.store.contains name ∨ name ∈ resolver.inProgress))
    {view : View} (hbuild : build resolver name chain swaps = some (some view, after)) :
    resolver.attach build parent name chain swaps =
      some (after.mapStore fun store => (store.insert name view).linked parent name) := by
  rw [attach, if_neg h, hbuild]
  rfl

theorem carryOut_attach {rest : List Step}
    (h : resolver.attach build parent name chain swaps = some after) :
    carryOut build parent resolver (.attach name chain swaps :: rest) =
      carryOut build parent after rest := by
  rw [carryOut, h]
  rfl

theorem buildWithin_missing (h : registry.detailOf? name = none) :
    buildWithin registry (depth + 1) resolver name chain swaps = some (none, resolver) := by
  simp only [buildWithin, buildWith, h]

theorem buildWithin_found {template : Template} (h : registry.detailOf? name = some template)
    (hsteps : carryOut (buildWithin registry depth) name (resolver.enter name)
      (registry.expandTemplate name template chain swaps
        (Registry.blankView resolver.session.properties)).steps = some after) :
    buildWithin registry (depth + 1) resolver name chain swaps =
      some (some (registry.expandTemplate name template chain swaps
        (Registry.blankView resolver.session.properties)).view, after.leave name) := by
  simp only [buildWithin, buildWith, h, hsteps]
  rfl

end Steps

variable {registry : Registry}

/-- A resolver carries out steps as a session does, finishes every detail that it begins, and
builds each of them once. -/
theorem carryOut_eq (properties : Entries Property) (parent : String) (building : List String)
    (store : Store) (steps : List Step) (depth : Nat) (inProgress : Finset String)
    (hbuilding : ∀ name, name ∈ inProgress ↔ name ∈ building) (expanded : List String)
    (hdepth : Supply.left building (Step.attached steps ++ registry.linkNames) ≤ depth) :
    let after := (registry.perform properties parent building store steps).store
    ∃ names, carryOut (buildWithin registry depth) parent
        ⟨⟨store, properties⟩, inProgress, expanded⟩ steps =
          some ⟨⟨after, properties⟩, inProgress, expanded ++ names⟩ ∧
      BuiltOnce store inProgress after names := by
  induction parent, building, store, steps using Registry.perform_induction registry properties
    generalizing depth inProgress expanded with
  -- the set always has the names that the session is building
  | nil parent building store =>
      exact ⟨[], by simp [carryOut, Registry.perform_nil], .nil⟩
  | note parent building store event rest ih =>
      simpa [carryOut, Registry.perform_note] using ih depth inProgress hbuilding expanded hdepth
  | held parent building store name chain swaps rest hheld ih =>
      obtain ⟨names, hrest, honce⟩ := ih _ inProgress hbuilding expanded
        ((registry.left_attached_rest building _ rest).trans hdepth)
      have hheld' : store.contains name ∨ name ∈ inProgress := hheld.imp_right (hbuilding name).mpr
      rw [Registry.perform_held hheld]
      refine ⟨names, ?_, honce.of_contains_eq (Store.contains_linked store parent name)⟩
      rw [carryOut_attach (attach_held hheld')]
      exact hrest
  | missing parent building store name chain swaps rest hheld hmissing ih =>
      obtain ⟨names, hrest, honce⟩ := ih _ inProgress hbuilding expanded
        ((registry.left_attached_rest building _ rest).trans hdepth)
      have hheld' : ¬(store.contains name ∨ name ∈ inProgress) := by rwa [hbuilding]
      -- the detail is new, so there is room to look for it
      have hroom := registry.left_attached_pos (not_or.mp hheld).2 chain swaps rest
      obtain ⟨depth, rfl⟩ : ∃ less, depth = less + 1 := ⟨depth - 1, by omega⟩
      rw [Registry.perform_missing hheld hmissing]
      refine ⟨names, ?_, honce⟩
      rw [carryOut_attach (attach_missing hheld' (buildWithin_missing hmissing))]
      exact hrest
  | build parent building store name chain swaps rest template hheld hfound ihInner ihRest =>
      have hheld' : ¬(store.contains name ∨ name ∈ inProgress) := by rwa [hbuilding]
      obtain ⟨hnew, hout⟩ := not_or.mp hheld'
      have hless := Registry.left_attached_inside (not_or.mp hheld).2 hfound chain swaps
        (Registry.blankView properties) rest
      obtain ⟨depth, rfl⟩ : ∃ less, depth = less + 1 := ⟨depth - 1, by omega⟩
      obtain ⟨inside, hinside, honceInside⟩ := ihInner depth (insert name inProgress)
        (by simp [hbuilding]) (expanded ++ [name]) (by omega)
      obtain ⟨names, hrest, honce⟩ := ihRest _ inProgress hbuilding (expanded ++ [name] ++ inside)
        ((registry.left_attached_rest building _ rest).trans hdepth)
      rw [Registry.perform_build hheld hfound]
      refine ⟨name :: inside ++ names, ?_, ?_⟩
      · rw [carryOut_attach (attach_built hheld' (buildWithin_found hfound hinside))]
        -- the detail is taken out of the set that it was put into
        simp only [leave, mapStore, Finset.erase_insert hout]
        rw [hrest]
        simp only [List.append_assoc, List.cons_append, List.nil_append]
      · -- the view is kept after those inside it, and before the rest
        have hname := (honceInside.of_contains_eq (store.contains_resetNavigation name)).cons hnew
          hout (registry.expandTemplate name template chain swaps
            (Registry.blankView properties)).view
        refine hname.append (honce.of_contains_eq (Store.contains_linked _ parent name))
          (fun other hother => ?_) fun other hother => ?_
        · rw [Store.contains_insert]
          exact Or.inl (Registry.contains_perform_of_contains (by simpa using hother))
        · exact Registry.contains_perform_of_contains (by simpa using hother)

/-! ### Whole requests -/

variable {depth : Nat}

theorem resolveArchitecture_eq (hdepth : registry.buildDepth ≤ depth) (session : Session)
    (expanded : List String) (name : String) :
    let answer := session.resolveArchitecture registry name
    ∃ names, resolveArchitecture registry (buildWithin registry depth)
        ⟨session, ∅, expanded⟩ name = some (answer.view, ⟨answer.session, ∅, expanded ++ names⟩) ∧
      BuiltOnce session.store ∅ answer.session.store names := by
  cases hfound : registry.architecture? name with
  | none => exact ⟨[], by simp [resolveArchitecture, Session.resolveArchitecture, hfound], .nil⟩
  | some architecture =>
      have hroom := registry.left_attached_le []
        (registry.expandEntries View.empty architecture.entries).steps
        fun other => Registry.mem_linkNames_of_attached_expandEntries
      obtain ⟨names, hrun, honce⟩ := carryOut_eq architecture.properties name []
        (session.store.resetNavigation name) _ depth ∅ (by simp) expanded
        ((Nat.le_succ _).trans (hroom.trans hdepth))
      refine ⟨names, ?_, ?_⟩
      · simp only [resolveArchitecture, Session.resolveArchitecture, hfound, hrun]
        rfl
      · simp only [Session.resolveArchitecture, hfound]
        exact honce.of_contains_eq (session.store.contains_resetNavigation name)

/-- A detail that the registry has is expanded itself, and then those inside it. -/
theorem buildWithin_eq (hdepth : registry.buildDepth ≤ depth) (session : Session)
    (expanded : List String) (name : String) (overrides : Entries Override) :
    let answer := session.resolveDetail registry name overrides
    ∃ names, buildWithin registry depth ⟨session, ∅, expanded⟩ name [] overrides =
        some (answer.view, ⟨answer.session, ∅, expanded ++ names⟩) ∧
      (answer.view = none ∧ names = [] ∨ ∃ view inside, answer.view = some view ∧
        names = name :: inside ∧
        BuiltOnce session.store (insert name ∅) answer.session.store inside) := by
  obtain ⟨depth, rfl⟩ : ∃ less, depth = less + 1 :=
    ⟨depth - 1, by rw [Registry.buildDepth] at hdepth; omega⟩
  cases hfound : registry.detailOf? name with
  | none =>
      rw [buildWithin_missing hfound]
      simp [Session.resolveDetail, hfound]
  | some template =>
      have hroom := registry.left_attached_le [name]
        (registry.expandTemplate name template [] overrides
          (Registry.blankView session.properties)).steps
        fun other => Registry.mem_linkNames_of_attached_expandTemplate
          (Registry.detailOf?_mem hfound)
      obtain ⟨inside, hrun, honce⟩ := carryOut_eq session.properties name [name]
        (session.store.resetNavigation name) _ depth (insert name ∅) (by simp)
        (expanded ++ [name]) (Nat.le_of_succ_le_succ (hroom.trans hdepth))
      refine ⟨name :: inside, ?_,
        Or.inr ⟨_, inside, by rw [Session.resolveDetail, hfound], rfl, ?_⟩⟩
      · rw [buildWithin_found hfound hrun]
        simp [Session.resolveDetail, hfound, leave]
      · simp only [Session.resolveDetail, hfound]
        exact honce.of_contains_eq (session.store.contains_resetNavigation name)

theorem viewOf_eq (hdepth : registry.buildDepth ≤ depth) (session : Session)
    (expanded : List String) (name : String) :
    let answer := session.viewOf registry name
    ∃ names, viewOf registry (buildWithin registry depth) ⟨session, ∅, expanded⟩ name =
        some (answer.view, ⟨answer.session, ∅, expanded ++ names⟩) ∧
      BuiltOnce session.store ∅ answer.session.store names := by
  cases hkept : session.store.get? name with
  | some view => exact ⟨[], by simp [viewOf, Session.viewOf, hkept], .nil⟩
  | none =>
      have hnew := Store.not_contains_iff.mpr hkept
      by_cases harchitecture : (registry.architecture? name).isSome
      · obtain ⟨names, hrun, honce⟩ := resolveArchitecture_eq hdepth session expanded name
        refine ⟨names, ?_, ?_⟩
        · simp [viewOf, Session.viewOf, Session.resolve, hkept, harchitecture, hrun, mapStore]
        · simpa [Session.viewOf, Session.resolve, hkept, harchitecture] using honce.keep name _
      · obtain ⟨names, hrun, hbuilt⟩ := buildWithin_eq hdepth session expanded name []
        rcases hbuilt with ⟨hview, rfl⟩ | ⟨view, inside, hview, rfl, honce⟩
        · refine ⟨[], ?_, .nil⟩
          simp [viewOf, Session.viewOf, Session.resolve, hkept, harchitecture, hrun, hview]
        · refine ⟨name :: inside, ?_, ?_⟩
          · simp [viewOf, Session.viewOf, Session.resolve, hkept, harchitecture, hrun, hview,
              mapStore]
          · -- the detail itself was not kept, or it would not have been opened
            simpa [Session.viewOf, Session.resolve, hkept, harchitecture, hview] using
              honce.cons hnew (Finset.notMem_empty name) view

/-- A resolver serves a request as the session does. -/
theorem serve_eq (hdepth : registry.buildDepth ≤ depth) (session : Session)
    (expanded : List String) (request : Request) :
    let answer := session.serve registry request
    ∃ names, serve registry depth ⟨session, ∅, expanded⟩ request =
        some (answer.view, ⟨answer.session, ∅, expanded ++ names⟩) ∧
      names.Nodup ∧
      (request.Opens → BuiltOnce session.store ∅ answer.session.store names) := by
  cases request with
  | architecture name =>
      obtain ⟨names, hrun, honce⟩ := resolveArchitecture_eq hdepth session expanded name
      exact ⟨names, by simp [serve, serveWith, Session.serve, hrun], honce.nodup, False.elim⟩
  | detail name overrides =>
      obtain ⟨names, hrun, hbuilt⟩ := buildWithin_eq hdepth session expanded name overrides
      refine ⟨names, hrun, ?_, False.elim⟩
      rcases hbuilt with ⟨-, rfl⟩ | ⟨-, inside, -, rfl, honce⟩
      · exact List.nodup_nil
      · -- the detail itself is in progress while those inside it are built
        exact List.nodup_cons.mpr ⟨fun hmem => (honce.new name hmem).2 (by simp), honce.nodup⟩
  | view name =>
      obtain ⟨names, hrun, honce⟩ := viewOf_eq hdepth session expanded name
      exact ⟨names, hrun, honce.nodup, fun _ => honce⟩
  | renew => exact ⟨[], by simp [serve, serveWith, Session.serve], List.nodup_nil, fun _ => .nil⟩

/-- A resolver that is only asked for views to keep builds each of them once. -/
theorem serveAll_eq (hdepth : registry.buildDepth ≤ depth) (session : Session)
    (expanded : List String) {requests : List Request}
    (hrequests : ∀ request ∈ requests, request.Opens) :
    let answer := session.serveAll registry requests
    ∃ names, serveAll registry depth ⟨session, ∅, expanded⟩ requests =
        some (answer.view, ⟨answer.session, ∅, expanded ++ names⟩) ∧
      BuiltOnce session.store ∅ answer.session.store names := by
  induction requests generalizing session expanded with
  | nil => exact ⟨[], by simp [serveAll, Session.serveAll], .nil⟩
  | cons request rest ih =>
      obtain ⟨first, hfirst, -, honce⟩ := serve_eq hdepth session expanded request
      obtain ⟨others, hrest, honceRest⟩ := ih (session.serve registry request).session
        (expanded ++ first) fun request hmem => hrequests request (List.mem_cons_of_mem _ hmem)
      refine ⟨first ++ others, ?_, ?_⟩
      · -- the second run begins where the first one has left the set, empty
        simp only [serveAll, hfirst, Option.bind_eq_bind, Option.bind_some, hrest]
        simp [Session.serveAll]
      · exact (honce (hrequests request List.mem_cons_self)).append honceRest
          (fun _ => (session.extends_serve registry request).contains)
          fun _ => Session.contains_serveAll

end Resolver

namespace Session

/-- Serving a request changes no view that is kept, and the list of none of them but the one that
is asked for; if the registry does not have what is asked for, it changes nothing at all. It ends
with no detail in progress and expands each detail at most once. However many views a session is
asked to keep, it expands each detail at most once in all. -/
theorem expandsOnce_serve (session : Session) (registry : Registry) :
    (∀ request : Request,
      let answer := session.serve registry request
      (∀ name view, session.store.get? name = some view →
        answer.session.store.get? name = some view) ∧
      (∀ name, session.store.contains name → name ∉ request.names →
        answer.session.store.navigation.lookup name = session.store.navigation.lookup name) ∧
      (request.Misses registry → answer.session.store = session.store) ∧
      ∀ depth, registry.buildDepth ≤ depth → ∃ expanded,
        (Resolver.idle session).serve registry depth request =
          some (answer.view, ⟨answer.session, ∅, expanded⟩) ∧ expanded.Nodup) ∧
    ∀ requests : List Request, (∀ request ∈ requests, request.Opens) →
      let answer := session.serveAll registry requests
      ∀ depth, registry.buildDepth ≤ depth → ∃ expanded,
        (Resolver.idle session).serveAll registry depth requests =
          some (answer.view, ⟨answer.session, ∅, expanded⟩) ∧ expanded.Nodup := by
  refine ⟨fun request => ?_, fun requests hrequests depth hdepth => ?_⟩
  -- one request, of any kind
  · have hextends := session.extends_serve registry request
    refine ⟨hextends.views, hextends.lists, fun hmisses => ?_, fun depth hdepth => ?_⟩
    · rw [serve_of_misses hmisses]
    · obtain ⟨names, hrun, hnodup, -⟩ := Resolver.serve_eq hdepth session [] request
      exact ⟨names, hrun, hnodup⟩
  -- requests for views to keep
  · obtain ⟨names, hrun, honce⟩ := Resolver.serveAll_eq hdepth session [] hrequests
    exact ⟨names, hrun, honce.nodup⟩

/-- Two details that open each other are each built once, also when the second one is asked for
afterwards. A detail that there is not leaves no trace. -/
theorem expandsOnce_circular :
    let session : Session := ⟨Store.empty, []⟩
    let requests : List Request := [.view "plan", .renew, .view "pong"]
    let answer := session.serveAll .circular requests
    (Request.detail "annex" []).Misses .circular ∧
      (session.serve .circular (.detail "annex" [])).session.store = session.store ∧
      (∀ request ∈ requests, request.Opens) ∧ Registry.circular.buildDepth ≤ 3 ∧
      ∃ expanded, (Resolver.idle session).serveAll .circular 3 requests =
        some (answer.view, ⟨answer.session, ∅, expanded⟩) ∧ expanded.Nodup := by
  intro session requests answer
  have hmisses : (Request.detail "annex" []).Misses .circular := by
    show Registry.circular.detailOf? "annex" = none
    decide +kernel
  have hopens : ∀ request ∈ requests, request.Opens := by simp [requests, Request.Opens]
  have hdepth : Registry.circular.buildDepth ≤ 3 := by decide +kernel
  obtain ⟨hone, hall⟩ := session.expandsOnce_serve .circular
  exact ⟨hmisses, (hone (.detail "annex" [])).2.2.1 hmisses, hopens, hdepth,
    hall requests hopens 3 hdepth⟩

end Session

end ArchDiagram

/-
# Documents forget empty overrides

A swap with an empty list of overrides is written like a swap without overrides, and read
back as one (`print_pruned`). Nothing else is lost of architectures that can be written, and
this changes no diagram, because an expansion looks at nothing but the swaps of its overrides
(`Session.resolves_by_swaps`).
-/

import ArchDiagram.Proofs.Document.RoundTrip
import ArchDiagram.Proofs.Entries
import ArchDiagram.Proofs.SwapTables

namespace ArchDiagram

/-! ## Dropping empty overrides -/

namespace Override

mutual

/-- An entry without its empty lists of overrides, at any depth. -/
def pruned : Override → Override
  | .nested children => .nested (prunedBlock children)
  | .swap replacement none => .swap replacement none
  | .swap replacement (some overrides) =>
      .swap replacement (if overrides.isEmpty then none else some (prunedBlock overrides))
  | .default => .default
  | .references listed => .references listed
  | .properties listed => .properties listed
  | .settings listed => .settings listed

/-- The same of a block of entries. -/
def prunedBlock : List (String × Override) → List (String × Override)
  | [] => []
  | (key, entry) :: rest => (key, entry.pruned) :: prunedBlock rest

end

theorem prunedBlock_eq_map (entries : Entries Override) :
    prunedBlock entries = entries.map fun entry => (entry.1, entry.2.pruned) := by
  induction entries with
  | nil => rfl
  | cons entry rest ih => rw [prunedBlock, ih, List.map_cons]

mutual

/-- Dropping empty overrides leaves the swaps as they are. -/
theorem swap?_pruned : ∀ entry : Override, entry.pruned.swap? = entry.swap?
  | .swap replacement none => rfl
  | .swap replacement (some overrides) => by
      rw [pruned]
      split
      · rename_i hempty
        rw [List.isEmpty_iff.mp hempty]
        rfl
      · rw [swap?, swap?, swapTable_prunedBlock overrides]
  | .default | .nested _ | .references _ | .properties _ | .settings _ => rfl

theorem swapTable_prunedBlock :
    ∀ entries : List (String × Override), swapTable (prunedBlock entries) = swapTable entries
  | [] => rfl
  | (key, entry) :: rest => by
      rw [prunedBlock, swapTable, swapTable, swap?_pruned entry, swapTable_prunedBlock rest]

end

theorem alike_pruned (entry : String × Override) : Alike entry (entry.1, entry.2.pruned) := by
  obtain ⟨key, entry⟩ := entry
  cases entry with
  | default | references | properties | settings => exact .same _
  | nested children => exact .component rfl rfl (swapTable_prunedBlock children).symm
  | swap replacement overrides =>
      cases overrides with
      | none => exact .same _
      | some overrides =>
          refine .component rfl rfl ?_
          split
          · rename_i hempty
            rw [List.isEmpty_iff.mp hempty]
            rfl
          · exact (swapTable_prunedBlock overrides).symm

end Override

/-- An architecture without its empty lists of overrides. -/
def Architecture.pruned (architecture : Architecture) : Architecture :=
  ⟨Override.prunedBlock architecture.entries⟩

theorem Architecture.alike_pruned (architecture : Architecture) :
    architecture.Alike architecture.pruned := by
  rw [Alike, pruned, Override.prunedBlock_eq_map, List.forall₂_map_right_iff,
    List.forall₂_same]
  exact fun entry _ => Override.alike_pruned entry

/-- Architectures without their empty lists of overrides. -/
def Architectures.pruned (architectures : Architectures) : Architectures :=
  architectures.map fun entry => (entry.1, entry.2.pruned)

/-! ## Writing them -/

namespace Document

mutual

theorem entryPieces_pruned (width : ℕ) : ∀ (depth : ℕ) (key : String) (entry : Override),
    entryPieces width depth key entry.pruned = entryPieces width depth key entry
  | depth, key, .nested children => by
      rw [Override.pruned, entryPieces, entryPieces, blockPieces_pruned width _ children]
  | depth, key, .swap replacement none => rfl
  | depth, key, .swap replacement (some overrides) => by
      rw [Override.pruned]
      split
      -- an empty block has no lines
      · rename_i hempty
        rw [List.isEmpty_iff.mp hempty]
        simp only [entryPieces, blockPieces]
      · rw [entryPieces, entryPieces, blockPieces_pruned width _ overrides]
  | depth, key, .default => rfl
  | depth, key, .references _ => rfl
  | depth, key, .properties _ => rfl
  | depth, key, .settings _ => rfl

theorem blockPieces_pruned (width : ℕ) : ∀ (depth : ℕ) (entries : List (String × Override)),
    blockPieces width depth (Override.prunedBlock entries) = blockPieces width depth entries
  | depth, [] => rfl
  | depth, (key, entry) :: rest => by
      rw [Override.prunedBlock, blockPieces, blockPieces, entryPieces_pruned width depth key entry,
        blockPieces_pruned width depth rest]

end

theorem architecturePieces_pruned (indent : ℕ) (name : String) (architecture : Architecture) :
    architecturePieces indent name architecture.pruned =
      architecturePieces indent name architecture := by
  have hempty : architecture.pruned.entries.isEmpty = architecture.entries.isEmpty := by
    rw [Architecture.pruned, Override.prunedBlock_eq_map, List.isEmpty_map]
  rw [architecturePieces, architecturePieces, hempty, Architecture.pruned, blockPieces_pruned]

/-- Architectures are written as if they had no empty overrides. -/
theorem print_pruned (indent : ℕ) (architectures : Architectures) :
    print indent architectures.pruned = print indent architectures := by
  simp [print, Architectures.pruned, architecturePieces_pruned, Function.comp_def]

/-- What is written is read back without empty overrides. -/
theorem parse_print_pruned (indent : ℕ) {architectures : Architectures} (hne : architectures ≠ [])
    (h : architectures.pruned.Expressible) :
    ∃ text, (print indent architectures).text = .ok text ∧
      parse text = .ok architectures.pruned := by
  rw [← print_pruned]
  exact parse_print indent (by simpa [Architectures.pruned] using hne) h

end Document

/-! ## What resolving depends on -/

namespace Session

variable (session : Session) (registry : Registry) (name : String)

theorem same_resolveArchitecture_pruned (architectures : Architectures) :
    (session.resolveArchitecture { registry with architectures } name).Same
      (session.resolveArchitecture { registry with architectures := architectures.pruned }
        name) := by
  refine same_resolveArchitecture session _ name rfl rfl ?_
  have hpruned : Registry.architecture? { registry with architectures := architectures.pruned }
      name = (architectures.lookup name).map Architecture.pruned :=
    Entries.lookup_map Architecture.pruned architectures name
  rw [hpruned, Registry.architecture?]
  cases architectures.lookup name with
  | none => exact .none
  | some architecture => exact .some architecture.alike_pruned

/-- Resolving depends on nothing but the swaps among overrides, whatever their order and what
stands between them. Details under the same swaps are the same and leave the same session, and
so are the views of architectures whose entries expand the same components under the same
swaps. In particular a diagram stays the same without its empty overrides, and these are all
that is lost when it is written and read back. -/
theorem resolves_by_swaps :
    (∀ overrides overrides' : Option (Entries Override),
      Override.swapTable (overrides.getD []) = Override.swapTable (overrides'.getD []) →
      (session.resolveDetail registry name (overrides.getD [])).Same
        (session.resolveDetail registry name (overrides'.getD []))) ∧
    (∀ other : Registry, other.components = registry.components →
      other.details = registry.details →
      Option.Rel Architecture.Alike (registry.architecture? name) (other.architecture? name) →
      (session.resolveArchitecture registry name).Same
        (session.resolveArchitecture other name)) ∧
    ∀ architectures : Architectures,
      (session.resolveArchitecture { registry with architectures } name).Same
        (session.resolveArchitecture { registry with architectures := architectures.pruned }
          name) ∧
      (architectures ≠ [] → architectures.pruned.Expressible → ∀ indent, ∃ text,
        (Document.print indent architectures).text = .ok text ∧
          Document.parse text = .ok architectures.pruned) :=
  ⟨fun _ _ htable => session.same_resolveDetail registry name htable,
    fun _ hcomponents hdetails halike =>
      session.same_resolveArchitecture registry name hcomponents hdetails halike,
    fun architectures => ⟨session.same_resolveArchitecture_pruned registry name architectures,
      fun hne hexpressible indent => Document.parse_print_pruned indent hne hexpressible⟩⟩

end Session

/-- A swap for the attention of a block, in front of an override that is no swap. -/
def Override.grouped : Entries Override :=
  [("attention", .swap "gqa" none), ("norm", .default)]

/-- The same swap behind another override, with one of its own that is no swap. -/
def Override.regrouped : Entries Override :=
  [("norm", .nested []), ("attention", .swap "gqa" (some [("heads", .default)]))]

theorem Override.swapTable_grouped : swapTable grouped = swapTable regrouped := by
  have hheads : swapTable [("heads", .default)] = swapTable [] :=
    swapTable_cons_of_not_swap rfl List.not_mem_nil
  have hswap : (Override.swap "gqa" none).swap? =
      (Override.swap "gqa" (some [("heads", .default)])).swap? := by
    rw [swap?_swap, swap?_swap, Option.getD_none, Option.getD_some, hheads]
  calc swapTable grouped
      = swapTable [("norm", .default), ("attention", .swap "gqa" none)] :=
        swapTable_eq_of_perm (by decide) (.swap _ _ _)
    _ = swapTable [("attention", .swap "gqa" none)] :=
        swapTable_cons_of_not_swap rfl (by decide)
    _ = swapTable [("attention", .swap "gqa" (some [("heads", .default)]))] :=
        swapTable_cons_congr hswap "attention" []
    _ = swapTable regrouped :=
        (swapTable_cons_of_not_swap rfl (by decide)).symm

/-- The diagram of the blocks, written with more overrides than it needs. -/
def Architectures.wordy : Architectures :=
  [("top", ⟨[("block", .nested [("attention", .swap "gqa" (some []))]), ("block_1", .nested [])]⟩)]

/-- Both ways to swap the attention show the same box in the block, and the wordy diagram shows
what the short one does, before it is written and after. -/
theorem Session.resolves_by_swaps_blocks :
    let session := start Store.empty
    (session.resolveDetail .blocks "block" Override.grouped).view.map
        (fun view => view.content.names) = some ["block_in", "gqa_box"] ∧
      (session.resolveDetail .blocks "block" Override.grouped).Same
        (session.resolveDetail .blocks "block" Override.regrouped) ∧
      (session.resolveArchitecture .blocks "top").view.content.names =
        ["block_in", "gqa_box", "block_1_in", "mha_box"] ∧
      (session.resolveArchitecture .blocks "top").Same
        (session.resolveArchitecture { Registry.blocks with architectures := .wordy } "top") ∧
      (session.resolveArchitecture { Registry.blocks with architectures := .wordy } "top").Same
        (session.resolveArchitecture
          { Registry.blocks with architectures := Architectures.wordy.pruned } "top") ∧
      ∃ text, (Document.print 2 .wordy).text = .ok text ∧
        Document.parse text = .ok Architectures.wordy.pruned := by
  intro session
  have halike : Option.Rel Architecture.Alike (Registry.blocks.architecture? "top")
      (Registry.architecture? { Registry.blocks with architectures := .wordy } "top") :=
    .some (.cons (.component rfl rfl rfl) (.cons (.component rfl rfl rfl) .nil))
  obtain ⟨hresolved, hwritten⟩ := (resolves_by_swaps session .blocks "top").2.2 .wordy
  refine ⟨eq_of_resolveDetailWithin
      (fun answer => answer.view.map fun view => view.content.names) (by decide +kernel),
    (resolves_by_swaps session .blocks "block").1 (some Override.grouped)
      (some Override.regrouped) Override.swapTable_grouped,
    eq_of_resolveArchitectureWithin (fun answer => answer.view.content.names)
      (by decide +kernel),
    (resolves_by_swaps session .blocks "top").2.1 _ rfl rfl halike, hresolved,
    hwritten (List.cons_ne_nil _ _) (by decide +kernel) 2⟩

end ArchDiagram

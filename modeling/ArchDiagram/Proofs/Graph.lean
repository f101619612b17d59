/-
# Cycles of a graph

A walk lists what can be reached along the edges and nothing else (`mem_reachable_iff`): a
node is listed once everything that it leads to has been entered. So each cycle consists of
the nodes that reach a node and are reached from it (`exists_node_of_mem_cycles`), and the
cycles together have exactly the nodes from which a way leads back to themselves
(`exists_mem_cycles_iff`). Each such node is listed in one cycle only and once there
(`pairwise_disjoint_cycles`, `nodup_of_mem_cycles`). The cycles of a given graph can be
evaluated by walks of a bounded number of steps (`cycles_eq_of_cyclesWithin`).
-/

import ArchDiagram.Graph
import Mathlib.Data.List.Basic
import Mathlib.Logic.Relation

namespace ArchDiagram.Graph

open Relation

variable {graph : Graph} {entered : List String} {tasks : List Task} {node other : String}

/-- An edge leads from a node to one of its successors. Names that are no nodes are passed
over. -/
def Edge (graph : Graph) (node other : String) : Prop :=
  other ∈ graph.successors node ∧ other ∈ graph.nodes

/-! ## Walks -/

/-- A walk lists only what it has to leave and what can be reached from what it has to
enter. -/
theorem leaves_or_reaches_of_mem_walk (h : other ∈ graph.walk entered tasks) :
    .leave other ∈ tasks ∨
      ∃ node, .enter node ∈ tasks ∧ node ∈ graph.nodes ∧ ReflTransGen graph.Edge node other := by
  fun_induction walk graph entered tasks with
  | case1 => simp at h
  | case2 entered node rest ih =>
      rcases List.mem_cons.mp h with rfl | h
      · exact Or.inl List.mem_cons_self
      · refine (ih h).imp (List.mem_cons_of_mem _) ?_
        rintro ⟨start, hstart, hreach⟩
        exact ⟨start, List.mem_cons_of_mem _ hstart, hreach⟩
  | case3 entered node rest hnode ih =>
      rcases ih h with hleave | ⟨start, hstart, hstartNode, hreach⟩
      · simp only [List.mem_append, List.mem_map, List.mem_cons, reduceCtorEq, and_false,
          exists_false, false_or, Task.leave.injEq] at hleave
        rcases hleave with rfl | hleave
        · exact Or.inr ⟨other, List.mem_cons_self, hnode.1, .refl⟩
        · exact Or.inl (List.mem_cons_of_mem _ hleave)
      · refine Or.inr ?_
        simp only [List.mem_append, List.mem_map, List.mem_cons, reduceCtorEq, false_or,
          Task.enter.injEq, exists_eq_right] at hstart
        -- a successor of the node is reached from the node itself
        rcases hstart with hsuccessor | hrest
        · exact ⟨node, List.mem_cons_self, hnode.1, .head ⟨hsuccessor, hstartNode⟩ hreach⟩
        · exact ⟨start, List.mem_cons_of_mem _ hrest, hstartNode, hreach⟩
  | case4 entered node rest hnode ih =>
      refine (ih h).imp (List.mem_cons_of_mem _) ?_
      rintro ⟨start, hstart, hreach⟩
      exact ⟨start, List.mem_cons_of_mem _ hstart, hreach⟩

theorem mem_walk_of_leave (h : .leave node ∈ tasks) : node ∈ graph.walk entered tasks := by
  fun_induction walk graph entered tasks with
  | case1 => simp at h
  | case2 entered first rest ih =>
      rcases List.mem_cons.mp h with heq | h
      · obtain rfl := Task.leave.inj heq
        exact List.mem_cons_self
      · exact List.mem_cons_of_mem _ (ih h)
  | case3 entered first rest hfirst ih =>
      apply ih
      exact List.mem_append_right _ (List.mem_cons_of_mem _ (by simpa using h))
  | case4 entered first rest hfirst ih => exact ih (by simpa using h)

/-- A node that is to be entered is entered before the walk or listed by it. -/
theorem mem_walk_of_enter (hnode : node ∈ graph.nodes) (h : .enter node ∈ tasks) :
    node ∈ entered ∨ node ∈ graph.walk entered tasks := by
  fun_induction walk graph entered tasks with
  | case1 => simp at h
  | case2 entered first rest ih =>
      exact (ih (by simpa using h)).imp_right (List.mem_cons_of_mem _)
  | case3 entered first rest hfirst ih =>
      by_cases heq : node = first
      · subst heq
        exact Or.inr (mem_walk_of_leave (by simp))
      · have hrest : .enter node ∈ rest := by simpa [heq] using h
        refine (ih (by simp [hrest])).imp_left fun hmem => ?_
        exact (List.mem_cons.mp hmem).resolve_left heq
  | case4 entered first rest hfirst ih =>
      rcases List.mem_cons.mp h with heq | h
      · obtain rfl := Task.enter.inj heq
        exact Or.inl (not_not.mp fun hnew => hfirst ⟨hnode, hnew⟩)
      · exact ih h

/-- What an edge leads to from a node that a walk enters and lists is entered or listed as
well. -/
theorem mem_walk_of_edge (h : node ∈ graph.walk entered tasks) (hnew : .leave node ∉ tasks)
    (hedge : graph.Edge node other) : other ∈ entered ∨ other ∈ graph.walk entered tasks := by
  fun_induction walk graph entered tasks with
  | case1 => simp at h
  | case2 entered first rest ih =>
      have hne : node ≠ first := fun heq => hnew (heq ▸ List.mem_cons_self)
      have hrest := (List.mem_cons.mp h).resolve_left hne
      exact (ih hrest fun hmem => hnew (List.mem_cons_of_mem _ hmem)).imp_right
        (List.mem_cons_of_mem _)
  | case3 entered first rest hfirst ih =>
      set inner := (graph.successors first).map .enter ++ .leave first :: rest with hinner
      have hlisted : first ∈ graph.walk (first :: entered) inner :=
        mem_walk_of_leave (by simp [hinner])
      -- the node has been entered just now, or it is entered later on
      have hafter : other ∈ first :: entered ∨ other ∈ graph.walk (first :: entered) inner := by
        by_cases heq : node = first
        · subst heq
          exact mem_walk_of_enter hedge.2 (by simp [hinner, hedge.1])
        · refine ih h fun hleave => hnew ?_
          simpa [hinner, heq] using hleave
      rcases hafter with hmem | hmem
      · rcases List.mem_cons.mp hmem with rfl | hmem
        · exact Or.inr hlisted
        · exact Or.inl hmem
      · exact Or.inr hmem
  | case4 entered first rest hfirst ih =>
      exact ih h fun hmem => hnew (List.mem_cons_of_mem _ hmem)

/-- What can be reached from a node is what one or more edges lead to. -/
theorem mem_reachable_iff : other ∈ graph.reachable node ↔ TransGen graph.Edge node other := by
  have hleave (x : String) : .leave x ∉ (graph.successors node).map Task.enter := by simp
  have henter {x : String} (hedge : graph.Edge node x) : x ∈ graph.reachable node :=
    (mem_walk_of_enter hedge.2 (List.mem_map_of_mem hedge.1)).resolve_left List.not_mem_nil
  constructor
  · intro h
    obtain ⟨start, hstart, hnode, hreach⟩ :=
      (leaves_or_reaches_of_mem_walk h).resolve_left (hleave other)
    have hsuccessor : start ∈ graph.successors node := by simpa using hstart
    exact TransGen.head'_iff.mpr ⟨start, ⟨hsuccessor, hnode⟩, hreach⟩
  · intro h
    induction h with
    | single hedge => exact henter hedge
    | tail _ hedge ih =>
        exact (mem_walk_of_edge ih (hleave _) hedge).resolve_left List.not_mem_nil

theorem mem_postOrder (h : node ∈ graph.nodes) : node ∈ graph.postOrder :=
  (mem_walk_of_enter h (List.mem_map_of_mem h)).resolve_left List.not_mem_nil

/-- What a walk lists is to be left, or it is entered on the way. -/
theorem leave_or_notMem_of_mem_walk (h : other ∈ graph.walk entered tasks) :
    .leave other ∈ tasks ∨ other ∉ entered := by
  fun_induction walk graph entered tasks with
  | case1 => simp at h
  | case2 entered node rest ih =>
      rcases List.mem_cons.mp h with rfl | h
      · exact Or.inl List.mem_cons_self
      · exact (ih h).imp_left (List.mem_cons_of_mem _)
  | case3 entered node rest hnode ih =>
      rcases ih h with hleave | hnew
      · simp only [List.mem_append, List.mem_map, List.mem_cons, reduceCtorEq, and_false,
          exists_false, false_or, Task.leave.injEq] at hleave
        rcases hleave with rfl | hleave
        · exact Or.inr hnode.2
        · exact Or.inl (List.mem_cons_of_mem _ hleave)
      · exact Or.inr fun hmem => hnew (List.mem_cons_of_mem _ hmem)
  | case4 entered node rest hnode ih => exact (ih h).imp_left (List.mem_cons_of_mem _)

/-- A walk lists nothing twice if it has to leave different nodes, all of which have been
entered. -/
theorem nodup_walk (hentered : ∀ node, .leave node ∈ tasks → node ∈ entered)
    (htasks : tasks.Pairwise fun task later => ∀ node, task = .leave node → later ≠ .leave node) :
    (graph.walk entered tasks).Nodup := by
  fun_induction walk graph entered tasks with
  | case1 => exact List.nodup_nil
  | case2 entered node rest ih =>
      obtain ⟨hfirst, hrest⟩ := List.pairwise_cons.mp htasks
      have hlater := fun other hother => hentered other (List.mem_cons_of_mem _ hother)
      refine List.nodup_cons.mpr ⟨fun hmem => ?_, ih hlater hrest⟩
      rcases leave_or_notMem_of_mem_walk hmem with hleave | hnew
      · exact hfirst _ hleave node rfl rfl
      · exact hnew (hentered node List.mem_cons_self)
  | case3 entered node rest hnode ih =>
      obtain ⟨-, hrest⟩ := List.pairwise_cons.mp htasks
      have hold (other : String) (hother : .leave other ∈ rest) : other ∈ entered :=
        hentered other (List.mem_cons_of_mem _ hother)
      apply ih
      · intro other hother
        simp only [List.mem_append, List.mem_map, List.mem_cons, reduceCtorEq, and_false,
          exists_false, false_or, Task.leave.injEq] at hother
        rcases hother with rfl | hother
        · exact List.mem_cons_self
        · exact List.mem_cons_of_mem _ (hold other hother)
      · -- the node is new, so it is none of those that are still to be left
        refine List.pairwise_append.mpr ⟨?_, List.pairwise_cons.mpr ⟨?_, hrest⟩, ?_⟩
        · exact List.pairwise_map.mpr (List.pairwise_of_forall fun _ _ _ => nofun)
        · rintro later hlater other ⟨⟩ rfl
          exact hnode.2 (hold node hlater)
        · rintro task htask later - other rfl
          simp at htask
  | case4 entered node rest hnode ih =>
      obtain ⟨-, hrest⟩ := List.pairwise_cons.mp htasks
      exact ih (fun other hother => hentered other (List.mem_cons_of_mem _ hother)) hrest

theorem nodup_walk_enter (graph : Graph) (names : List String) :
    (graph.walk [] (names.map .enter)).Nodup := by
  apply nodup_walk
  · simp
  · exact List.pairwise_map.mpr (List.pairwise_of_forall fun _ _ _ => nofun)

/-! ## Cycles -/

theorem successors_closure (h : node ∈ graph.nodes) :
    graph.closure.successors node = graph.reachable node := by
  rw [successors, closure, List.lookup_graph _ h]
  rfl

theorem mem_nodes_of_transGen (h : TransGen graph.Edge node other) : other ∈ graph.nodes := by
  cases h with
  | single hedge => exact hedge.2
  | tail _ hedge => exact hedge.2

/-- The cycle of a node has the nodes that it reaches and that reach it. -/
theorem mem_cycleOf_iff (hnode : node ∈ graph.nodes) :
    other ∈ cycleOf graph.closure node ↔
      TransGen graph.Edge node other ∧ TransGen graph.Edge other node := by
  simp only [cycleOf, successors_closure hnode]
  constructor
  · intro h
    split at h
    · obtain ⟨hother, hback⟩ := List.mem_filter.mp h
      rw [mem_reachable_iff] at hother
      refine ⟨hother, ?_⟩
      rw [decide_eq_true_eq, successors_closure (mem_nodes_of_transGen hother)] at hback
      exact mem_reachable_iff.mp hback
    · simp at h
  · rintro ⟨hother, hback⟩
    rw [if_pos (mem_reachable_iff.mpr (hother.trans hback)), List.mem_filter, decide_eq_true_eq,
      successors_closure (mem_nodes_of_transGen hother)]
    exact ⟨mem_reachable_iff.mpr hother, mem_reachable_iff.mpr hback⟩

theorem exists_of_mem_cyclesAmong {closure : Graph} {nodes members : List String}
    (h : members ∈ closure.cyclesAmong nodes) : ∃ node ∈ nodes, members = closure.cycleOf node := by
  induction nodes with
  | nil => simp [cyclesAmong] at h
  | cons first later ih =>
      have hlater (h : members ∈ closure.cyclesAmong later) :
          ∃ node ∈ first :: later, members = closure.cycleOf node := by
        obtain ⟨node, hnode, heq⟩ := ih h
        exact ⟨node, List.mem_cons_of_mem _ hnode, heq⟩
      simp only [cyclesAmong] at h
      split at h
      · exact hlater h
      · rcases List.mem_cons.mp h with heq | h
        · exact ⟨first, List.mem_cons_self, heq⟩
        · exact hlater h

/-- A node on a way back to itself is in a cycle of a later node. -/
theorem exists_mem_cyclesAmong {nodes : List String} (hnodes : ∀ node ∈ nodes, node ∈ graph.nodes)
    (hnode : node ∈ nodes) (hcycle : TransGen graph.Edge node node) :
    ∃ members ∈ graph.closure.cyclesAmong nodes, node ∈ members := by
  induction nodes generalizing node with
  | nil => simp at hnode
  | cons first later ih =>
      have hrest := fun node hnode => hnodes node (List.mem_cons_of_mem first hnode)
      -- what is listed for the later nodes is listed in any case
      have hlater {members : List String} (h : members ∈ graph.closure.cyclesAmong later) :
          members ∈ graph.closure.cyclesAmong (first :: later) := by
        simp only [cyclesAmong]
        split
        · exact h
        · exact List.mem_cons_of_mem _ h
      rcases List.mem_cons.mp hnode with rfl | hnode
      · have hself := (mem_cycleOf_iff (hnodes _ List.mem_cons_self)).mpr ⟨hcycle, hcycle⟩
        by_cases hshared : later.any (cycleOf graph.closure node).contains
        · obtain ⟨other, hother, hmem⟩ := List.any_eq_true.mp hshared
          rw [List.contains_iff_mem, mem_cycleOf_iff (hnodes _ List.mem_cons_self)] at hmem
          obtain ⟨members, hmembers, hin⟩ := ih hrest hother (hmem.2.trans hmem.1)
          refine ⟨members, hlater hmembers, ?_⟩
          obtain ⟨last, hlast, rfl⟩ := exists_of_mem_cyclesAmong hmembers
          rw [mem_cycleOf_iff (hrest _ hlast)] at hin ⊢
          exact ⟨hin.1.trans hmem.2, hmem.1.trans hin.2⟩
        · refine ⟨cycleOf graph.closure node, ?_, hself⟩
          have hsome : (cycleOf graph.closure node).isEmpty = false := by
            rw [List.isEmpty_eq_false_iff]
            exact List.ne_nil_of_mem hself
          simp [cyclesAmong, hshared, hsome]
      · obtain ⟨members, hmembers, hin⟩ := ih hrest hnode hcycle
        exact ⟨members, hlater hmembers, hin⟩

theorem mem_nodes_of_mem_postOrder (h : node ∈ graph.postOrder) : node ∈ graph.nodes := by
  rcases leaves_or_reaches_of_mem_walk h with hleave | ⟨start, -, hstart, hreach⟩
  · simp at hleave
  · rcases hreach.cases_tail with rfl | ⟨_, -, hedge⟩
    · exact hstart
    · exact hedge.2

/-- A cycle has the nodes that reach one of its nodes and are reached from it. -/
theorem exists_node_of_mem_cycles {members : List String} (h : members ∈ graph.cycles) :
    ∃ node, ∀ other, other ∈ members ↔
      TransGen graph.Edge node other ∧ TransGen graph.Edge other node := by
  obtain ⟨node, hnode, rfl⟩ := exists_of_mem_cyclesAmong h
  exact ⟨node, fun other => mem_cycleOf_iff (mem_nodes_of_mem_postOrder hnode)⟩

/-- The nodes of the cycles are those from which a way leads back to themselves. -/
theorem exists_mem_cycles_iff :
    (∃ members ∈ graph.cycles, node ∈ members) ↔ TransGen graph.Edge node node := by
  constructor
  · rintro ⟨members, hmembers, hnode⟩
    obtain ⟨other, hiff⟩ := exists_node_of_mem_cycles hmembers
    obtain ⟨hto, hfrom⟩ := (hiff node).mp hnode
    exact hfrom.trans hto
  · intro h
    exact exists_mem_cyclesAmong (fun _ => mem_nodes_of_mem_postOrder)
      (mem_postOrder (mem_nodes_of_transGen h)) h

/-! ## Cycles apart from each other -/

theorem ne_nil_of_mem_cyclesAmong {closure : Graph} {nodes members : List String}
    (h : members ∈ closure.cyclesAmong nodes) : members ≠ [] := by
  induction nodes with
  | nil => simp [cyclesAmong] at h
  | cons first later ih =>
      simp only [cyclesAmong] at h
      split at h
      · exact ih h
      · rename_i hlisted
        rcases List.mem_cons.mp h with rfl | h
        · rintro hnil
          simp [hnil] at hlisted
        · exact ih h

theorem nodup_cycleOf (h : node ∈ graph.nodes) : (cycleOf graph.closure node).Nodup := by
  rw [cycleOf]
  split
  · rw [successors_closure h]
    exact (graph.nodup_walk_enter _).filter _
  · exact List.nodup_nil

/-- A group is listed at one node only, so different groups have no node in common. -/
theorem pairwise_disjoint_cyclesAmong {nodes : List String}
    (hnodes : ∀ node ∈ nodes, node ∈ graph.nodes) :
    (graph.closure.cyclesAmong nodes).Pairwise List.Disjoint := by
  induction nodes with
  | nil => exact List.Pairwise.nil
  | cons first later ih =>
      rw [List.forall_mem_cons] at hnodes
      simp only [cyclesAmong]
      split
      · exact ih hnodes.2
      · rename_i hlisted
        refine List.pairwise_cons.mpr ⟨fun members hmembers node hfirst hnode => ?_, ih hnodes.2⟩
        obtain ⟨last, hlast, rfl⟩ := exists_of_mem_cyclesAmong hmembers
        rw [mem_cycleOf_iff hnodes.1] at hfirst
        rw [mem_cycleOf_iff (hnodes.2 last hlast)] at hnode
        -- a later node that shares a node with the first one is in the group of the first
        have hshared : last ∈ cycleOf graph.closure first :=
          (mem_cycleOf_iff hnodes.1).mpr ⟨hfirst.1.trans hnode.2, hnode.1.trans hfirst.2⟩
        have hany : later.any (cycleOf graph.closure first).contains = true :=
          List.any_eq_true.mpr ⟨last, hlast, List.contains_iff_mem.mpr hshared⟩
        exact hlisted (by rw [hany, Bool.or_true])

theorem ne_nil_of_mem_cycles {members : List String} (h : members ∈ graph.cycles) :
    members ≠ [] :=
  ne_nil_of_mem_cyclesAmong h

theorem nodup_of_mem_cycles {members : List String} (h : members ∈ graph.cycles) :
    members.Nodup := by
  obtain ⟨node, hnode, rfl⟩ := exists_of_mem_cyclesAmong h
  exact nodup_cycleOf (mem_nodes_of_mem_postOrder hnode)

theorem pairwise_disjoint_cycles (graph : Graph) : graph.cycles.Pairwise List.Disjoint :=
  pairwise_disjoint_cyclesAmong fun _ => mem_nodes_of_mem_postOrder

/-- Two nodes are in one cycle if and only if each can be reached from the other. -/
theorem exists_mem_cycles_and_iff :
    (∃ members ∈ graph.cycles, node ∈ members ∧ other ∈ members) ↔
      TransGen graph.Edge node other ∧ TransGen graph.Edge other node := by
  constructor
  · rintro ⟨members, hmembers, hnode, hother⟩
    obtain ⟨middle, hiff⟩ := exists_node_of_mem_cycles hmembers
    obtain ⟨htoNode, hfromNode⟩ := (hiff node).mp hnode
    obtain ⟨htoOther, hfromOther⟩ := (hiff other).mp hother
    exact ⟨hfromNode.trans htoOther, hfromOther.trans htoNode⟩
  · rintro ⟨hto, hback⟩
    obtain ⟨members, hmembers, hnode⟩ := exists_mem_cycles_iff.mpr (hto.trans hback)
    refine ⟨members, hmembers, hnode, ?_⟩
    obtain ⟨middle, hiff⟩ := exists_node_of_mem_cycles hmembers
    obtain ⟨htoNode, hfromNode⟩ := (hiff node).mp hnode
    exact (hiff other).mpr ⟨htoNode.trans hto, hback.trans hfromNode⟩

/-! ## Evaluation -/

/-- Walk for at most so many steps; without a result if they are not enough. -/
def walkWithin (graph : Graph) : ℕ → List String → List Task → Option (List String)
  | _, _, [] => some []
  | 0, _, _ :: _ => none
  | steps + 1, entered, .leave node :: rest =>
      (walkWithin graph steps entered rest).map (node :: ·)
  | steps + 1, entered, .enter node :: rest =>
      if node ∈ graph.nodes ∧ node ∉ entered then
        walkWithin graph steps (node :: entered)
          ((graph.successors node).map .enter ++ .leave node :: rest)
      else walkWithin graph steps entered rest

theorem walk_eq_of_walkWithin {steps : ℕ} {listed : List String}
    (h : graph.walkWithin steps entered tasks = some listed) :
    graph.walk entered tasks = listed := by
  fun_induction walkWithin graph steps entered tasks generalizing listed with
  | case1 =>
      rw [walk]
      exact Option.some.inj h
  | case2 => cases h
  | case3 steps entered node rest ih =>
      obtain ⟨later, hlater, rfl⟩ := Option.map_eq_some_iff.mp h
      rw [walk, ih hlater]
  | case4 steps entered node rest hnew ih => rw [walk, if_pos hnew, ih h]
  | case5 steps entered node rest hold ih => rw [walk, if_neg hold, ih h]

/-- The nodes with what can be reached from them, by walks of at most so many steps. -/
def closureWithin (graph : Graph) (steps : ℕ) (nodes : List String) : Option Graph :=
  nodes.mapM fun node =>
    (graph.walkWithin steps [] ((graph.successors node).map .enter)).map (Prod.mk node)

theorem map_reachable_eq_of_closureWithin {steps : ℕ} {nodes : List String} {closure : Graph}
    (h : graph.closureWithin steps nodes = some closure) :
    nodes.map (fun node => (node, graph.reachable node)) = closure := by
  induction nodes generalizing closure with
  | nil => exact Option.some.inj h
  | cons node rest ih =>
      simp only [closureWithin, List.mapM_cons, Option.bind_eq_bind, Option.bind_eq_some_iff,
        Option.pure_def, Option.some.injEq, Option.map_eq_some_iff] at h
      obtain ⟨_, ⟨listed, hlisted, rfl⟩, others, hothers, rfl⟩ := h
      rw [List.map_cons, ih hothers, reachable, walk_eq_of_walkWithin hlisted]

/-- The cycles, by walks of at most so many steps. -/
def cyclesWithin (graph : Graph) (steps : ℕ) : Option (List (List String)) := do
  let closure ← graph.closureWithin steps graph.nodes
  let order ← graph.walkWithin steps [] (graph.nodes.map .enter)
  return cyclesAmong closure order

/-- What the evaluation of the cycles says holds of them. -/
theorem cycles_eq_of_cyclesWithin (steps : ℕ) {found : List (List String)}
    (h : graph.cyclesWithin steps = some found) : graph.cycles = found := by
  simp only [cyclesWithin, Option.bind_eq_bind, Option.bind_eq_some_iff, Option.pure_def,
    Option.some.injEq] at h
  obtain ⟨closure, hclosure, order, horder, rfl⟩ := h
  rw [cycles, Graph.closure, map_reachable_eq_of_closureWithin hclosure, postOrder,
    walk_eq_of_walkWithin horder]

end ArchDiagram.Graph

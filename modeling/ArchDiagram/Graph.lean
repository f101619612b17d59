/-
# Directed graphs of names

A graph is walked depth first: a node is left when everything that can be reached
from it has been. Nodes that reach each other form a cycle. Main definitions:
`Graph.walk`, which lists the nodes in the order in which they are left, and
`Graph.cycles`. A walk ends because it enters every node at most once.
-/

import ArchDiagram.Entries
import ArchDiagram.Supply

namespace ArchDiagram

/-- The successors of every node, in the order in which they are followed. -/
abbrev Graph := Entries (List String)

namespace Graph

/-- The nodes. -/
def nodes (graph : Graph) : List String := Entries.names graph

/-- The successors of a node. -/
def successors (graph : Graph) (node : String) : List String :=
  (graph.lookup node).getD []

/-- What is still to be done on a walk. -/
inductive Task
  | enter (node : String)
  | leave (node : String)
deriving DecidableEq, Repr

/-- Walk depth first. A node is entered once; what is not a node is passed over.
The nodes are listed in the order in which they are left. -/
def walk (graph : Graph) (entered : List String) (tasks : List Task) : List String :=
  match tasks with
  | [] => []
  | .leave node :: rest => node :: walk graph entered rest
  | .enter node :: rest =>
      if node ∈ graph.nodes ∧ node ∉ entered then
        walk graph (node :: entered) ((graph.successors node).map .enter ++ .leave node :: rest)
      else walk graph entered rest
termination_by (Supply.left entered graph.nodes, tasks.length)
decreasing_by
  · exact Supply.lex_of_le_of_lt (Nat.le_refl _) (by simp)
  · rename_i h
    refine Prod.Lex.left _ _ (Supply.left_lt h.1 h.2 fun other hother hnew => ?_)
    simp only [List.mem_cons, not_or] at hnew
    exact ⟨hother, hnew.2, hnew.1⟩
  · exact Supply.lex_of_le_of_lt (Nat.le_refl _) (by simp)

/-- All nodes in the order in which a walk leaves them that starts at each node
in order. -/
def postOrder (graph : Graph) : List String :=
  graph.walk [] (graph.nodes.map .enter)

/-- The nodes that can be reached from a node by one or more steps. -/
def reachable (graph : Graph) (node : String) : List String :=
  graph.walk [] ((graph.successors node).map .enter)

/-- The graph whose successors are the nodes that can be reached. -/
def closure (graph : Graph) : Graph :=
  graph.nodes.map fun node => (node, graph.reachable node)

/-- In a closure, the nodes that lie on a way from a node back to itself; there
are none if there is no such way. -/
def cycleOf (closure : Graph) (node : String) : List String :=
  let onward := closure.successors node
  if node ∈ onward then onward.filter fun other => node ∈ closure.successors other else []

/-- In a closure, the cycles of some nodes, each at the last of its nodes. -/
def cyclesAmong (closure : Graph) : List String → List (List String)
  | [] => []
  | node :: later =>
      let members := closure.cycleOf node
      if members.isEmpty || later.any members.contains then cyclesAmong closure later
      else members :: cyclesAmong closure later

/-- The cycles, in the order in which a walk leaves them. -/
def cycles (graph : Graph) : List (List String) :=
  graph.closure.cyclesAmong graph.postOrder

end Graph

end ArchDiagram

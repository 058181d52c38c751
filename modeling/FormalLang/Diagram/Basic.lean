import FormalLang.OrderedSet
import FormalLang.Table

/-!
# Diagrams

A drawing of a tree, an automaton or a grammar: labelled nodes, edges with or without a label, a node to
enter at and the nodes to mark as accepting. Nodes and edges keep the order in which they were added.

* `Diagram.addNode`: a node without an identifier of its own gets the number of nodes before it.
* `Diagram.edgesFrom`: the edges that leave a node.
-/

namespace FormalLang

/-- An arrow between two nodes. -/
structure Edge where
  source : Int
  target : Int
  label : Option String
  deriving DecidableEq, Repr

/-- Nodes, edges and marks. -/
structure Diagram where
  /-- The labels of the nodes, in the order in which the nodes were first added. -/
  nodes : Table Int String := ∅
  /-- The edges, in the order in which they were added. -/
  edges : List Edge := []
  /-- The node to enter at. -/
  start : Option Int := none
  /-- The nodes to mark as accepting. -/
  accepting : OrderedSet Int := ∅
  deriving DecidableEq

namespace Diagram

/-- Add a node, or relabel a known one, and answer its identifier. -/
def addNode (d : Diagram) (label : String) (id : Option Int := none) : Int × Diagram :=
  let id := id.getD d.nodes.size
  (id, { d with nodes := d.nodes.insert id label })

/-- Add an edge and answer its position among the edges. -/
def addEdge (d : Diagram) (source target : Int) (label : Option String := none) : Nat × Diagram :=
  (d.edges.length, { d with edges := d.edges ++ [⟨source, target, label⟩] })

/-- Enter at a node, or nowhere. -/
def setStart (d : Diagram) (id : Option Int) : Diagram := { d with start := id }

/-- Mark a node as accepting. -/
def accept (d : Diagram) (id : Int) : Diagram := { d with accepting := d.accepting.insert id }

/-- The edges that leave a node. -/
def edgesFrom (d : Diagram) (id : Int) : List Edge := d.edges.filter (·.source = id)

theorem edgesFrom_addEdge (d : Diagram) (s t : Int) (l : Option String) (id : Int) :
    (d.addEdge s t l).2.edgesFrom id = d.edgesFrom id ++ if s = id then [⟨s, t, l⟩] else [] := by
  by_cases h : s = id <;> simp [edgesFrom, addEdge, h]

end Diagram

end FormalLang

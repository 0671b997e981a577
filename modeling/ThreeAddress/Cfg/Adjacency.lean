import ThreeAddress.Cfg.Basic
import ThreeAddress.Digraph.Basic
/-!
# Blocks as nodes

The graph of the blocks, numbered by their place in the block order, so that the entry is node 0.
Jumps to what is no block have no edge.
-/

namespace ThreeAddress.Cfg

/-- The place of a block in the block order. -/
def node? (c : Cfg) (l : Label) : Option Nat := c.labels.findIdx? (· == l)

/-- The label of a node. -/
def labelAt? (c : Cfg) (u : Nat) : Option Label := c.labels[u]?

/-- The nodes that a node has jumps to. -/
def nodeSuccessors (c : Cfg) (u : Nat) : List Nat :=
  match c.blocks[u]? with
  | some b => b.successors.filterMap c.node?
  | none => []

/-- The nodes that a node has jumps from. -/
def nodePredecessors (c : Cfg) (v : Nat) : List Nat :=
  match c.labelAt? v with
  | some l => (c.predecessors l).filterMap c.node?
  | none => []

/-- The blocks as a directed graph. -/
def digraph (c : Cfg) : Digraph :=
  ⟨c.blocks.length, c.nodeSuccessors, c.nodePredecessors⟩

end ThreeAddress.Cfg

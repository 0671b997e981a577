/-!
# Directed graphs

The nodes of a graph are the numbers below its size; its edges are given twice, as the rows of
successors and as the rows of predecessors. Rows may repeat a node. The two sides of a graph agree
if it is `Converse`; graphs that are made of edges are.
-/

namespace ThreeAddress

/-- A directed graph. -/
structure Digraph where
  size : Nat
  /-- The nodes that a node has edges to. -/
  succ : Nat → List Nat
  /-- The nodes that a node has edges from. -/
  pred : Nat → List Nat

namespace Digraph

/-- The graph of a list of edges; rows keep its order. -/
def ofEdges (size : Nat) (edges : List (Nat × Nat)) : Digraph where
  size := size
  succ u := (edges.filter (·.1 == u)).map (·.2)
  pred v := (edges.filter (·.2 == v)).map (·.1)

/-- The graph of a list of edges, if they lie between nodes. -/
def ofEdges? (size : Nat) (edges : List (Nat × Nat)) : Option Digraph :=
  if edges.all (fun e => e.1 < size && e.2 < size) then some (ofEdges size edges) else none

/-- The graph with every edge turned round. -/
def reverse (g : Digraph) : Digraph :=
  ⟨g.size, g.pred, g.succ⟩

/-- The rows of predecessors are the converse of the rows of successors, and edges lie between
nodes. -/
structure Converse (g : Digraph) : Prop where
  mem_iff : ∀ u v, v ∈ g.succ u ↔ u ∈ g.pred v
  lt_size : ∀ u v, v ∈ g.succ u → u < g.size ∧ v < g.size

theorem converse_ofEdges {size : Nat} {edges : List (Nat × Nat)}
    (h : ∀ e ∈ edges, e.1 < size ∧ e.2 < size) : (ofEdges size edges).Converse where
  mem_iff u v := by simp [ofEdges]
  lt_size u v hv := by
    simp only [ofEdges, List.mem_map, List.mem_filter, beq_iff_eq] at hv
    obtain ⟨e, ⟨he, rfl⟩, rfl⟩ := hv
    exact h e he

theorem Converse.reverse {g : Digraph} (h : g.Converse) : g.reverse.Converse where
  mem_iff u v := (h.mem_iff v u).symm
  lt_size u v hv := (h.lt_size v u ((h.mem_iff v u).2 hv)).symm

end Digraph

end ThreeAddress

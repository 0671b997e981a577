import ThreeAddress.Digraph.Traversal
import ThreeAddress.Iterate
/-!
# Dominators

A node dominates another if every path from the entry to the other passes through it. The sets of
dominators are the largest solution of

    Dom entry = [entry],    Dom v = [v] ∪ ⋂ Dom u over the predecessors u of v,

found by iteration from the full sets. Sets only shrink, so that as many rounds as there are pairs
of nodes are enough. A node out of reach of the entry keeps the full set: no path leads there.
-/

namespace ThreeAddress.Digraph

/-- The dominators of each node, the node itself included. -/
structure Dominators where
  entry : Nat
  sets : List BitSet
deriving DecidableEq, Repr

/-- The set of node `v`, full for what is no node. -/
def setOf (g : Digraph) (sets : List BitSet) (v : Nat) : BitSet :=
  sets[v]?.getD (.full g.size)

/-- The right side of the equation for a node other than the entry. -/
def meet (g : Digraph) (sets : List BitSet) (v : Nat) : BitSet :=
  let common : BitSet := (g.pred v).foldl (fun s u => s.inter (g.setOf sets u)) (.full g.size)
  common.insert v

/-- One round: each node other than the entry, in order, is given the right side of its
equation. -/
def meetAll (g : Digraph) (entry : Nat) (order : List Nat) (sets : List BitSet) : List BitSet :=
  order.foldl (fun sets v => if v = entry then sets else sets.set v (g.meet sets v)) sets

/-- All nodes, those that can be reached first and in reverse postorder. -/
def visitOrder (g : Digraph) (entry : Nat) : List Nat :=
  let reached := g.reversePostorder entry
  reached ++ (List.range g.size).filter (!reached.contains ·)

/-- The dominators of every node. -/
def dominators (g : Digraph) (entry : Nat) : Dominators :=
  let start := (List.replicate g.size (BitSet.full g.size)).set entry (.ofList g.size [entry])
  ⟨entry, untilStable (g.meetAll entry (g.visitOrder entry)) (g.size * g.size + 1) start⟩

/-- The dominators from an entry, if it is a node or there are none. -/
def dominators? (g : Digraph) (entry : Nat) : Option Dominators :=
  if entry < g.size || g.size = 0 then some (g.dominators entry) else none

namespace Dominators

/-- Whether `a` dominates `b`. -/
def dominates (d : Dominators) (a b : Nat) : Bool :=
  match d.sets[b]? with
  | some s => s.contains a
  | none => false

def strictlyDominates (d : Dominators) (a b : Nat) : Bool :=
  a ≠ b && d.dominates a b

/-- The strict dominators of a node, ascending. -/
def strict (d : Dominators) (v : Nat) : List Nat :=
  match d.sets[v]? with
  | some s => s.toList.filter (· ≠ v)
  | none => []

/-- The number of strict dominators. -/
def depth (d : Dominators) (v : Nat) : Nat :=
  match d.sets[v]? with
  | some s => s.count - 1
  | none => 0

/-- The deepest strict dominator, the smallest one if there are several. -/
def immediate? (d : Dominators) (v : Nat) : Option Nat :=
  (d.strict v).foldl (fun best? a =>
    match best? with
    | none => some a
    | some b => if d.depth b < d.depth a then some a else some b) none

end Dominators

end ThreeAddress.Digraph

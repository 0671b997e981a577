import ThreeAddress.Ascending
import ThreeAddress.Cfg.Adjacency
import ThreeAddress.Digraph.Dominators
/-!
# Dominance of blocks

A block strictly dominates another if every path from the entry to the other passes through it and
the two differ. A block that no path leads to is dominated by all others.
-/

namespace ThreeAddress

/-- The strict dominators of each block. -/
structure Dominance where
  entry : Label
  /-- The blocks in order, each with its strict dominators in ascending order. -/
  sets : List (Label × List Label)
deriving DecidableEq, Repr

/-- The dominance of a graph. -/
def Cfg.dominance (c : Cfg) : Dominance :=
  let d := c.digraph.dominators 0
  ⟨c.entry, c.labels.zipIdx.map fun e => (e.1, ascending ((d.strict e.2).filterMap c.labelAt?))⟩

namespace Dominance

/-- The strict dominators of a block; none of what is no block. -/
def strict (d : Dominance) (l : Label) : List Label := (d.sets.lookup l).getD []

/-- Whether `a` strictly dominates `b`. -/
def strictlyDominates (d : Dominance) (a b : Label) : Bool := (d.strict b).contains a

/-- Whether `a` dominates `b`. -/
def dominates (d : Dominance) (a b : Label) : Bool :=
  (a = b && (d.sets.lookup b).isSome) || d.strictlyDominates a b

/-- The number of strict dominators. -/
def depth (d : Dominance) (l : Label) : Nat := (d.strict l).length

/-- The strict dominators, the deepest first. -/
def closestFirst (d : Dominance) (l : Label) : List Label :=
  (d.strict l).mergeSort fun a b => d.depth b ≤ d.depth a

/-- The closest strict dominator. -/
def immediate? (d : Dominance) (l : Label) : Option Label := (d.closestFirst l).head?

end Dominance

end ThreeAddress

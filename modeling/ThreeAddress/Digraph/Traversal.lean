import ThreeAddress.BitSet
import ThreeAddress.Digraph.Basic
import ThreeAddress.Iterate
/-!
# Traversals

Depth-first search keeps a stack of what is left to do: to enter the nodes that have been found, and to leave
those that have been entered. A node may be found several times before it is entered; it is passed over when its
turn comes again. What can be reached, without an order, is found by going through the rows of the nodes that
have been found, each of them once.
-/

namespace ThreeAddress.Digraph

/-! ## Depth-first search -/

/-- What is left to do in a search. -/
inductive Task
  | enter (u : Nat)
  | leave (u : Nat)
deriving DecidableEq, Repr

/-- A search under way. -/
structure Search where
  /-- The nodes that have been entered. -/
  seen : List Nat
  /-- The nodes that have been left, in that order. -/
  order : List Nat
  /-- What is left to do, the next one first. -/
  tasks : List Task
deriving DecidableEq, Repr

namespace Search

/-- The search that begins at a node. -/
def start (u : Nat) : Search := ⟨[], [], [.enter u]⟩

/-- Does what is next. A node that is entered is left when its successors that have not been seen are done, in the
order of their row. -/
def next? (g : Digraph) (s : Search) : Option Search :=
  match s.tasks with
  | [] => none
  | .leave u :: tasks => some ⟨s.seen, s.order ++ [u], tasks⟩
  | .enter u :: tasks =>
    if s.seen.contains u then some ⟨s.seen, s.order, tasks⟩
    else
      let seen := u :: s.seen
      let found := (g.succ u).filter (!seen.contains ·)
      some ⟨seen, s.order, found.map .enter ++ .leave u :: tasks⟩

end Search

/-- The number of tasks that a search can have: each node is left once, and entered or passed over once for an edge
to it. -/
def taskBound (g : Digraph) : Nat :=
  (List.range g.size).foldr (fun u n => (g.succ u).length + 1 + n) 0 + 1

/-- The search from a node to its end. -/
def search (g : Digraph) (start : Nat) : Search :=
  exhaust (Search.next? g) g.taskBound (.start start)

/-- The nodes that can be reached from `start`, each after the nodes first reached from it. There
are none if `start` is no node. -/
def postorder (g : Digraph) (start : Nat) : List Nat :=
  if start < g.size then (g.search start).order else []

/-- The postorder from its end: but for edges that close a cycle, a node comes before its
successors. -/
def reversePostorder (g : Digraph) (start : Nat) : List Nat :=
  (g.postorder start).reverse

/-! ## Reachability -/

/-- A search without an order. -/
structure Flood where
  /-- The nodes that have been found. -/
  seen : BitSet
  /-- The nodes whose rows are still to be gone through, the next one first. -/
  work : List Nat
deriving DecidableEq, Repr

namespace Flood

/-- Takes in a node, unless it has been found. -/
def add (f : Flood) (v : Nat) : Flood :=
  if f.seen.contains v then f else ⟨f.seen.insert v, v :: f.work⟩

/-- Goes through the next row. -/
def next? (g : Digraph) (f : Flood) : Option Flood :=
  match f.work with
  | [] => none
  | u :: work => some ((g.succ u).foldl add ⟨f.seen, work⟩)

end Flood

/-- The search without an order from a node to its end. -/
def flood (g : Digraph) (start : Nat) : Flood :=
  exhaust (Flood.next? g) g.size (Flood.add ⟨.empty g.size, []⟩ start)

/-- The nodes that can be reached from `start`; none if `start` is no node. -/
def reachable (g : Digraph) (start : Nat) : BitSet :=
  if start < g.size then (g.flood start).seen else .empty g.size

/-- The nodes from which `target` can be reached. -/
def reaching (g : Digraph) (target : Nat) : BitSet :=
  g.reverse.reachable target

end ThreeAddress.Digraph

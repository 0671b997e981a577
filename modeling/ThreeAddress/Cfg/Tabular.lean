import ThreeAddress.Cfg.Basic
import ThreeAddress.Digraph.Basic
import ThreeAddress.Iterate
import ThreeAddress.Table
/-!
# Graphs as tables of blocks

A graph is kept as a table of its blocks by label, with the block order beside it as a list of labels. What goes
through all blocks goes through the order and is asked of the list of blocks (`Tabular.cfg`); what is about one block
goes to the table. Edges are not kept. The other ways to see them, which look labels up, are made here from the jumps:
the successors of a label, the table of predecessors, the blocks that nothing leads to, and the blocks as nodes.
-/

namespace ThreeAddress.Cfg

/-- A graph that is kept as a table of blocks and their order. -/
structure Tabular where
  proc : String
  entry : Label
  /-- The labels of the blocks in order. -/
  order : List Label
  table : Table Label Block
deriving DecidableEq, Repr

/-- The table of the blocks of a graph. -/
def tabular (c : Cfg) : Tabular :=
  ⟨c.proc, c.entry, c.labels, ⟨c.blocks.map fun b => (b.label, b)⟩⟩

namespace Tabular

def block? (g : Tabular) (l : Label) : Option Block := g.table.get? l

def contains (g : Tabular) (l : Label) : Bool := g.table.contains l

/-- The blocks in block order. A label that the table does not have is passed over. -/
def blocks (g : Tabular) : List Block := g.order.filterMap g.block?

/-- The graph as the list of its blocks. -/
def cfg (g : Tabular) : Cfg := ⟨g.proc, g.entry, g.blocks⟩

/-! ## Making and changing a graph -/

/-- Adds a block at the end of the order. -/
def push (g : Tabular) (b : Block) : Except StructuralError Tabular :=
  if g.contains b.label then .error ⟨g.proc, .duplicateLabel b.label⟩
  else .ok { g with order := g.order ++ [b.label], table := g.table.set b.label b }

/-- The valid graph of a list of blocks; the first one is the entry. -/
def ofBlocks (proc : String) (blocks : List Block) : Except StructuralError Tabular :=
  match blocks with
  | [] => .error ⟨proc, .noBlocks⟩
  | first :: _ => do
    let g ← blocks.foldlM push ⟨proc, first.label, [], ∅⟩
    g.cfg.validate
    return g

/-- Takes a block out, unless it is the entry; the others may still name it. -/
def remove (g : Tabular) (l : Label) : Option (Block × Tabular) :=
  if l = g.entry then none
  else (g.block? l).map fun b => (b, { g with order := g.order.filter (· ≠ l), table := g.table.erase l })

/-- The graph with `f` applied to one block, if there is a block of that label. -/
def modify (g : Tabular) (l : Label) (f : Block → Block) : Option Tabular :=
  (g.block? l).map fun b => { g with table := g.table.set l (f b) }

/-- The graph with `f` applied to each block. -/
def mapBlocks (g : Tabular) (f : Block → Block) : Tabular :=
  { g with table := g.table.mapValues f }

/-! ## Edges by label -/

/-- The distinct successors of a block, in the order of its jumps; none if there is no such block. -/
def successors (g : Tabular) (l : Label) : List Label :=
  match g.block? l with
  | some b => b.successors
  | none => []

/-- Writes an edge into a table of predecessors, if it leads to one of its labels. -/
def addPredecessor (ps : Table Label (List Label)) (e : Label × Label) : Table Label (List Label) :=
  match ps.get? e.2 with
  | some ls => ps.set e.2 (ls ++ [e.1])
  | none => ps

/-- The predecessors of every block: each edge is written to the block that it leads to. -/
def predecessorMap (g : Tabular) : Table Label (List Label) :=
  g.cfg.edges.foldl addPredecessor (.ofList (g.order.map (·, [])))

/-- A search through labels. -/
structure Search where
  /-- The labels that have been found. -/
  seen : List Label
  /-- The labels whose successors are still to be gone through, the next one first. -/
  stack : List Label
deriving DecidableEq, Repr

namespace Search

/-- The search that begins at a label. -/
def start (l : Label) : Search := ⟨[l], [l]⟩

/-- Takes in a label, unless it has been found. -/
def add (s : Search) (l : Label) : Search :=
  if s.seen.contains l then s else ⟨l :: s.seen, l :: s.stack⟩

/-- Goes through the successors of the next label. A label that is no block has none. -/
def next? (g : Tabular) (s : Search) : Option Search :=
  match s.stack with
  | [] => none
  | l :: stack => some ((g.successors l).foldl add ⟨s.seen, stack⟩)

end Search

/-- The search from the entry to its end. Each edge finds at most one label. -/
def search (g : Tabular) : Search :=
  exhaust (Search.next? g) (g.cfg.edges.length + 1) (.start g.entry)

/-- The blocks that no jumps from the entry lead to. -/
def unreachable (g : Tabular) : List Label :=
  g.order.filter (!g.search.seen.contains ·)

/-! ## Blocks as nodes -/

/-- The blocks as nodes, numbered by their place in the block order, with both rows of each. -/
structure Nodes where
  index : Table Label Nat
  succ : List (List Nat)
  pred : List (List Nat)
deriving DecidableEq, Repr

namespace Nodes

/-- Nodes without edges. -/
def ofIndex (index : Table Label Nat) : Nodes :=
  ⟨index, .replicate index.entries.length [], .replicate index.entries.length []⟩

/-- Writes an edge into the rows of both its ends, if there are such rows. -/
def addEdge? (n : Nodes) (e : Nat × Nat) : Option Nodes :=
  if e.1 < n.succ.length ∧ e.2 < n.pred.length then
    some ⟨n.index, n.succ.modify e.1 (· ++ [e.2]), n.pred.modify e.2 (· ++ [e.1])⟩
  else none

/-- The node of a label. -/
def node? (n : Nodes) (l : Label) : Option Nat := n.index.get? l

/-- The directed graph of the rows. -/
def digraph (n : Nodes) : Digraph :=
  ⟨n.succ.length, fun u => n.succ.getD u [], fun v => n.pred.getD v []⟩

end Nodes

/-- The edges between nodes, in the order of blocks and jumps. Jumps to what has no node are passed over. -/
def nodeEdges (bs : List Block) (node? : Label → Option Nat) : List (Nat × Nat) :=
  bs.zipIdx.flatMap fun e => (e.1.successors.filterMap node?).map (e.2, ·)

/-- The blocks as nodes: each edge is written into the rows of its ends. -/
def nodes? (g : Tabular) : Option Nodes :=
  let index : Table Label Nat := .ofList g.order.zipIdx
  (nodeEdges g.blocks index.get?).foldlM Nodes.addEdge? (.ofIndex index)

end Tabular

end ThreeAddress.Cfg

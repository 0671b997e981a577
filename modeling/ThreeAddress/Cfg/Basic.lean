import ThreeAddress.Cfg.Block
/-!
# Control-flow graphs

The graph of a procedure is its blocks in order; the first is the entry. A graph is valid if every
label that a jump or a phi names is the label of a block, no jump leads to the entry, and no body
holds a jump. A removed block may still be named by the others, so edges may lead out of the graph.
-/

namespace ThreeAddress

/-! ## Structural errors -/

/-- What can be wrong with the blocks of a procedure. -/
inductive Defect where
  | noBlocks
  | duplicateLabel (l : Label)
  | undefinedTarget (block target : Label)
  | entryTarget (block target : Label)
  /-- A phi with a source for what is no block. -/
  | undefinedSource (block source : Label)
  | terminatorInBody (block : Label)
deriving DecidableEq, Repr

def Defect.message : Defect → String
  | noBlocks => "procedure has no blocks"
  | duplicateLabel l => s!"duplicate label {l}"
  | undefinedTarget block target => s!"{block} jumps to undefined label {target}"
  | entryTarget block target => s!"{block} jumps to the entry block {target}"
  | undefinedSource block source => s!"phi in {block} names undefined predecessor {source}"
  | terminatorInBody block => s!"{block} has a terminator in its body"

/-- A defect in the graph of a procedure. -/
structure StructuralError where
  proc : String
  defect : Defect
deriving DecidableEq, Repr

/-! ## Graphs -/

/-- The control-flow graph of a procedure. -/
structure Cfg where
  proc : String
  entry : Label
  /-- The blocks in order, the entry first. -/
  blocks : List Block
deriving DecidableEq, Repr, Inhabited

namespace Cfg

def labels (c : Cfg) : List Label := c.blocks.map Block.label

/-- The block of a label. -/
def block? (c : Cfg) (l : Label) : Option Block := c.blocks.find? (·.label == l)

def contains (c : Cfg) (l : Label) : Bool := c.labels.contains l

/-- The instructions of all bodies, in block order. -/
def bodies (c : Cfg) : List Instr := c.blocks.flatMap Block.body

/-- All instructions, in block order. -/
def instrs (c : Cfg) : List Instr := c.blocks.flatMap Block.instrs

/-- The number of instructions. -/
def size (c : Cfg) : Nat := c.instrs.length

/-! ## Validity -/

/-- The first thing wrong with a jump to `target`. -/
def targetDefect? (c : Cfg) (b : Block) (target : Label) : Option Defect :=
  if !c.contains target then some (.undefinedTarget b.label target)
  else if target = c.entry then some (.entryTarget b.label target)
  else none

/-- The first thing wrong with a phi source for `source`. -/
def sourceDefect? (c : Cfg) (b : Block) (source : Label) : Option Defect :=
  if c.contains source then none else some (.undefinedSource b.label source)

/-- The labels that the phis of a block have sources for. -/
def sourceLabels (b : Block) : List Label :=
  (b.body.filterMap Instr.sources?).flatMap PhiSources.labels

/-- The first thing wrong with a block: its jumps are looked at first, then its phis. -/
def blockDefect? (c : Cfg) (b : Block) : Option Defect :=
  b.targets.findSome? (c.targetDefect? b) <|>
  (sourceLabels b).findSome? (c.sourceDefect? b) <|>
  if b.body.any Instr.isTerminator then some (.terminatorInBody b.label) else none

/-- The first thing wrong with a graph. -/
def defect? (c : Cfg) : Option Defect :=
  c.blocks.findSome? c.blockDefect?

/-- Refuses a graph that is not valid. -/
def validate (c : Cfg) : Except StructuralError Unit :=
  match c.defect? with
  | some defect => .error ⟨c.proc, defect⟩
  | none => .ok ()

/-- The first label that is repeated in a list. -/
def repeated? : List Label → Option Label := go []
where
  go (seen : List Label) : List Label → Option Label
    | [] => none
    | l :: ls => if seen.contains l then some l else go (l :: seen) ls

/-- The valid graph of a list of blocks; the first one is the entry. -/
def ofBlocks (proc : String) (blocks : List Block) : Except StructuralError Cfg :=
  match blocks with
  | [] => .error ⟨proc, .noBlocks⟩
  | first :: _ =>
    match repeated? (blocks.map Block.label) with
    | some l => .error ⟨proc, .duplicateLabel l⟩
    | none => do
      let c : Cfg := ⟨proc, first.label, blocks⟩
      c.validate
      return c

/-! ## Edges -/

/-- The distinct successors of a block, in the order of its jumps. -/
def successors (c : Cfg) (l : Label) : List Label :=
  match c.block? l with
  | some b => b.successors
  | none => []

/-- The distinct predecessors of a block, in block order. -/
def predecessors (c : Cfg) (l : Label) : List Label :=
  (c.blocks.filter (·.successors.contains l)).map Block.label

/-- The edges, in the order of blocks and jumps. -/
def edges (c : Cfg) : List (Label × Label) :=
  c.blocks.flatMap fun b => b.successors.map fun t => (b.label, t)

/-! ## Changes -/

/-- The graph with `f` applied to each block. -/
def mapBlocks (c : Cfg) (f : Block → Block) : Cfg :=
  { c with blocks := c.blocks.map f }

/-- The graph with `f` applied to one block. -/
def modify (c : Cfg) (l : Label) (f : Block → Block) : Cfg :=
  c.mapBlocks fun b => if b.label = l then f b else b

/-- Reads `new` wherever the graph reads `t`. -/
def subst (c : Cfg) (t : Temp) (new : Operand) : Cfg :=
  c.mapBlocks (·.subst t new)

/-! ## Properties -/

/-- The locals that the bodies write, in block order and with repetitions. -/
def writtenLocals (c : Cfg) : List Temp :=
  c.bodies.filterMap Instr.localDest?

/-- Whether no local is written twice. -/
def isSingleAssignment (c : Cfg) : Bool :=
  c.writtenLocals.Nodup

/-- A headline, then the blocks. -/
def text (c : Cfg) : String :=
  s!"cfg {c.proc} (entry {c.entry}):\n" ++ String.join (c.blocks.map Block.text)

end Cfg

end ThreeAddress

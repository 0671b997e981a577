import ThreeAddress.Cfg.Basic
import ThreeAddress.Constants.Value
import ThreeAddress.Iterate
import ThreeAddress.Table
/-!
# Conditional constants

`analyze` finds out at once which blocks and edges can execute and which temporaries hold one
constant. It starts from the entry block alone and repeats two rules until nothing changes:

- the jumps of each block that executes are followed in order, as far as what is known of their
  operands allows;
- each instruction of a block that executes is evaluated on what is known, and joined to what is
  known of its destination. A phi takes in the edges that execute only.

Facts only grow. Every round but the last adds an edge or lifts a temporary, which rises at most
twice, so that the edges and twice the temporaries bound the number of rounds.
-/

namespace ThreeAddress.Constants

/-- What has been found out about a graph. -/
structure Facts where
  /-- The blocks that execute. -/
  blocks : List Label
  /-- The edges that execute. -/
  edges : List (Label × Label)
  /-- What is known of the temporaries that have risen from their initial values. -/
  values : Table Temp Value
deriving DecidableEq

namespace Facts

/-- The facts before anything is executed. -/
def start (c : Cfg) : Facts := ⟨[c.entry], [], ∅⟩

/-- What is known of a temporary. -/
def value (f : Facts) (t : Temp) : Value := (f.values.get? t).getD (.initial t)

/-- What is known of an operand. -/
def operand (f : Facts) : Operand → Value
  | .temp t => f.value t
  | .imm c => .constant c

/-- Whether a block executes. -/
def executes (f : Facts) (l : Label) : Bool := f.blocks.contains l

/-- Whether control can go from one block to the other. -/
def follows (f : Facts) (source target : Label) : Bool := f.edges.contains (source, target)

/-! ## Jumps -/

/-- The targets that control can reach through a list of jumps. -/
def openTargets (f : Facts) : List Instr → List Label
  | .jump target :: _ => [target]
  | .branch cond v target :: js =>
    match f.operand v with
    | .varies => target :: f.openTargets js
    | .unused => []
    | .constant k => if cond.holds k then [target] else f.openTargets js
  | _ => []

/-- The edges that control can take out of the blocks that execute. -/
def openEdges (f : Facts) (c : Cfg) : List (Label × Label) :=
  (c.blocks.filter (f.executes ·.label)).flatMap fun b =>
    (f.openTargets b.jumps).map fun t => (b.label, t)

/-- Takes in an edge and its target. -/
def addEdge (f : Facts) (e : Label × Label) : Facts :=
  { f with
    blocks := if f.blocks.contains e.2 then f.blocks else f.blocks ++ [e.2]
    edges := if f.edges.contains e then f.edges else f.edges ++ [e] }

/-- The first rule. -/
def followJumps (c : Cfg) (f : Facts) : Facts :=
  (f.openEdges c).foldl addEdge f

/-! ## Instructions -/

/-- The value of a binary operator, where there is enough to say. -/
def binary? (op : BinaryOp) : Value → Value → Option Value
  | .constant u, .constant v =>
    some (match op.eval u v with
      | some c => .constant c
      | none => .varies)
  | .varies, _ | _, .varies => some .varies
  | _, _ => none

/-- The value of a unary operator, where there is enough to say. -/
def unary? (op : UnaryOp) : Value → Option Value
  | .constant u => some (.constant (op.eval u))
  | .varies => some .varies
  | .unused => none

/-- The join of the sources that a phi of a block can take. -/
def phi (f : Facts) (block : Label) (sources : PhiSources) : Value :=
  (sources.filter (f.follows · block)).operands.foldl (fun v o => v.join (f.operand o)) .unused

/-- The value that an instruction of a block computes, where there is enough to say. -/
def evaluate? (f : Facts) (block : Label) : Instr → Option Value
  | .const _ c => some (.constant c)
  | .copy _ source => some (f.operand source)
  | .binary _ op left right => binary? op (f.operand left) (f.operand right)
  | .unary _ op operand => unary? op (f.operand operand)
  | .phi _ sources => some (f.phi block sources)
  | .call .. => some .varies
  | .nop | .param .. | .label _ | .jump _ | .branch .. | .ret _ => none

/-- Joins a value to what is known of a temporary. -/
def lift (f : Facts) (t : Temp) (v : Value) : Facts :=
  let new := (f.value t).join v
  if new = f.value t then f else { f with values := f.values.set t new }

/-- Evaluates an instruction of a block. -/
def visit (block : Label) (f : Facts) (i : Instr) : Facts :=
  match i.dest?, f.evaluate? block i with
  | some t, some v => f.lift t v
  | _, _ => f

/-- The second rule. -/
def evaluateBlocks (c : Cfg) (f : Facts) : Facts :=
  c.blocks.foldl (fun f b => if f.executes b.label then b.body.foldl (visit b.label) f else f) f

/-! ## The analysis -/

/-- Both rules, one after the other. -/
def round (c : Cfg) (f : Facts) : Facts := evaluateBlocks c (followJumps c f)

end Facts

/-- The temporaries of a graph. -/
def temps (c : Cfg) : List Temp :=
  (c.instrs.flatMap fun i => i.dest?.toList ++ i.usedTemps).eraseDups

/-- The number of rounds that are enough. -/
def rounds (c : Cfg) : Nat := c.edges.length + 2 * (temps c).length + 1

/-- What can be found out about a graph. -/
def analyze (c : Cfg) : Facts :=
  untilStable (Facts.round c) (rounds c) (Facts.start c)

namespace Facts

/-- The temporaries known to be constant, with their values. -/
def constants (f : Facts) : List (Temp × Int64) :=
  f.values.entries.filterMap fun e => e.2.constant?.map (e.1, ·)

end Facts

end ThreeAddress.Constants

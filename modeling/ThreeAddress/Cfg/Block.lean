import ThreeAddress.Program
/-!
# Basic blocks

A block has a label, a straight-line body, and a list of jumps: conditional jumps in the order in
which they are tried, and then a jump or a return. Phis stand at the head of the body by
convention; nothing here relies on it.
-/

namespace ThreeAddress

structure Block where
  label : Label
  body : List Instr
  jumps : List Instr
deriving DecidableEq, Repr, Inhabited

namespace Block

/-- A block with its instructions sorted into body and jumps. -/
def ofInstrs (label : Label) (instrs : List Instr) : Block :=
  ⟨label, instrs.filter (!·.isTerminator), instrs.filter Instr.isTerminator⟩

/-- The body and the jumps. -/
def instrs (b : Block) : List Instr := b.body ++ b.jumps

def phis (b : Block) : List Instr := b.body.filter Instr.isPhi

/-- The targets of the jumps, in order and with repetitions. -/
def targets (b : Block) : List Label := b.jumps.filterMap Instr.target?

/-- The distinct targets of the jumps, in order. -/
def successors (b : Block) : List Label := b.targets.eraseDups

/-- Whether control never leaves the block at its end: the last jump is a jump or a return. -/
def isClosed (b : Block) : Bool :=
  match b.jumps.getLast? with
  | some j => j.isFinal
  | none => false

/-- Whether the body writes `t`. -/
def defines (b : Block) (t : Temp) : Bool := b.body.any (·.defines t)

/-- The block with `f` applied to each instruction. -/
def mapInstrs (b : Block) (f : Instr → Instr) : Block :=
  ⟨b.label, b.body.map f, b.jumps.map f⟩

/-- Reads `new` wherever the block reads `t`. -/
def subst (b : Block) (t : Temp) (new : Operand) : Block :=
  b.mapInstrs (·.subst t new)

/-- The number of operands that read `t`. -/
def countReads (b : Block) (t : Temp) : Nat :=
  (b.instrs.flatMap Instr.uses).countP (·.reads t)

/-- Adds instructions at the ends of body and jumps. -/
def append (b : Block) (instrs : List Instr) : Block :=
  let added := ofInstrs b.label instrs
  ⟨b.label, b.body ++ added.body, b.jumps ++ added.jumps⟩

/-- The block with `last` as its last jump, unless it is closed. -/
def closeWith (b : Block) (last : Instr) : Block :=
  if b.isClosed then b else { b with jumps := b.jumps ++ [last] }

/-- The label, then each instruction on a line. -/
def text (b : Block) : String :=
  s!"{b.label}:\n" ++ String.join (b.instrs.map fun i => s!"  {i}\n")

end Block

end ThreeAddress

import ThreeAddress.Cfg.Basic
/-!
# From blocks to linear code

The blocks are written one after another, each behind its label. A block that would end by jumping
to the one behind it falls through instead.
-/

namespace ThreeAddress

/-- The jumps less a last jump to the block that follows. -/
def Block.jumpsBefore (b : Block) (next? : Option Block) : List Instr :=
  match b.jumps.getLast?, next? with
  | some (.jump target), some next =>
    if target = next.label then b.jumps.dropLast else b.jumps
  | _, _ => b.jumps

/-- The linear code of blocks in order. -/
def linearize : List Block → List Instr
  | [] => []
  | b :: bs => .label b.label :: b.body ++ b.jumpsBefore bs.head? ++ linearize bs

/-- The linear code of a graph. -/
def Cfg.linear (c : Cfg) : List Instr := linearize c.blocks

/-- The procedure with the code of a graph as its body. -/
def Procedure.withCode (p : Procedure) (c : Cfg) : Procedure :=
  { p with body := c.linear }

end ThreeAddress

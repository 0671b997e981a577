import ThreeAddress.CommonSubexpr.Local
import ThreeAddress.Dominance
/-!
# Common subexpressions along dominators

The first computation of an expression in a block becomes a copy if a block that strictly dominates
it leaves the value in some temporary, nothing on the way from there writes an operand or that
temporary, and the block itself has written none of them before. The closest such dominator is
taken.
-/

namespace ThreeAddress

/-- Where the value of an expression is held: the place of the computation in its body, and the
temporary. -/
structure Holder where
  index : Nat
  temp : Temp
deriving DecidableEq, Repr

/-- What a body leaves behind: of each expression, the last computation that still counts. -/
def heldAtExit (body : List Instr) : List (Expr × Holder) :=
  body.zipIdx.foldl (fun held e =>
    match e.1.dest? with
    | none => held
    | some dest =>
      let held := held.filter fun h => h.2.temp ≠ dest && !h.1.reads dest
      match Available.computed? e.1 dest with
      | some x => (x, ⟨e.2, dest⟩) :: held.filter (·.1 ≠ x)
      | none => held) []

/-- The first computation of each expression in a body, unless an operand was written before. -/
def cleanFirst (written : List Temp) (seen : List Expr) : List (Instr × Nat) → List (Nat × Expr)
  | [] => []
  | (i, index) :: is =>
    let rest (seen : List Expr) := cleanFirst (i.dest?.toList ++ written) seen is
    match Expr.of? i with
    | none => rest seen
    | some e =>
      if seen.contains e then rest seen
      else if e.temps.any written.contains then rest (e :: seen)
      else (index, e) :: rest (e :: seen)

namespace Cfg

/-- The blocks on paths from one block to another: those that are reached by leaving the one, and
from which the other can be reached by one more jump. -/
def between (c : Cfg) (source target : Nat) : List Nat :=
  let g := c.digraph
  let after := (g.succ source).flatMap g.postorder
  let before := (g.pred target).flatMap g.reverse.postorder
  (List.range g.size).filter fun u => after.contains u && before.contains u

/-- Whether a block writes one of `temps`, apart from its instruction at `skip?`. -/
def writesAny (b : Block) (skip? : Option Nat) (temps : List Temp) : Bool :=
  b.instrs.zipIdx.any fun e =>
    some e.2 ≠ skip? && match e.1.dest? with
      | some t => temps.contains t
      | none => false

/-- Whether something between two blocks writes one of `temps`. The instruction at `skip` of the
first block does not count: reached again, it computes the same value. -/
def writesBetween (c : Cfg) (source : Label) (skip : Nat) (target : Label) (temps : List Temp) : Bool :=
  match c.node? source, c.node? target with
  | some u, some v =>
    (c.between u v).any fun w =>
      match c.blocks[w]? with
      | some b => writesAny b (if w = u then some skip else none) temps
      | none => false
  | _, _ => true

/-- The temporary that holds an expression at its first computation in a block, by the work of a
dominator. -/
def holderAt? (c : Cfg) (b : Block) (index : Nat) (e : Expr) (dominator : Label) : Option Temp :=
  match (c.block? dominator).bind fun d => (heldAtExit d.body).lookup e with
  | none => none
  | some h =>
    if (b.body.take index).any (·.defines h.temp) then none
    else if c.writesBetween dominator h.index b.label (h.temp :: e.temps) then none
    else some h.temp

/-- The copies that take the place of computations in a block. -/
def reusable (c : Cfg) (d : Dominance) (b : Block) : List (Nat × Temp) :=
  (cleanFirst [] [] b.body.zipIdx).filterMap fun e =>
    ((d.closestFirst b.label).findSome? (c.holderAt? b e.1 e.2)).map (e.1, ·)

/-- The block with copies in the place of computations. -/
def reuseGlobal (c : Cfg) (d : Dominance) (b : Block) : Block :=
  let copies := c.reusable d b
  { b with body := b.body.zipIdx.map fun e =>
      match copies.lookup e.2, e.1.dest? with
      | some t, some dest => .copy dest (.temp t)
      | _, _ => e.1 }

end Cfg

end ThreeAddress

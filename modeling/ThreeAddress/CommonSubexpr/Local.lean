import ThreeAddress.CommonSubexpr.Expr
import ThreeAddress.Cfg.Block
/-!
# Common subexpressions of a block

A block is read from its head with the expressions whose values some temporary still holds. An
instruction that computes one of them becomes a copy of that temporary. A write ends what the
temporary held, and every expression that reads it.
-/

namespace ThreeAddress

/-- Expressions, each with a temporary that holds its value. -/
abbrev Available := List (Expr × Temp)

namespace Available

/-- Forgets what a write to `t` puts an end to. -/
def kill (av : Available) (t : Temp) : Available :=
  av.filter fun e => e.2 ≠ t && !e.1.reads t

/-- The expression that an instruction leaves in its destination. -/
def computed? (i : Instr) (dest : Temp) : Option Expr :=
  (Expr.of? i).filter (!·.reads dest)

/-- What is available behind an instruction; a value that is held already stays where it is. -/
def after (av : Available) (i : Instr) : Available :=
  match i.dest? with
  | none => av
  | some dest =>
    let av := av.kill dest
    match computed? i dest with
    | some e => if (av.lookup e).isSome then av else av ++ [(e, dest)]
    | none => av

end Available

/-- The instruction as a copy of what is available already. -/
def reuse (av : Available) (i : Instr) : Instr :=
  match Expr.of? i, i.dest? with
  | some e, some dest =>
    match av.lookup e with
    | some t => .copy dest (.temp t)
    | none => i
  | _, _ => i

/-- A body that reuses what is available. -/
def reuseBody (av : Available) : List Instr → List Instr
  | [] => []
  | i :: is => reuse av i :: reuseBody (av.after i) is

/-- The block with its common subexpressions reused. -/
def Block.reuseLocal (b : Block) : Block :=
  { b with body := reuseBody [] b.body }

end ThreeAddress

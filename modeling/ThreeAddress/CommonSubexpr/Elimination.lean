import ThreeAddress.CommonSubexpr.Global
import ThreeAddress.Transformed
/-!
# Eliminating common subexpressions

First within every block, then along the dominators, the blocks in order: what has been reused
in one block is seen from the next.
-/

namespace ThreeAddress.CommonSubexpr

/-- The name of the pass in events. -/
def passName : String := "cse"

/-- The events of the places where a block was changed. -/
def events (proc reason : String) (old new : Block) : EventLog :=
  (changes old.body new.body).map fun e =>
    ((Event.ofPass .expressionEliminated passName proc).atBlock old.label).withMessage
      s!"{e.2} reuses {reason}"

/-- Reuses expressions within every block. -/
def eliminateLocal (c : Cfg) : Transformed :=
  let events := c.blocks.flatMap fun b => events c.proc "an earlier computation" b b.reuseLocal
  ⟨c.mapBlocks Block.reuseLocal, events, !events.isEmpty⟩

/-- Reuses expressions of dominators in one block. -/
def eliminateAt (d : Dominance) (r : Transformed) (l : Label) : Transformed :=
  match r.cfg.block? l with
  | none => r
  | some b =>
    let b' := r.cfg.reuseGlobal d b
    let events := events r.cfg.proc "a dominating computation" b b'
    ⟨r.cfg.modify l fun _ => b', r.events ++ events, r.changed || !events.isEmpty⟩

/-- Reuses expressions of dominators, one block after another. -/
def eliminateGlobal (c : Cfg) : Transformed :=
  c.labels.foldl (eliminateAt c.dominance) ⟨c, [], false⟩

/-- Eliminates common subexpressions. -/
def eliminate (c : Cfg) : Transformed :=
  let inner := eliminateLocal c
  let outer := eliminateGlobal inner.cfg
  ⟨outer.cfg, inner.events ++ outer.events, inner.changed || outer.changed⟩

end ThreeAddress.CommonSubexpr

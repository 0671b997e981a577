import ThreeAddress.Cfg.Basic
import ThreeAddress.Event
/-!
# Transformed graphs

What a pass makes of a graph: the new graph, the events it records, and whether it says that it
changed anything.
-/

namespace ThreeAddress

/-- The result of a pass. -/
structure Transformed where
  cfg : Cfg
  events : EventLog
  changed : Bool

/-- The places where two lists of instructions differ, with what stood there before. -/
def changes (old new : List Instr) : List (Nat × Instr) :=
  (old.zip new).zipIdx.filterMap fun e => if e.1.1 = e.1.2 then none else some (e.2, e.1.1)

end ThreeAddress

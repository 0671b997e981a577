import ThreeAddress.Transformed
import ThreeAddress.Table
/-!
# Copy propagation

A copy can be done without if its destination is a local that nothing else writes, and its source
an immediate or a local that is written at most once. Such copies are deleted, and their sources
read in their place; chains of copies are followed to their ends. Copies that only lead back into
one another stay.
-/

namespace ThreeAddress.CopyPropagation

/-- The name of the pass in events. -/
def passName : String := "copy-propagation"

/-- The number of instructions in the bodies that write a temporary. -/
def writes (c : Cfg) (t : Temp) : Nat := (c.bodies.filter (·.defines t)).length

/-- Whether reading `source` may take the place of reading `dest`. -/
def isPropagatable (c : Cfg) (dest : Temp) (source : Operand) : Bool :=
  !dest.isGlobal && writes c dest == 1 &&
  match source with
  | .imm _ => true
  | .temp t => t ≠ dest && !t.isGlobal && writes c t ≤ 1

/-- The copies that can be done without, as pairs of destination and source. -/
def candidates (c : Cfg) : List (Temp × Operand) :=
  c.bodies.filterMap fun
    | .copy dest source => if isPropagatable c dest source then some (dest, source) else none
    | _ => none

/-- Follows a chain of copies to an operand that is no copy, in at most `n` looks. -/
def follow (copies : List (Temp × Operand)) : (n : Nat) → Operand → Option Operand
  | 0, _ => none
  | n + 1, o =>
    match o with
    | .imm v => some (.imm v)
    | .temp t =>
      match copies.lookup t with
      | some next => follow copies n next
      | none => some (.temp t)

/-- What each copy comes to; there is nothing for a copy that leads into a cycle. -/
def resolved (c : Cfg) : List (Temp × Operand) :=
  let copies := candidates c
  copies.filterMap fun e => (follow copies copies.length e.2).map (e.1, ·)

/-- Whether an instruction is a copy that is deleted. -/
def isDeleted (copies : List (Temp × Operand)) : Instr → Bool
  | .copy dest _ => (copies.lookup dest).isSome
  | _ => false

/-- What is read in the place of an operand. -/
def replace (copies : List (Temp × Operand)) : Operand → Operand
  | .temp t => (copies.lookup t).getD (.temp t)
  | .imm v => .imm v

/-- A block without the copies, whose sources are read in their place. -/
def replaceIn (copies : List (Temp × Operand)) (b : Block) : Block :=
  { b with body := b.body.filter (!isDeleted copies ·) }.mapInstrs (·.mapOperands (replace copies))

def events (copies : List (Temp × Operand)) (c : Cfg) : EventLog :=
  c.blocks.flatMap fun b => (b.body.filter (isDeleted copies)).map fun i =>
    ((Event.ofPass .copyPropagated passName c.proc).atBlock b.label).withMessage i.text

/-- Deletes the copies that can be done without. -/
def propagate (c : Cfg) : Transformed :=
  let copies := resolved c
  ⟨c.mapBlocks (replaceIn copies), events copies c, !copies.isEmpty⟩

end ThreeAddress.CopyPropagation

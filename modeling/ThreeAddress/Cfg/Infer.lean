import ThreeAddress.Cfg.Basic
import ThreeAddress.Fresh
/-!
# From linear code to blocks

A body is cut at its labels, and wherever an instruction comes that has no place in the block
before it: any instruction after a jump or return, and an instruction other than a jump after a
conditional jump. A block that is cut off and not closed jumps to the one that follows. The last
block ends in a return. Blocks without a label of their own get fresh ones, and if the first block
is the target of a jump, an empty block is put in front of it as the entry.
-/

namespace ThreeAddress

/-- The label of an unnamed block. -/
def numberedLabel (n : Nat) : Label := ⟨s!"%.L{n}"⟩

/-- A body that is cut up to some instruction. -/
structure Cut where
  /-- The blocks that are complete. -/
  done : List Block
  /-- The block that goes on. -/
  open? : Option Block
  /-- The least number that is free for a label. -/
  next : Nat

namespace Cut

/-- Completes the open block, which goes on with `last` unless it is closed. -/
def close (s : Cut) (last : Instr) : Cut :=
  { s with done := s.done ++ s.open?.toList.map (·.closeWith last), open? := none }

/-- Puts an instruction into a block of its own, which the open block leads into. -/
def split (taken : List Label) (s : Cut) (i : Instr) : Cut :=
  let n := firstFree taken numberedLabel s.next
  let l := numberedLabel n
  { s.close (.jump l) with open? := some (.ofInstrs l [i]), next := n + 1 }

/-- Whether an instruction has a place in a block. -/
def accepts (b : Block) (i : Instr) : Bool :=
  if i.isTerminator then !b.isClosed else b.jumps.isEmpty

/-- Puts an instruction into the open block, or into one after it. -/
def add (taken : List Label) (s : Cut) (i : Instr) : Cut :=
  match s.open? with
  | some b => if accepts b i then { s with open? := some (b.append [i]) } else s.split taken i
  | none => s.split taken i

/-- Reads an instruction of a body. -/
def step (taken : List Label) (s : Cut) (i : Instr) : Cut :=
  match i.label? with
  | some l => { s.close (.jump l) with open? := some ⟨l, [], []⟩ }
  | none => s.add taken i

/-- Ends the body with a return. A body without instructions is a block of its own. -/
def finish (taken : List Label) (s : Cut) : Cut :=
  match s.open? with
  | some _ => s.close (.ret none)
  | none => (s.split taken (.ret none)).close (.ret none)

/-- Puts an entry in front of a first block that is the target of a jump. -/
def guardEntry (taken : List Label) (s : Cut) : List Block :=
  match s.done with
  | [] => []
  | first :: _ =>
    if (s.done.flatMap Block.targets).contains first.label then
      ⟨numberedLabel (firstFree taken numberedLabel s.next), [], [.jump first.label]⟩ :: s.done
    else s.done

end Cut

namespace Procedure

/-- The blocks of a procedure. -/
def blocks (p : Procedure) : List Block :=
  let taken := p.body.filterMap Instr.label?
  ((p.body.foldl (Cut.step taken) ⟨[], none, 0⟩).finish taken).guardEntry taken

/-- The control-flow graph of a procedure, if its labels are in order. -/
def cfg (p : Procedure) : Except StructuralError ThreeAddress.Cfg :=
  Cfg.ofBlocks p.name p.blocks

end Procedure

end ThreeAddress

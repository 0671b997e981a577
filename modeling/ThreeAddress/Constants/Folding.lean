import ThreeAddress.Constants.Analysis
import ThreeAddress.Transformed
/-!
# Folding constants

Transforms a graph by what the analysis of constants has found out:

1. blocks that never execute are deleted;
2. conditional jumps that are decided become jumps or disappear, and phis lose the sources of edges
   that never execute;
3. instructions that read or write what is never defined are deleted;
4. constants take the place of the temporaries that hold them, whose definitions are deleted.

What still reads a temporary that is never defined is a violation of SSA form.
-/

namespace ThreeAddress.Constants

/-- The name of the pass in events. -/
def passName : String := "sccp"

/-! ## Blocks that never execute -/

/-- Whether a block is deleted. -/
def isDead (f : Facts) (c : Cfg) (b : Block) : Bool :=
  !f.executes b.label && b.label ≠ c.entry

def removeDead (f : Facts) (c : Cfg) : Cfg :=
  { c with blocks := c.blocks.filter (!isDead f c ·) }

def deadEvents (f : Facts) (c : Cfg) : EventLog :=
  (c.blocks.filter (isDead f c)).map fun b =>
    (Event.ofPass .blockRemoved passName c.proc).atBlock b.label

/-! ## Jumps -/

/-- The jumps that remain, and the conditional jumps that are decided, with their outcome. -/
structure Decided where
  kept : List Instr
  decided : List (Instr × Bool)

/-- Follows the jumps of a block as far as control can get. -/
def decideJumps (f : Facts) : List Instr → Decided
  | [] => ⟨[], []⟩
  | .branch cond v target :: js =>
    let j := Instr.branch cond v target
    match f.operand v with
    | .varies =>
      let rest := decideJumps f js
      ⟨j :: rest.kept, rest.decided⟩
    | .constant k =>
      if cond.holds k then ⟨[.jump target], [(j, true)]⟩
      else
        let rest := decideJumps f js
        ⟨rest.kept, (j, false) :: rest.decided⟩
    | .unused => ⟨[], []⟩
  | .ret (some v) :: _ =>
    if f.operand v = .unused then ⟨[.ret none], []⟩ else ⟨[.ret (some v)], []⟩
  | j :: _ => ⟨[j], []⟩

/-- Whether a list of jumps ends by leaving the block. -/
def isOpen (jumps : List Instr) : Bool :=
  match jumps.getLast? with
  | some j => !j.isFinal
  | none => true

/-- The jumps that remain of a block, closed by a return if control would get past them. -/
def resolveJumps (f : Facts) (jumps : List Instr) : List Instr :=
  let kept := (decideJumps f jumps).kept
  if isOpen kept then kept ++ [.ret none] else kept

def jumpEvents (f : Facts) (proc : String) (b : Block) : EventLog :=
  let d := decideJumps f b.jumps
  let event (e : Instr × Bool) : Event :=
    let outcome := if e.2 then "always taken" else "never taken"
    ((Event.ofPass .branchSimplified passName proc).atBlock b.label).withMessage s!"{e.1} is {outcome}"
  d.decided.map event ++
    if isOpen d.kept then [.warn s!"{proc}: {b.label} closed with ret"] else []

/-! ## Phis -/

/-- A phi of a block without the sources of edges that never execute. -/
def pruneInstr (f : Facts) (block : Label) : Instr → Instr
  | .phi dest sources => .phi dest (sources.filter (f.follows · block))
  | i => i

/-- Whether an instruction is a phi of a block with a source for an edge that never executes. -/
def losesSource (f : Facts) (block : Label) : Instr → Bool
  | .phi _ sources => sources.labels.any (!f.follows · block)
  | _ => false

/-- The block with its jumps resolved and its phis pruned. -/
def prune (f : Facts) (b : Block) : Block :=
  ⟨b.label, b.body.map (pruneInstr f b.label), resolveJumps f b.jumps⟩

/-! ## What is never defined -/

/-- Whether an instruction writes, or reads outside a phi, what is never defined. Arguments are
staged all the same. -/
def isUndefined (f : Facts) : Instr → Bool
  | .param .. => false
  | i =>
    (match i.dest? with
      | some t => f.value t = .unused
      | none => false) ||
    (!i.isPhi && i.usedTemps.any (f.value · = .unused))

def removeUndefined (f : Facts) (b : Block) : Block :=
  { b with body := b.body.filter (!isUndefined f ·) }

def undefinedEvents (f : Facts) (proc : String) (b : Block) : EventLog :=
  (b.body.filter (isUndefined f)).map fun i =>
    ((Event.ofPass .instructionRemoved passName proc).atBlock b.label).withMessage i.text

/-! ## Constants -/

/-- A constant in the place of the temporary that holds it. -/
def fold (f : Facts) : Operand → Operand
  | .temp t =>
    match (f.value t).constant? with
    | some k => .imm k
    | none => .temp t
  | .imm k => .imm k

/-- Whether an instruction defines a constant. -/
def definesConstant (f : Facts) (i : Instr) : Bool :=
  match i.dest? with
  | some t => (f.value t).constant?.isSome
  | none => false

/-- The block without definitions of constants. -/
def dropConstants (f : Facts) (b : Block) : Block :=
  { b with body := b.body.filter (!definesConstant f ·) }

/-- The constants that are read in a graph, with their values. -/
def foldedConstants (f : Facts) (c : Cfg) : List (Temp × Int64) :=
  (c.instrs.flatMap Instr.usedTemps).eraseDups.filterMap fun t => (f.value t).constant?.map (t, ·)

def foldEvents (f : Facts) (c : Cfg) : EventLog :=
  (foldedConstants f c).map fun e =>
    (Event.ofPass .constantFolded passName c.proc).withMessage s!"{e.1} = {e.2}"

/-! ## Violations -/

/-- An instruction outside the phis that reads what is never defined. -/
structure UndefinedRead where
  proc : String
  instr : Instr
  block : Label
  temp : Temp
deriving DecidableEq, Repr

def UndefinedRead.message (u : UndefinedRead) : String :=
  s!"{u.proc}: `{u.instr}` in {u.block} reads {u.temp}, which is never defined on an executable path"

/-- The first undefined read of a graph. -/
def undefinedRead? (f : Facts) (c : Cfg) : Option UndefinedRead :=
  c.blocks.findSome? fun b =>
    (b.instrs.filter (!·.isPhi)).findSome? fun i =>
      (i.usedTemps.find? (f.value · = .unused)).map fun t => ⟨c.proc, i, b.label, t⟩

/-! ## The pass -/

/-- The graph at the end of each step. -/
structure Folding where
  facts : Facts
  source : Cfg

namespace Folding

/-- After the first step. -/
def executable (s : Folding) : Cfg := removeDead s.facts s.source

/-- After the second step. -/
def pruned (s : Folding) : Cfg := s.executable.mapBlocks (prune s.facts)

/-- After the third step. -/
def defined (s : Folding) : Cfg := s.pruned.mapBlocks (removeUndefined s.facts)

/-- Without definitions of constants. -/
def dropped (s : Folding) : Cfg := s.defined.mapBlocks (dropConstants s.facts)

/-- After the last step. -/
def folded (s : Folding) : Cfg :=
  s.dropped.mapBlocks (·.mapInstrs (·.mapOperands (fold s.facts)))

/-- Whether some step found something to delete or to put in another's place. -/
def changed (s : Folding) : Bool :=
  s.source.blocks.any (isDead s.facts s.source) ||
  s.executable.blocks.any (fun b =>
    resolveJumps s.facts b.jumps ≠ b.jumps || b.body.any (losesSource s.facts b.label)) ||
  s.pruned.blocks.any (·.body.any (isUndefined s.facts)) ||
  s.defined.blocks.any (·.body.any (definesConstant s.facts)) ||
  !(foldedConstants s.facts s.dropped).isEmpty

def events (s : Folding) : EventLog :=
  deadEvents s.facts s.source ++
  s.executable.blocks.flatMap (jumpEvents s.facts s.source.proc) ++
  s.pruned.blocks.flatMap (undefinedEvents s.facts s.source.proc) ++
  foldEvents s.facts s.dropped

end Folding

/-- Folds the constants of a graph. The new graph stands beside the violation, if there is
one. -/
def foldConstants (c : Cfg) : Transformed × Option UndefinedRead :=
  let s : Folding := ⟨analyze c, c⟩
  (⟨s.folded, s.events, s.changed⟩, undefinedRead? s.facts s.folded)

end ThreeAddress.Constants

import ThreeAddress.Ascending
import ThreeAddress.Cfg.Basic
import ThreeAddress.Fresh
import ThreeAddress.Table
/-!
# Static single assignment

Every block that has predecessors gets a phi for every local of the procedure. Then each definition
of a local gets a name of its own, a version of the old one, and each use reads the version that
reaches it: the last one of its block, or else the old name. A phi reads the version that is last
in the predecessor. Globals are memory and keep their names.

Version numbers count up for each base name and leave out the names that are taken. They depend on
the order in which the blocks are visited; `Cfg.ssa` visits them in block order.
-/

namespace ThreeAddress

namespace Ssa

/-! ## Phis -/

/-- The parameters and all other locals that are written, in ascending order. -/
def locals (params : List Temp) (c : Cfg) : List Temp :=
  ascending (params ++ c.instrs.filterMap Instr.localDest?)

/-- The phi of a local that reads it from each predecessor. -/
def phiFor (preds : List Label) (t : Temp) : Instr :=
  .phi t (.ofList (preds.map fun l => (l, .temp t)))

/-- The blocks with a phi for every local in front of the body, where there are predecessors. -/
def withPhis (params : List Temp) (c : Cfg) : Cfg :=
  let ts := locals params c
  c.mapBlocks fun b =>
    match c.predecessors b.label with
    | [] => b
    | preds => { b with body := ts.map (phiFor preds) ++ b.body }

/-- The number of phis that are put in. -/
def phiCount (params : List Temp) (c : Cfg) : Nat :=
  (c.blocks.filter fun b => !(c.predecessors b.label).isEmpty).length * (locals params c).length

/-! ## Versions -/

/-- The names that no version may have. -/
def taken (params : List Temp) (c : Cfg) : List Temp :=
  params ++ c.instrs.filterMap Instr.dest? ++ c.instrs.flatMap Instr.usedTemps

/-- For each base name, the least number that is free for a version. -/
abbrev Counters := Table String Nat

/-- The next version of a temporary. -/
def fresh (taken : List Temp) (counters : Counters) (t : Temp) : Temp × Counters :=
  let n := firstFree taken t.withVersion ((counters.get? t.base).getD 0)
  (t.withVersion n, counters.set t.base (n + 1))

/-- The version of each temporary that reaches a point of a block. -/
abbrev Versions := Table Temp Temp

/-- An operand under the versions that reach it. -/
def rename (vs : Versions) : Operand → Operand
  | .temp t => .temp ((vs.get? t).getD t)
  | .imm value => .imm value

/-- The instruction with its uses under the versions that reach it; a phi waits. -/
def renameUses (vs : Versions) (i : Instr) : Instr :=
  if i.isPhi then i else i.mapOperands (rename vs)

/-- A body under versions: the new body, the counters, and the versions that reach its end. -/
def renameBody (taken : List Temp) (counters : Counters) (vs : Versions) :
    List Instr → List Instr × Counters × Versions
  | [] => ([], counters, vs)
  | i :: is =>
    let i := renameUses vs i
    match i.localDest? with
    | none =>
      let (is, counters, vs) := renameBody taken counters vs is
      (i :: is, counters, vs)
    | some t =>
      let (version, counters) := fresh taken counters t
      let (is, counters, vs) := renameBody taken counters (vs.set t version) is
      (i.withDest version :: is, counters, vs)

/-- A block under versions, and the versions that reach its end. -/
structure Renamed where
  block : Block
  exits : Versions

/-- Renames blocks one after another. -/
def renameBlocks (taken : List Temp) (counters : Counters) : List Block → List Renamed
  | [] => []
  | b :: bs =>
    let (body, counters, exits) := renameBody taken counters ∅ b.body
    ⟨⟨b.label, body, b.jumps.map (renameUses exits)⟩, exits⟩ :: renameBlocks taken counters bs

/-- The source of a phi under the versions at the end of its predecessor. -/
def resolve (exits : Label → Option Versions) (l : Label) (source : Operand) : Operand :=
  match exits l with
  | some vs => rename vs source
  | none => source

/-- A phi with its sources under the versions at the ends of the predecessors. -/
def resolveSources (exits : Label → Option Versions) : Instr → Instr
  | .phi dest sources => .phi dest (sources.mapOperands (resolve exits))
  | i => i

/-- Renames all definitions and uses; blocks are visited in the order of `visit`. -/
def renameAll (taken : List Temp) (visit : List Label) (c : Cfg) : Cfg :=
  let renamed := renameBlocks taken ∅ (visit.filterMap c.block?)
  let find? (l : Label) := renamed.find? (·.block.label == l)
  let exits (l : Label) := (find? l).map Renamed.exits
  c.mapBlocks fun b =>
    match find? b.label with
    | some r => { r.block with body := r.block.body.map (resolveSources exits) }
    | none => b

end Ssa

namespace Cfg

/-- The graph in SSA form, with the versions in an order of blocks. -/
def ssaVisiting (visit : List Label) (params : List Temp) (c : Cfg) : Cfg :=
  Ssa.renameAll (Ssa.taken params c) visit (Ssa.withPhis params c)

/-- The graph in SSA form. -/
def ssa (params : List Temp) (c : Cfg) : Cfg :=
  c.ssaVisiting c.labels params

end Cfg

end ThreeAddress

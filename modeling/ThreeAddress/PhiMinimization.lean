import ThreeAddress.Transformed
/-!
# Redundant phis

A phi whose sources are all its own destination never yields anything else and is deleted. A phi
with one source besides itself always yields that source: it is deleted, and the source is read in
its place. Either deletion may make further phis redundant, so both are repeated.
-/

namespace ThreeAddress.PhiMinimization

/-- The name of the pass in events. -/
def passName : String := "ssa-minimization"

def event (proc : String) (block : Label) (message : String) : Event :=
  ((Event.ofPass .phiSimplified passName proc).atBlock block).withMessage message

/-! ## Phis that yield themselves -/

/-- Whether an instruction is a phi of its own destination alone. -/
def isNullChoice : Instr → Bool
  | .phi dest sources => !sources.isEmpty && sources.operands.all (·.reads dest)
  | _ => false

/-- Deletes the phis of their own destination alone. -/
def removeNullChoices (c : Cfg) : Transformed :=
  let events := c.blocks.flatMap fun b =>
    (b.body.filter isNullChoice).map fun i => event c.proc b.label s!"removed self-only {i}"
  ⟨c.mapBlocks fun b => { b with body := b.body.filter (!isNullChoice ·) }, events, !events.isEmpty⟩

/-! ## Phis that yield one source -/

/-- The only source of a phi besides its destination. -/
def singleSource? (dest : Temp) (sources : PhiSources) : Option Operand :=
  match (sources.operands.filter (!·.reads dest)).eraseDups with
  | [source] => some source
  | _ => none

/-- A phi that yields one source, and where it stands. -/
structure Renamable where
  block : Label
  index : Nat
  dest : Temp
  source : Operand
deriving DecidableEq, Repr

/-- The phi at a place of a block, if it yields one source. -/
def renamable? (block : Label) : Instr × Nat → Option Renamable
  | (.phi dest sources, index) => (singleSource? dest sources).map (⟨block, index, dest, ·⟩)
  | _ => none

/-- The first phi of a graph that yields one source. -/
def findRenamable? (c : Cfg) : Option Renamable :=
  c.blocks.findSome? fun b => b.body.zipIdx.findSome? (renamable? b.label)

/-- Deletes a phi and reads its source in its place. -/
def apply (c : Cfg) (r : Renamable) : Cfg :=
  (c.modify r.block fun b => { b with body := b.body.eraseIdx r.index }).subst r.dest r.source

/-- Deletes phis that yield one source, the first one first, at most `n` of them. -/
def renameUpTo : (n : Nat) → Cfg → Cfg × EventLog
  | 0, c => (c, [])
  | n + 1, c =>
    match findRenamable? c with
    | none => (c, [])
    | some r =>
      let (c', events) := renameUpTo n (apply c r)
      (c', event c.proc r.block s!"{r.dest} -> {r.source}" :: events)

/-- Deletes phis that yield one source until there are none; each one takes an instruction away. -/
def rename (c : Cfg) : Transformed :=
  let (c', events) := renameUpTo c.size c
  ⟨c', events, !events.isEmpty⟩

/-! ## The pass -/

/-- Repeats both deletions until neither applies, at most `rounds` times. -/
def minimize : (rounds : Nat) → Cfg → Transformed
  | 0, c => ⟨c, [], false⟩
  | rounds + 1, c =>
    let renamed := rename c
    let removed := removeNullChoices renamed.cfg
    if renamed.changed || removed.changed then
      let rest := minimize rounds removed.cfg
      ⟨rest.cfg, renamed.events ++ removed.events ++ rest.events, true⟩
    else ⟨removed.cfg, [], false⟩

/-- The number of rounds where no other is given. -/
def defaultRounds : Nat := 64

end ThreeAddress.PhiMinimization

import ThreeAddress.Cfg.Infer
import ThreeAddress.Cfg.Linear
import ThreeAddress.CommonSubexpr.Elimination
import ThreeAddress.Constants.Folding
import ThreeAddress.CopyPropagation
import ThreeAddress.PhiMinimization
import ThreeAddress.Ssa
/-!
# The pipeline

A procedure is cut into blocks, brought into SSA form, transformed by the passes that a configuration
asks for, and written back as linear code. Procedures are optimized on their own, in the order of
the program, up to the first one that fails.
-/

namespace ThreeAddress

/-! ## Passes -/

/-- A transformation of graphs in SSA form. -/
inductive Pass where
  /-- Deletes redundant phis, in at most so many rounds, but at least one. -/
  | minimizePhis (rounds : Nat)
  | foldConstants
  | eliminateSubexprs
  | propagateCopies
deriving DecidableEq, Repr

/-- Why a procedure cannot be optimized. -/
inductive OptimizeError where
  | structural (e : StructuralError)
  | undefinedRead (u : Constants.UndefinedRead)
deriving DecidableEq, Repr

namespace Pass

def name : Pass → String
  | minimizePhis _ => PhiMinimization.passName
  | foldConstants => Constants.passName
  | eliminateSubexprs => CommonSubexpr.passName
  | propagateCopies => CopyPropagation.passName

def description : Pass → String
  | minimizePhis _ => "Removes phis that merge a single value (null choice elimination and renaming)"
  | foldConstants =>
    "Folds constants and removes unreachable code with sparse conditional constant propagation"
  | eliminateSubexprs =>
    "Replaces recomputed expressions by copies, within blocks and along dominators"
  | propagateCopies => "Replaces temporaries defined by a copy with the copied value"

/-- Applies a pass. The new graph stands beside the violation of SSA form that it leaves. -/
def apply (c : Cfg) : Pass → Transformed × Option Constants.UndefinedRead
  | minimizePhis rounds => (PhiMinimization.minimize (max rounds 1) c, none)
  | foldConstants => Constants.foldConstants c
  | eliminateSubexprs => (CommonSubexpr.eliminate c, none)
  | propagateCopies => (CopyPropagation.propagate c, none)

/-- Applies a pass to a graph; what it leaves has to be a valid graph without violations. The
events mark its beginning and end. -/
def run (p : Pass) (c : Cfg) : Except OptimizeError Transformed := do
  let (r, violation?) := p.apply c
  if let some u := violation? then throw (.undefinedRead u)
  if let .error e := r.cfg.validate then throw (.structural e)
  let outcome := if r.changed then "changed" else "unchanged"
  let events := .ofPass .passStarted p.name c.proc :: r.events ++
    [(Event.ofPass .passCompleted p.name c.proc).withMessage outcome]
  return { r with events := events }

end Pass

/-! ## Configurations -/

/-- The passes that are asked for. -/
structure Config where
  minimizePhis : Bool
  foldConstants : Bool
  eliminateSubexprs : Bool
  propagateCopies : Bool
  /-- The most rounds of deleting redundant phis. -/
  maxRounds : Nat
deriving DecidableEq, Repr

namespace Config

/-- All passes. -/
def all : Config := ⟨true, true, true, true, PhiMinimization.defaultRounds⟩

/-- No passes: SSA form and back. -/
def ssaOnly : Config := ⟨false, false, false, false, PhiMinimization.defaultRounds⟩

/-- The passes in the order in which they are applied. -/
def passes (config : Config) : List Pass :=
  (if config.minimizePhis then [.minimizePhis config.maxRounds] else []) ++
  (if config.foldConstants then [.foldConstants] else []) ++
  (if config.eliminateSubexprs then [.eliminateSubexprs] else []) ++
  (if config.propagateCopies then [.propagateCopies] else [])

end Config

/-! ## Procedures -/

/-- Applies passes one after another. -/
def runPasses : List Pass → Cfg → Except OptimizeError Transformed
  | [], c => return ⟨c, [], false⟩
  | p :: ps, c => do
    let first ← p.run c
    let rest ← runPasses ps first.cfg
    return ⟨rest.cfg, first.events ++ rest.events, first.changed || rest.changed⟩

/-- An optimized procedure. -/
structure Optimized where
  procedure : Procedure
  /-- The graph of the optimized procedure. -/
  cfg : Cfg
  /-- The number of phis that SSA form was given. -/
  phis : Nat
  changed : Bool
  events : EventLog

/-- Optimizes a procedure by passes that work on its SSA form. -/
def Procedure.optimize (p : Procedure) (passes : List Pass) : Except OptimizeError Optimized := do
  let c ← p.cfg.mapError .structural
  let phis := Ssa.phiCount p.params c
  let note := Event.info s!"{p.name}: {phis} phis placed in {c.blocks.length} blocks"
  let r ← runPasses passes (c.ssa p.params)
  return ⟨p.withCode r.cfg, r.cfg, phis, r.changed, note :: r.events⟩

/-! ## Programs -/

/-- A declaration after its procedure, if it is one, has been optimized. -/
structure OptimizedDeclaration where
  declaration : Declaration
  procedure? : Option Optimized

def Declaration.optimize (passes : List Pass) :
    Declaration → Except OptimizeError OptimizedDeclaration
  | .var v => return ⟨.var v, none⟩
  | .proc p => do
    let o ← p.optimize passes
    return ⟨.proc o.procedure, some o⟩

/-- An optimized program. -/
structure OptimizedProgram where
  program : Program
  procedures : List Optimized

/-- Optimizes every procedure of a program. -/
def Program.optimize (p : Program) (config : Config) : Except OptimizeError OptimizedProgram := do
  let ds ← p.mapM (Declaration.optimize config.passes)
  return ⟨ds.map (·.declaration), ds.filterMap (·.procedure?)⟩

/-- The events of all procedures. -/
def OptimizedProgram.events (o : OptimizedProgram) : EventLog :=
  o.procedures.flatMap Optimized.events

end ThreeAddress

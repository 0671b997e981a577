import ThreeAddress.Machine.State
/-!
# Steps of a run

A step is one instruction of the running procedure; the phis that stand together count as one, and
all of them read before any of them writes. A procedure whose instructions are used up returns at
once, which takes no step.
-/

namespace ThreeAddress

/-! ## Calls -/

/-- Prints its argument in decimal. -/
def printInt : String := "@__bx_print_int"

/-- Prints whether its argument differs from zero. -/
def printBool : String := "@__bx_print_bool"

/-- The number of frames that a run has room for. -/
def maxDepth : Nat := 2000

/-- What a call leads to. -/
inductive Callee where
  | line (text : String)
  | proc (p : Procedure)

/-- The only argument of a printing procedure. -/
def onlyArgument (name : String) : List Int64 → Except Fault Int64
  | [value] => .ok value
  | args => .error (.printArgument name args.length)

/-- Finds out what a call leads to, with `depth` procedures active. -/
def callee (p : Program) (depth : Nat) (name : String) (args : List Int64) : Except Fault Callee :=
  if name = printInt then return .line (toString (← onlyArgument name args))
  else if name = printBool then return .line (toString ((← onlyArgument name args) ≠ 0 : Bool))
  else match p.procedure? name with
    | none => .error (.unknownProcedure name)
    | some proc =>
      if args.length ≠ proc.params.length then
        .error (.argumentCount name proc.params.length args.length)
      else if maxDepth ≤ depth then .error (.callDepth name)
      else .ok (.proc proc)

/-- The staged arguments from number `index` on; the first one that is missing is the fault. -/
def stagedFrom (staged : Table UInt32 Int64) (target : String) (index : Nat) :
    Nat → Except Fault (List Int64)
  | 0 => .ok []
  | n + 1 =>
    match staged.get? (UInt32.ofNat index) with
    | none => .error (.missingArgument target index)
    | some value => (value :: ·) <$> stagedFrom staged target (index + 1) n

namespace State

/-- Calls a procedure with the staged arguments, which are used up. -/
def call (p : Program) (s : State) (dest? : Option Temp) (target : String) (argc : UInt32) :
    Except Fault Progress := do
  let args ← stagedFrom s.frame.staged target 1 argc.toNat
  let frame := { s.frame with staged := ∅ }
  match ← callee p (s.callers.length + 1) target args with
  | .line text => return ({ s with frame := frame }.print text |>.receive dest? none).settled
  | .proc proc =>
    return (State.mk s.globals s.output (.start proc args) (⟨frame, dest?⟩ :: s.callers)).settled

/-! ## Phis -/

/-- What the phis write, in their order: the value of the source for the block that control came
from, or nothing where that source has no value. -/
def phiValues (s : State) (previous : Label) : List Instr → Except Fault (List (Temp × Option Int64))
  | .phi dest sources :: phis =>
    match sources.find? previous with
    | none => .error (.noSource dest previous)
    | some source => ((dest, s.value? source) :: ·) <$> phiValues s previous phis
  | _ :: phis => phiValues s previous phis
  | [] => .ok []

/-- Executes the phis that stand together. -/
def phis (s : State) (group : List Instr) : Except Fault State :=
  match s.frame.previous? with
  | none => .error .noPredecessor
  | some previous => do
    let values ← s.phiValues previous group
    return s.withLocals (values.foldl (fun locals w => locals.put w.1 w.2) s.frame.locals)

/-! ## Instructions -/

/-- Executes an instruction other than a phi; the state stands behind it already. -/
def execute (p : Program) (s : State) : Instr → Except Fault Progress
  | .nop | .phi .. => return s.settled
  | .label l => return (s.enter l).settled
  | .const dest value => return (s.write dest value).settled
  | .copy dest source => return (s.write dest (← s.read source)).settled
  | .unary dest op operand => return (s.write dest (op.eval (← s.read operand))).settled
  | .binary dest op left right => do
    let u ← s.read left
    let v ← s.read right
    match op.eval u v with
    | some value => return (s.write dest value).settled
    | none => throw (.noValue op u v s.frame.proc.name)
  | .param index value => return (s.stage index (← s.read value)).settled
  | .call dest? target argc => s.call p dest? target argc
  | .jump target => return (← s.goTo target).settled
  | .branch cond value target => do
    if cond.holds (← s.read value) then return (← s.goTo target).settled else return s.settled
  | .ret none => return leave s.globals s.output none s.callers
  | .ret (some value) => return leave s.globals s.output (some (← s.read value)) s.callers

/-- One step. -/
def step (p : Program) (s : State) : Except Fault Progress :=
  match s.frame.rest with
  | [] => return s.settled
  | i :: rest =>
    if i.isPhi then
      return (← (s.withRest (rest.dropWhile Instr.isPhi)).phis (i :: rest.takeWhile Instr.isPhi)).settled
    else (s.withRest rest).execute p i

end State

/-! ## Runs -/

/-- The end of a run and the number of its steps. -/
structure Outcome extends Final where
  steps : Nat

/-- Runs on from a state with so many steps left of a limit. -/
def runFrom (p : Program) (limit : Nat) : (left : Nat) → Progress → Except Fault Outcome
  | left, .ended f => .ok ⟨f, limit - left⟩
  | 0, .running _ => .error (.stepLimit limit)
  | left + 1, .running s =>
    match s.step p with
    | .error fault => .error fault
    | .ok next => runFrom p limit left next

namespace Program

/-- A run that begins with the call of a procedure. -/
def start (p : Program) (entry : String) (args : List Int64) : Except Fault Progress := do
  match ← callee p 0 entry args with
  | .line text => return .ended ⟨p.globals, [text], none⟩
  | .proc proc => return (State.mk p.globals [] (.start proc args) []).settled

/-- Calls a procedure, and stops the run after `limit` steps. -/
def run (p : Program) (entry : String) (args : List Int64) (limit : Nat) : Except Fault Outcome := do
  runFrom p limit limit (← p.start entry args)

/-- The limit where no other is given. -/
def defaultStepLimit : Nat := 50000000

end Program

end ThreeAddress

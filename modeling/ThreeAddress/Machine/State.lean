import ThreeAddress.Machine.Fault
import ThreeAddress.Program
import ThreeAddress.Table
/-!
# States of a run

A run has the values of the global variables, the lines printed so far, the running procedure and
the procedures that wait for it, each in a frame of its own. A frame knows its position by the
instructions that are still to come. Global names are read from and written to the globals; a
global that is not declared cannot be read, and what is written to it is lost.
-/

namespace ThreeAddress

/-- A procedure that has been called and has not returned. -/
structure Frame where
  proc : Procedure
  /-- The instructions still to come, a suffix of the body. -/
  rest : List Instr
  locals : Table Temp Int64
  /-- The arguments staged for the next call. -/
  staged : Table UInt32 Int64
  /-- The label passed before the last one. -/
  previous? : Option Label
  /-- The label passed last. -/
  current? : Option Label

/-- A frame that waits for a call to return, with the temporary that takes the result. -/
structure Caller where
  frame : Frame
  dest? : Option Temp

/-- A run that has not ended. -/
structure State where
  globals : Table Temp Int64
  output : List String
  frame : Frame
  /-- The waiting frames, the last caller first. -/
  callers : List Caller

/-- What remains of a run that has ended. -/
structure Final where
  globals : Table Temp Int64
  output : List String
  result? : Option Int64

/-- A run after some steps. -/
inductive Progress where
  | running (s : State)
  | ended (f : Final)

/-- The globals of a program at the start; of two variables of one name the later counts. -/
def Program.globals (p : Program) : Table Temp Int64 :=
  .ofList (p.filterMap fun
    | .var v => some (⟨v.name⟩, v.init)
    | .proc _ => none)

/-- The procedure of a name, the last one if there are several. -/
def Program.procedure? (p : Program) (name : String) : Option Procedure :=
  p.procedures.reverse.find? (·.name == name)

/-- The frame of a procedure that has just been called. -/
def Frame.start (p : Procedure) (args : List Int64) : Frame :=
  ⟨p, p.body, .ofList (p.params.zip args), ∅, none, none⟩

/-- The part of a body from the last place on where the label stands. -/
def from? (target : Label) : List Instr → Option (List Instr)
  | [] => none
  | i :: is =>
    match from? target is with
    | some later => some later
    | none => if i.label? = some target then some (i :: is) else none

theorem from?_suffix {target : Label} {is rest : List Instr} (h : from? target is = some rest) :
    rest <:+ is := by
  induction is with
  | nil => simp [from?] at h
  | cons i is ih =>
    simp only [from?] at h
    split at h
    · rename_i later hl
      exact (ih (hl.trans h)).trans (List.suffix_cons i is)
    · split at h
      · exact (Option.some.inj h) ▸ List.suffix_rfl
      · simp at h

namespace State

/-! ## Memory -/

/-- The value of a temporary, if it has one. -/
def temp? (s : State) (t : Temp) : Option Int64 :=
  if t.isGlobal then s.globals.get? t else s.frame.locals.get? t

/-- The value of an operand, if it has one. -/
def value? (s : State) : Operand → Option Int64
  | .temp t => s.temp? t
  | .imm value => some value

/-- Reads an operand. -/
def read (s : State) : Operand → Except Fault Int64
  | .imm value => .ok value
  | .temp t =>
    match s.temp? t with
    | some value => .ok value
    | none => .error (if t.isGlobal then .undeclaredGlobal t else .undefinedTemp t)

def withLocals (s : State) (locals : Table Temp Int64) : State :=
  { s with frame := { s.frame with locals := locals } }

/-- Writes a temporary. -/
def write (s : State) (t : Temp) (value : Int64) : State :=
  if t.isGlobal then
    if s.globals.contains t then { s with globals := s.globals.set t value } else s
  else s.withLocals (s.frame.locals.set t value)

/-- Takes the result of a call; a call without a result leaves its destination undefined. -/
def receive (s : State) (dest? : Option Temp) (result? : Option Int64) : State :=
  match dest?, result? with
  | some t, some value => s.write t value
  | some t, none => s.withLocals (s.frame.locals.erase t)
  | none, _ => s

/-! ## Position -/

/-- The state with other instructions to come. -/
def withRest (s : State) (rest : List Instr) : State :=
  { s with frame := { s.frame with rest := rest } }

/-- Passes a label. -/
def enter (s : State) (l : Label) : State :=
  { s with frame := { s.frame with previous? := s.frame.current?, current? := some l } }

/-- Goes to a label of the running procedure. -/
def goTo (s : State) (target : Label) : Except Fault State :=
  match from? target s.frame.proc.body with
  | some rest => .ok (s.withRest rest)
  | none => .error (.undefinedLabel target)

/-- Stages an argument. -/
def stage (s : State) (index : UInt32) (value : Int64) : State :=
  { s with frame := { s.frame with staged := s.frame.staged.set index value } }

def print (s : State) (line : String) : State :=
  { s with output := s.output ++ [line] }

end State

/-! ## Ends of procedures -/

/-- Returns to the last caller. A caller that has nothing left to do returns in turn, without a
result. -/
def leave (globals : Table Temp Int64) (output : List String) (result? : Option Int64) :
    List Caller → Progress
  | [] => .ended ⟨globals, output, result?⟩
  | c :: callers =>
    let s := (State.mk globals output c.frame callers).receive c.dest? result?
    if s.frame.rest.isEmpty then leave s.globals s.output none callers else .running s

/-- The run in a state, after the procedures that have nothing left to do have returned. -/
def State.settled (s : State) : Progress :=
  if s.frame.rest.isEmpty then leave s.globals s.output none s.callers else .running s

end ThreeAddress

import ThreeAddress.Operator
import ThreeAddress.Name
/-!
# Faults

What can stop a run before its end.
-/

namespace ThreeAddress

inductive Fault where
  | unknownProcedure (name : String)
  /-- A call of a procedure with a wrong number of arguments. -/
  | argumentCount (name : String) (expected found : Nat)
  /-- A call of a printing procedure with other than one argument. -/
  | printArgument (name : String) (found : Nat)
  /-- A call whose argument of this number was not staged. -/
  | missingArgument (target : String) (index : Nat)
  | callDepth (name : String)
  | undefinedLabel (target : Label)
  | undeclaredGlobal (t : Temp)
  | undefinedTemp (t : Temp)
  /-- An operator without a value on these operands. -/
  | noValue (op : BinaryOp) (left right : Int64) (proc : String)
  /-- A phi in the first block of a run through a procedure. -/
  | noPredecessor
  | noSource (dest : Temp) (previous : Label)
  | stepLimit (limit : Nat)
deriving DecidableEq, Repr

def Fault.message : Fault → String
  | unknownProcedure name => name
  | argumentCount name expected found => s!"{name} expects {expected} arguments, got {found}"
  | printArgument name found => s!"{name} expects 1 argument, got {found}"
  | missingArgument target index => s!"call to {target} is missing param {index}"
  | callDepth name => s!"call depth exceeded in {name}"
  | undefinedLabel target => s!"jump to undefined label {target}"
  | undeclaredGlobal t => s!"read of undeclared global {t}"
  | undefinedTemp t => s!"read of undefined temporary {t}"
  | noValue op left right proc => s!"{op.name} of {left} by {right} faulted in {proc}"
  | noPredecessor => "phi executed without a predecessor block"
  | noSource dest previous => s!"{dest} has no phi source for {previous}"
  | stepLimit limit => s!"step limit of {limit} instructions exceeded"

end ThreeAddress

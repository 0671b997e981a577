import ThreeAddress.Json.Printer
import ThreeAddress.Operator
/-!
# What can be wrong with a program text

A text may fail to be JSON of the right shape at all, or it may have the shape and yet describe no
program. `Malformed` lists the causes of the second kind; their wording quotes JSON without blanks.
-/

namespace ThreeAddress

/-- Why declarations of the right shape describe no program. -/
inductive Malformed where
  /-- The name of a variable lacks its `@`. -/
  | variableName (name : String)
  /-- The name of a procedure lacks its `@`. -/
  | procedureName (name : String)
  | unknownOpcode (word : String)
  | arity (op : Opcode) (expected found : Nat)
  | notInteger (found : Json)
  | notString (found : Json)
  /-- A number as operand that is no 64-bit integer. -/
  | notImmediate (found : Json.Number)
  | notOperand (found : Json)
  | paramIndex
  | argCount
  /-- A phi whose argument is no object. -/
  | notSources
  /-- A return of several values. -/
  | tooManyReturns
  | missingResult (op : Opcode)
  | unwantedResult (op : Opcode) (dest : String)
  /-- A cause within the body of a procedure. -/
  | inProcedure (name : String) (cause : Malformed)

def Malformed.message : Malformed → String
  | variableName name => s!"global variable {name} must start with '@'"
  | procedureName name => s!"procedure {name} must start with '@'"
  | unknownOpcode word => s!"unknown opcode {word}"
  | arity op expected found => s!"{op} expects {expected} arguments, found {found}"
  | notInteger found => s!"expected an integer, found {found.compact}"
  | notString found => s!"expected a string, found {found.compact}"
  | notImmediate found => s!"immediate {found.text} is not a 64-bit integer"
  | notOperand found => s!"expected an operand, found {found.compact}"
  | paramIndex => "param index out of range"
  | argCount => "call argument count out of range"
  | notSources => "phi expects an object of sources"
  | tooManyReturns => "ret expects at most one argument"
  | missingResult op => s!"{op} requires a result temporary"
  | unwantedResult op dest => s!"{op} cannot define {dest}"
  | inProcedure name cause => s!"in {name}: {cause.message}"

/-- Why a text is no program. -/
inductive ReadError where
  /-- It is no JSON, or no list of declarations. -/
  | shape
  | malformed (cause : Malformed)

end ThreeAddress

import ThreeAddress.Instr
/-!
# Programs

A program is a list of declarations: global variables with their first values, and procedures with
parameters and a linear body.
-/

namespace ThreeAddress

/-- A global variable, `var @g = 1;`. -/
structure GlobalVar where
  name : String
  /-- The value at the start of a run. -/
  init : Int64
deriving DecidableEq, Repr

/-- A procedure in linear form. -/
structure Procedure where
  name : String
  params : List Temp
  body : List Instr
deriving DecidableEq, Repr, Inhabited

/-- A declaration of a program. -/
inductive Declaration where
  | var (v : GlobalVar)
  | proc (p : Procedure)
deriving DecidableEq, Repr

/-- A program in the order of its declarations. -/
abbrev Program := List Declaration

namespace Procedure

/-- The header, then each instruction on a line, labels at the margin. -/
def text (p : Procedure) : String :=
  let params := ", ".intercalate (p.params.map Temp.name)
  let line (i : Instr) := if i.label?.isSome then s!"{i}\n" else s!"  {i}\n"
  s!"proc {p.name}({params}):\n" ++ String.join (p.body.map line)

end Procedure

namespace Declaration

def name : Declaration → String
  | var v => v.name
  | proc p => p.name

def proc? : Declaration → Option Procedure
  | var _ => none
  | proc p => some p

def text : Declaration → String
  | var v => s!"var {v.name} = {v.init};\n"
  | proc p => p.text

end Declaration

namespace Program

def procedures (p : Program) : List Procedure :=
  p.filterMap Declaration.proc?

def text (p : Program) : String :=
  String.join (p.map Declaration.text)

end Program

end ThreeAddress

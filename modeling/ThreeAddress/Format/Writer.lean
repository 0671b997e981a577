import ThreeAddress.Json.Printer
import ThreeAddress.Program
/-!
# Writing programs

The JSON value of a program: the fields of each object by ascending name, a result always written
out, and null where there is none.
-/

namespace ThreeAddress

def Operand.toJson : Operand → Json
  | temp t => .string t.name
  | imm value => .int value.toInt

def PhiSources.toJson (s : PhiSources) : Json :=
  .object (s.entries.map fun e => (e.1.name, e.2.toJson))

namespace Instr

/-- The arguments, in the order in which they are read. -/
def argsJson : Instr → List Json
  | nop => []
  | const _ value => [.int value.toInt]
  | copy _ source => [source.toJson]
  | binary _ _ left right => [left.toJson, right.toJson]
  | unary _ _ operand => [operand.toJson]
  | param index value => [.int index.toNat, value.toJson]
  | call _ target argc => [.string target, .int argc.toNat]
  | phi _ sources => [sources.toJson]
  | label name => [.string name.name]
  | jump target => [.string target.name]
  | branch _ value target => [value.toJson, .string target.name]
  | ret value? => value?.toList.map Operand.toJson

def toJson (i : Instr) : Json :=
  .object [
    ("args", .array i.argsJson),
    ("opcode", .string i.opcode.name),
    ("result", match i.dest? with
      | some t => .string t.name
      | none => .null)]

end Instr

def GlobalVar.toJson (v : GlobalVar) : Json :=
  .object [("init", .int v.init.toInt), ("var", .string v.name)]

def Procedure.toJson (p : Procedure) : Json :=
  .object [
    ("args", .array (p.params.map fun t => .string t.name)),
    ("body", .array (p.body.map Instr.toJson)),
    ("proc", .string p.name)]

def Declaration.toJson : Declaration → Json
  | var v => v.toJson
  | proc p => p.toJson

def Program.toJson (p : Program) : Json :=
  .array (p.map Declaration.toJson)

end ThreeAddress

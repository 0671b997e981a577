import ThreeAddress.Format.Malformed
import ThreeAddress.Json.Parser
import ThreeAddress.Program
/-!
# Reading programs

A program is written as a JSON array of declarations,

    {"var": "@g", "init": 0}
    {"proc": "@f", "args": ["%x"], "body": [{"opcode": "ret", "args": ["%x"], "result": null}]}

Reading has two steps. First every declaration is brought into the shape of a `Record`, which
fixes the fields and their types; a text that fails there is no program text. Then the records are
decoded in order, and the first one that makes no sense gives the cause.
-/

namespace ThreeAddress

namespace Format

/-! ## Records -/

/-- An instruction as it is written. -/
structure InstrRecord where
  opcode : String
  args : List Json
  result? : Option String

/-- A declaration as it is written. -/
inductive Record where
  | var (name : String) (init : Int64)
  | proc (name : String) (params : List String) (body : List InstrRecord)

/-- A field that may be missing or null, and holds a string otherwise. -/
def optionalString? : Json.Field → Option (Option String)
  | .absent => some none
  | .once .null => some none
  | .once (.string s) => some (some s)
  | .once _ | .repeated => none

namespace InstrRecord

/-- Reads an instruction, an object or its three fields in an array. Other members of the object
do not count. -/
def ofJson? : Json → Option InstrRecord
  | .object members => do
    let opcode ← (Json.field "opcode" members).value? >>= Json.string?
    let args ← (Json.field "args" members).value? >>= Json.array?
    let result? ← optionalString? (Json.field "result" members)
    return ⟨opcode, args.map Json.canonical, result?⟩
  | .array [opcode, args, result] => do
    let opcode ← opcode.string?
    let args ← args.array?
    let result? ← optionalString? (.once result)
    return ⟨opcode, args.map Json.canonical, result?⟩
  | _ => none

end InstrRecord

namespace Record

def var? (members : List (String × Json)) : Option Record := do
  let name ← (Json.field "var" members).value? >>= Json.string?
  let init ← (Json.field "init" members).value? >>= Json.int64?
  return .var name init

def proc? (members : List (String × Json)) : Option Record := do
  let name ← (Json.field "proc" members).value? >>= Json.string?
  let params ← (Json.field "args" members).value? >>= Json.array? >>= List.mapM Json.string?
  let body ← (Json.field "body" members).value? >>= Json.array? >>= List.mapM InstrRecord.ofJson?
  return .proc name params body

/-- Reads a declaration, as a variable if it is one and as a procedure otherwise. -/
def ofJson? : Json → Option Record
  | .object members => var? members <|> proc? members
  | _ => none

end Record

/-! ## Arguments -/

def int : Json → Except Malformed Int64
  | v => match v.int64? with
    | some n => .ok n
    | none => .error (.notInteger v)

def string : Json → Except Malformed String
  | .string s => .ok s
  | v => .error (.notString v)

def operand : Json → Except Malformed Operand
  | .string name => .ok (.temp ⟨name⟩)
  | .number n => match n.int64? with
    | some value => .ok (.imm value)
    | none => .error (.notImmediate n)
  | v => .error (.notOperand v)

def label (v : Json) : Except Malformed Label := Label.mk <$> string v

/-- A 32-bit count; `cause` says what is wrong with an integer that is none. -/
def count (cause : Malformed) (v : Json) : Except Malformed UInt32 := do
  let n ← int v
  if 0 ≤ n && n < 4294967296 then return UInt32.ofNat n.toInt.toNat else throw cause

def sources : Json → Except Malformed PhiSources
  | .object members => do
    let entries ← members.mapM fun m => do return (Label.mk m.1, ← operand m.2)
    return .ofList entries
  | _ => .error .notSources

def noArgs (op : Opcode) : List Json → Except Malformed Unit
  | [] => .ok ()
  | args => .error (.arity op 0 args.length)

def oneArg (op : Opcode) : List Json → Except Malformed Json
  | [a] => .ok a
  | args => .error (.arity op 1 args.length)

def twoArgs (op : Opcode) : List Json → Except Malformed (Json × Json)
  | [a, b] => .ok (a, b)
  | args => .error (.arity op 2 args.length)

/-! ## Instructions -/

/-- An instruction that lacks its destination only. -/
inductive Form where
  /-- The destination is required. -/
  | computes (make : Temp → Instr)
  /-- The destination may be missing. -/
  | calls (make : Option Temp → Instr)
  /-- There is no destination. -/
  | acts (i : Instr)

/-- Reads the arguments of an opcode: their number first, then each in turn, a call's argument
count before its target. -/
def form (op : Opcode) (args : List Json) : Except Malformed Form :=
  match op with
  | .nop => do
    noArgs op args
    return .acts .nop
  | .const => do
    let value ← oneArg op args >>= int
    return .computes (.const · value)
  | .copy => do
    let source ← oneArg op args >>= operand
    return .computes (.copy · source)
  | .unary f => do
    let x ← oneArg op args >>= operand
    return .computes (.unary · f x)
  | .binary f => do
    let (left, right) ← twoArgs op args
    let left ← operand left
    let right ← operand right
    return .computes (.binary · f left right)
  | .param => do
    let (index, value) ← twoArgs op args
    let index ← count .paramIndex index
    let value ← operand value
    return .acts (.param index value)
  | .call => do
    let (target, argc) ← twoArgs op args
    let argc ← count .argCount argc
    let target ← string target
    return .calls (.call · target argc)
  | .phi => do
    let sources ← oneArg op args >>= sources
    return .computes (.phi · sources)
  | .label => do
    let name ← oneArg op args >>= label
    return .acts (.label name)
  | .jump => do
    let target ← oneArg op args >>= label
    return .acts (.jump target)
  | .branch c => do
    let (value, target) ← twoArgs op args
    let value ← operand value
    let target ← label target
    return .acts (.branch c value target)
  | .ret => match args with
    | [] => return .acts (.ret none)
    | [value] => do
      let value ← operand value
      return .acts (.ret (some value))
    | _ => throw .tooManyReturns

/-- Completes an instruction by its destination. -/
def Form.close (op : Opcode) (result? : Option String) : Form → Except Malformed Instr
  | .computes make => match result? with
    | some dest => .ok (make ⟨dest⟩)
    | none => .error (.missingResult op)
  | .calls make => .ok (make (result?.map Temp.mk))
  | .acts i => match result? with
    | some dest => .error (.unwantedResult op dest)
    | none => .ok i

def InstrRecord.decode (r : InstrRecord) : Except Malformed Instr :=
  match Opcode.ofName? r.opcode with
  | none => .error (.unknownOpcode r.opcode)
  | some op => form op r.args >>= Form.close op r.result?

/-! ## Declarations -/

/-- Decodes the body of a procedure. -/
def body (name : String) (records : List InstrRecord) : Except Malformed (List Instr) :=
  (records.mapM InstrRecord.decode).mapError (.inProcedure name)

/-- Decodes a declaration; its name is looked at first. -/
def Record.decode : Record → Except Malformed Declaration
  | .var name init =>
    if name.front? == some '@' then .ok (.var ⟨name, init⟩) else .error (.variableName name)
  | .proc name params records =>
    if name.front? == some '@' then do
      let body ← body name records
      return .proc ⟨name, params.map Temp.mk, body⟩
    else .error (.procedureName name)

/-- The declarations of a JSON value. -/
def records? (v : Json) : Option (List Record) :=
  v.array? >>= List.mapM Record.ofJson?

end Format

/-- The program that a JSON value describes. -/
def Program.ofJson (v : Json) : Except ReadError Program :=
  match Format.records? v with
  | none => .error .shape
  | some records => (records.mapM Format.Record.decode).mapError .malformed

/-- The deepest nesting of arrays and objects in a program text. -/
def Program.maxNesting : Nat := 127

/-- The program that a text describes. -/
def Program.parse (text : String) : Except ReadError Program :=
  match Json.parse? Program.maxNesting text with
  | none => .error .shape
  | some v => Program.ofJson v

end ThreeAddress

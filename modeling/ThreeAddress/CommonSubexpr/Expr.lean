import ThreeAddress.Instr
/-!
# Expressions

What a binary or unary instruction computes, apart from where it puts it. Expressions that read
globals are left out: globals are memory, which any call may change.
-/

namespace ThreeAddress

/-- A computation without side effects. -/
inductive Expr where
  | binary (op : BinaryOp) (left right : Operand)
  | unary (op : UnaryOp) (operand : Operand)
deriving DecidableEq, Repr

namespace Expr

def operands : Expr → List Operand
  | binary _ left right => [left, right]
  | unary _ operand => [operand]

/-- The temporaries that the expression reads. -/
def temps (e : Expr) : List Temp := e.operands.filterMap Operand.temp?

def reads (e : Expr) (t : Temp) : Bool := e.temps.contains t

/-- What an instruction computes, globals or not. -/
def ofInstr? : Instr → Option Expr
  | .binary _ op left right => some (binary op left right)
  | .unary _ op operand => some (unary op operand)
  | _ => none

/-- What an instruction computes, where no global is read. -/
def of? (i : Instr) : Option Expr :=
  (ofInstr? i).filter fun e => !e.temps.any Temp.isGlobal

end Expr

end ThreeAddress

import ThreeAddress.Name
/-!
# Operators

The arithmetic and bitwise operators, the tests of conditional jumps, and the opcodes that spell
them. Values are 64-bit integers in two's complement: sums, differences, products and negations
wrap, division truncates toward zero, and a remainder has the sign of the dividend. A zero divisor
and a shift by an amount outside of 0 to 63 have no value.
-/

namespace ThreeAddress

/-! ## Operators and conditions -/

/-- Binary arithmetic and bitwise operators. -/
inductive BinaryOp where
  | add | sub | mul | div | mod | and | or | xor | shl | shr
deriving DecidableEq, Repr

namespace BinaryOp

def all : List BinaryOp := [add, sub, mul, div, mod, and, or, xor, shl, shr]

def name : BinaryOp → String
  | add => "add" | sub => "sub" | mul => "mul" | div => "div" | mod => "mod"
  | and => "and" | or => "or" | xor => "xor" | shl => "shl" | shr => "shr"

def ofName? (s : String) : Option BinaryOp := all.find? (·.name == s)

/-- Whether `n` is a shift amount for a 64-bit value. -/
def isShift (n : Int64) : Bool := 0 ≤ n && n < 64

/-- The value of `u op v`, where there is one. The right shift keeps the sign. -/
def eval (op : BinaryOp) (u v : Int64) : Option Int64 :=
  match op with
  | add => some (u + v)
  | sub => some (u - v)
  | mul => some (u * v)
  | div => if v = 0 then none else some (u / v)
  | mod => if v = 0 then none else some (u % v)
  | and => some (u &&& v)
  | or => some (u ||| v)
  | xor => some (u ^^^ v)
  | shl => if isShift v then some (u <<< v) else none
  | shr => if isShift v then some (u >>> v) else none

end BinaryOp

/-- Unary operators. -/
inductive UnaryOp where
  /-- Negation. -/
  | neg
  /-- Bitwise complement. -/
  | not
deriving DecidableEq, Repr

namespace UnaryOp

def all : List UnaryOp := [neg, not]

def name : UnaryOp → String
  | neg => "neg" | not => "not"

def ofName? (s : String) : Option UnaryOp := all.find? (·.name == s)

def eval (op : UnaryOp) (u : Int64) : Int64 :=
  match op with
  | neg => -u
  | not => ~~~u

end UnaryOp

/-- The test that a conditional jump makes on its operand. -/
inductive Condition where
  /-- Zero. -/
  | jz
  /-- Not zero. -/
  | jnz
  /-- Negative. -/
  | jl
  /-- Negative or zero. -/
  | jle
  /-- Not negative. -/
  | jnl
  /-- Positive. -/
  | jnle
deriving DecidableEq, Repr

namespace Condition

def all : List Condition := [jz, jnz, jl, jle, jnl, jnle]

def name : Condition → String
  | jz => "jz" | jnz => "jnz" | jl => "jl" | jle => "jle" | jnl => "jnl" | jnle => "jnle"

def ofName? (s : String) : Option Condition := all.find? (·.name == s)

/-- Whether the jump is taken on `value`. -/
def holds (c : Condition) (value : Int64) : Bool :=
  match c with
  | jz => value = 0
  | jnz => value ≠ 0
  | jl => value < 0
  | jle => value ≤ 0
  | jnl => 0 ≤ value
  | jnle => 0 < value

end Condition

/-! ## Opcodes -/

/-- The first word of an instruction. -/
inductive Opcode where
  | binary (op : BinaryOp)
  | unary (op : UnaryOp)
  | const
  | copy
  | param
  | call
  | phi
  | nop
  | label
  | jump
  | branch (c : Condition)
  | ret
deriving DecidableEq, Repr

namespace Opcode

def all : List Opcode :=
  BinaryOp.all.map binary ++ UnaryOp.all.map unary ++ [const, copy, param, call, phi, nop, label, jump] ++
    Condition.all.map branch ++ [ret]

def name : Opcode → String
  | binary op => op.name
  | unary op => op.name
  | const => "const"
  | copy => "copy"
  | param => "param"
  | call => "call"
  | phi => "phi"
  | nop => "nop"
  | label => "label"
  | jump => "jmp"
  | branch c => c.name
  | ret => "ret"

def ofName? (s : String) : Option Opcode := all.find? (·.name == s)

instance : ToString Opcode := ⟨Opcode.name⟩

/-- Every opcode is read back from its name. -/
theorem ofName?_name (op : Opcode) : ofName? op.name = some op := by
  cases op with
  | binary op => cases op <;> decide
  | unary op => cases op <;> decide
  | branch c => cases c <;> decide
  | _ => decide

end Opcode

end ThreeAddress

/-!
# Names and operands

Every value of three-address code has a name, a `Temp`, and the spelling of the name tells what
kind of value it is: `@g` is a global variable, `%x` a surface-level temporary or a parameter, and
`%3` or `%x.3` a temporary with a version. A `Label` names a basic block, and an `Operand` is what
an instruction reads: a temporary or a 64-bit literal.
-/

namespace ThreeAddress

/-- The text before and after the last dot, or `none` where there is no dot. -/
def splitLastDot? (s : List Char) : Option (List Char × List Char) :=
  match s.reverse.dropWhile (· != '.') with
  | [] => none
  | _ :: before => some (before.reverse, (s.reverse.takeWhile (· != '.')).reverse)

/-! ## Temporaries -/

/-- The name of a value, sigil included. -/
structure Temp where
  name : String
deriving DecidableEq, Repr, Hashable, Inhabited

namespace Temp

/-- What the spelling of a name says about its value. -/
inductive Kind where
  /-- A variable of the program, `@name`. -/
  | global
  /-- A surface-level variable or a parameter, `%name`. -/
  | named
  /-- A name with a version, `%3` or `%x.3`. -/
  | versioned
deriving DecidableEq, Repr

instance : ToString Temp := ⟨Temp.name⟩

/-- Temporaries are ordered by their spelling. -/
instance : LT Temp := ⟨fun a b => a.name < b.name⟩

instance (a b : Temp) : Decidable (a < b) :=
  inferInstanceAs (Decidable (a.name < b.name))

/-- Two names of which neither comes first are the same. -/
theorem eq_of_not_lt {a b : Temp} (h₁ : ¬ a < b) (h₂ : ¬ b < a) : a = b := by
  cases a; cases b
  exact congrArg Temp.mk (String.le_antisymm h₂ h₁)

/-- Globals are the names that start with `@`. -/
def isGlobal (t : Temp) : Bool :=
  t.name.front? == some '@'

/-- The name less one leading `%`. -/
def stem (t : Temp) : List Char :=
  match t.name.toList with
  | '%' :: s => s
  | s => s

/-- A name carries a version when its stem starts with a digit, or ends in a dot and at least one
digit. Digits are those of ASCII. -/
def hasVersion (t : Temp) : Bool :=
  (match t.stem.head? with
    | some c => c.isDigit
    | none => false) ||
  (match splitLastDot? t.stem with
    | some (_, version) => !version.isEmpty && version.all Char.isDigit
    | none => false)

/-- The kind that the spelling gives. -/
def kind (t : Temp) : Kind :=
  if t.isGlobal then .global
  else if t.hasVersion then .versioned
  else .named

def isVersioned (t : Temp) : Bool :=
  t.kind = .versioned

/-- The name without its version: what stands before the last dot, provided that this is longer
than one byte and that only digits, or nothing at all, stand after it. -/
def base (t : Temp) : String :=
  match splitLastDot? t.name.toList with
  | some (before, version) =>
    if 1 < (String.ofList before).utf8ByteSize && version.all Char.isDigit then String.ofList before
    else t.name
  | none => t.name

/-- The name `base.n`. -/
def withVersion (t : Temp) (n : Nat) : Temp :=
  ⟨t.base ++ "." ++ toString n⟩

end Temp

/-! ## Labels -/

/-- The name of a basic block. -/
structure Label where
  name : String
deriving DecidableEq, Repr, Hashable, Inhabited

instance : ToString Label := ⟨Label.name⟩

/-- Labels are ordered by their spelling. -/
instance : LT Label := ⟨fun a b => a.name < b.name⟩

instance (a b : Label) : Decidable (a < b) :=
  inferInstanceAs (Decidable (a.name < b.name))

/-! ## Operands -/

/-- What an instruction reads. -/
inductive Operand where
  /-- The current value of a temporary. -/
  | temp (t : Temp)
  /-- A literal. -/
  | imm (value : Int64)
deriving DecidableEq, Repr, Inhabited

namespace Operand

instance : ToString Operand where
  toString
    | temp t => t.name
    | imm value => toString value

def temp? : Operand → Option Temp
  | temp t => some t
  | imm _ => none

def imm? : Operand → Option Int64
  | temp _ => none
  | imm value => some value

/-- Whether the operand reads `t`. -/
def reads (o : Operand) (t : Temp) : Bool :=
  o = temp t

/-- The operand with `new` in the place of `t`. -/
def subst (o : Operand) (t : Temp) (new : Operand) : Operand :=
  if o.reads t then new else o

end Operand

end ThreeAddress

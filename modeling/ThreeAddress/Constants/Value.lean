import ThreeAddress.Name
/-!
# Abstract values

What is known of a temporary: that nothing has been found to define it yet, that it holds one
integer, or that it may hold several. Knowledge only ever grows upward, by joins.
-/

namespace ThreeAddress.Constants

/-- What is known of a temporary. -/
inductive Value where
  /-- No definition has been found to execute. -/
  | unused
  /-- It holds this integer and no other. -/
  | constant (c : Int64)
  /-- It may hold several integers. -/
  | varies
deriving DecidableEq, Repr

namespace Value

/-- The least value above both. -/
def join : Value → Value → Value
  | unused, v => v
  | v, unused => v
  | constant a, constant b => if a = b then constant a else varies
  | _, _ => varies

def constant? : Value → Option Int64
  | constant c => some c
  | _ => none

/-- The order of knowledge; two constants that differ cannot be compared. -/
def compare? (a b : Value) : Option Ordering :=
  if a = b then some .eq
  else match a, b with
    | unused, _ | _, varies => some .lt
    | _, unused | varies, _ => some .gt
    | constant _, constant _ => none

def text : Value → String
  | unused => "⊥"
  | constant c => toString c
  | varies => "⊤"

instance : ToString Value := ⟨text⟩

/-- What is known of a temporary before anything is executed: a name without a version may be a
parameter, or be written in several places. -/
def initial (t : Temp) : Value :=
  if t.isVersioned then unused else varies

/-! ## Laws of the join -/

@[simp] theorem join_self (a : Value) : a.join a = a := by
  cases a <;> simp [join]

@[simp] theorem unused_join (a : Value) : unused.join a = a := by
  cases a <;> rfl

@[simp] theorem join_unused (a : Value) : a.join unused = a := by
  cases a <;> rfl

@[simp] theorem varies_join (a : Value) : varies.join a = varies := by
  cases a <;> rfl

@[simp] theorem join_varies (a : Value) : a.join varies = varies := by
  cases a <;> rfl

theorem join_comm (a b : Value) : a.join b = b.join a := by
  cases a <;> cases b <;> simp only [join]
  rename_i c d
  by_cases h : c = d
  · simp [h]
  · simp [h, Ne.symm h]

theorem join_assoc (a b c : Value) : (a.join b).join c = a.join (b.join c) := by
  cases a <;> cases b <;> cases c <;> grind [join]

end Value

end ThreeAddress.Constants

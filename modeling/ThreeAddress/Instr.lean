import ThreeAddress.Operator
import ThreeAddress.PhiSources
/-!
# Instructions

One constructor for each form of instruction. An instruction that computes carries the temporary
that it writes, a call may carry one, and the others have no place for it. `label` occurs in linear
code only; a basic block is named by its `Block` instead.

`uses` lists the operands that an instruction reads and `mapOperands` maps them; that the two
speak of the same operands is `uses_mapOperands`.
-/

namespace ThreeAddress

/-- A three-address instruction. -/
inductive Instr where
  | nop
  | const (dest : Temp) (value : Int64)
  | copy (dest : Temp) (source : Operand)
  | binary (dest : Temp) (op : BinaryOp) (left right : Operand)
  | unary (dest : Temp) (op : UnaryOp) (operand : Operand)
  /-- Stages an argument, counted from 1, for the next call. -/
  | param (index : UInt32) (value : Operand)
  /-- Calls a procedure with the first `argc` staged arguments. -/
  | call (dest? : Option Temp) (target : String) (argc : UInt32)
  /-- Takes the operand of the block that control arrived from. -/
  | phi (dest : Temp) (sources : PhiSources)
  /-- Opens a block of linear code. -/
  | label (name : Label)
  | jump (target : Label)
  /-- Jumps if the condition holds of the operand, and goes on otherwise. -/
  | branch (cond : Condition) (value : Operand) (target : Label)
  | ret (value? : Option Operand)
deriving DecidableEq, Repr, Inhabited

namespace Instr

def opcode : Instr → Opcode
  | nop => .nop
  | const .. => .const
  | copy .. => .copy
  | binary _ op _ _ => .binary op
  | unary _ op _ => .unary op
  | param .. => .param
  | call .. => .call
  | phi .. => .phi
  | label _ => .label
  | jump _ => .jump
  | branch c _ _ => .branch c
  | ret _ => .ret

/-- The temporary that the instruction writes. -/
def dest? : Instr → Option Temp
  | const dest _ | copy dest _ | binary dest _ _ _ | unary dest _ _ | phi dest _ => some dest
  | call dest? _ _ => dest?
  | _ => none

/-- The destination, where it is a local. -/
def localDest? (i : Instr) : Option Temp :=
  i.dest?.filter (!·.isGlobal)

/-- Whether the instruction writes `t`. -/
def defines (i : Instr) (t : Temp) : Bool :=
  i.dest? = some t

/-- The instruction with another destination; one that writes nothing stays. -/
def withDest (i : Instr) (t : Temp) : Instr :=
  match i with
  | const _ v => const t v
  | copy _ s => copy t s
  | binary _ op l r => binary t op l r
  | unary _ op o => unary t op o
  | call (some _) p n => call (some t) p n
  | phi _ s => phi t s
  | i => i

/-- The operands that the instruction reads, the sources of a phi included, by label. -/
def uses : Instr → List Operand
  | copy _ source => [source]
  | binary _ _ left right => [left, right]
  | unary _ _ operand => [operand]
  | param _ value => [value]
  | phi _ sources => sources.operands
  | branch _ value _ => [value]
  | ret value? => value?.toList
  | nop | const .. | call .. | label _ | jump _ => []

/-- The temporaries that the instruction reads. -/
def usedTemps (i : Instr) : List Temp :=
  i.uses.filterMap Operand.temp?

/-- Whether some operand reads `t`. -/
def reads (i : Instr) (t : Temp) : Bool :=
  i.uses.any (·.reads t)

/-- Applies `f` to every operand. -/
def mapOperands (f : Operand → Operand) : Instr → Instr
  | copy dest source => copy dest (f source)
  | binary dest op left right => binary dest op (f left) (f right)
  | unary dest op operand => unary dest op (f operand)
  | param index value => param index (f value)
  | phi dest sources => phi dest (sources.mapOperands fun _ => f)
  | branch cond value target => branch cond (f value) target
  | ret value? => ret (value?.map f)
  | i => i

/-- Reads `new` wherever the instruction reads `t`. -/
def subst (i : Instr) (t : Temp) (new : Operand) : Instr :=
  i.mapOperands (·.subst t new)

/-- Jumps, conditional jumps and returns. -/
def isTerminator : Instr → Bool
  | jump _ | branch .. | ret _ => true
  | _ => false

/-- Whether control never goes on to the next instruction. -/
def isFinal : Instr → Bool
  | jump _ | ret _ => true
  | _ => false

def isPhi : Instr → Bool
  | phi .. => true
  | _ => false

/-- Where a jump goes. -/
def target? : Instr → Option Label
  | jump target => some target
  | branch _ _ target => some target
  | _ => none

def sources? : Instr → Option PhiSources
  | phi _ sources => some sources
  | _ => none

/-- The label that the instruction opens a block with. -/
def label? : Instr → Option Label
  | label name => some name
  | _ => none

/-! ## Lemmas -/

theorem mem_usedTemps {i : Instr} {t : Temp} : t ∈ i.usedTemps ↔ .temp t ∈ i.uses := by
  simp only [usedTemps, List.mem_filterMap]
  constructor
  · rintro ⟨o, ho, hot⟩
    cases o <;> cases hot
    exact ho
  · exact fun h => ⟨_, h, rfl⟩

theorem localDest?_eq_some {i : Instr} {t : Temp} :
    i.localDest? = some t ↔ i.dest? = some t ∧ t.isGlobal = false := by
  simp [localDest?, Option.filter_eq_some_iff]

@[simp] theorem uses_mapOperands (f : Operand → Operand) (i : Instr) :
    (i.mapOperands f).uses = i.uses.map f := by
  cases i with
  | phi d s => simp [mapOperands, uses, PhiSources.operands, PhiSources.mapOperands, Function.comp_def]
  | ret v => cases v <;> rfl
  | _ => rfl

theorem mem_uses_mapOperands {f : Operand → Operand} {i : Instr} {o' : Operand} :
    o' ∈ (i.mapOperands f).uses ↔ ∃ o ∈ i.uses, f o = o' := by
  rw [uses_mapOperands, List.mem_map]

theorem mem_usedTemps_mapOperands {f : Operand → Operand} {i : Instr} {t : Temp} :
    t ∈ (i.mapOperands f).usedTemps ↔ ∃ o ∈ i.uses, f o = .temp t :=
  mem_usedTemps.trans mem_uses_mapOperands

@[simp] theorem dest?_mapOperands (f : Operand → Operand) (i : Instr) :
    (i.mapOperands f).dest? = i.dest? := by
  cases i <;> rfl

@[simp] theorem target?_mapOperands (f : Operand → Operand) (i : Instr) :
    (i.mapOperands f).target? = i.target? := by
  cases i <;> rfl

@[simp] theorem isTerminator_mapOperands (f : Operand → Operand) (i : Instr) :
    (i.mapOperands f).isTerminator = i.isTerminator := by
  cases i <;> rfl

@[simp] theorem isFinal_mapOperands (f : Operand → Operand) (i : Instr) :
    (i.mapOperands f).isFinal = i.isFinal := by
  cases i <;> rfl

@[simp] theorem isPhi_mapOperands (f : Operand → Operand) (i : Instr) :
    (i.mapOperands f).isPhi = i.isPhi := by
  cases i <;> rfl

@[simp] theorem label?_mapOperands (f : Operand → Operand) (i : Instr) :
    (i.mapOperands f).label? = i.label? := by
  cases i <;> rfl

@[simp] theorem uses_withDest (i : Instr) (t : Temp) : (i.withDest t).uses = i.uses := by
  cases i with
  | call d => cases d <;> rfl
  | _ => rfl

@[simp] theorem isPhi_withDest (i : Instr) (t : Temp) : (i.withDest t).isPhi = i.isPhi := by
  cases i with
  | call d => cases d <;> rfl
  | _ => rfl

@[simp] theorem isTerminator_withDest (i : Instr) (t : Temp) :
    (i.withDest t).isTerminator = i.isTerminator := by
  cases i with
  | call d => cases d <;> rfl
  | _ => rfl

@[simp] theorem label?_withDest (i : Instr) (t : Temp) : (i.withDest t).label? = i.label? := by
  cases i with
  | call d => cases d <;> rfl
  | _ => rfl

/-- An instruction that has a destination gets the new one. -/
theorem dest?_withDest {i : Instr} {t u : Temp} (h : i.dest? = some u) : (i.withDest t).dest? = some t := by
  cases i with
  | call d => cases d <;> first | rfl | cases h
  | _ => first | rfl | cases h

theorem mapOperands_mapOperands (f g : Operand → Operand) (i : Instr) :
    (i.mapOperands f).mapOperands g = i.mapOperands (g ∘ f) := by
  cases i <;> simp [mapOperands, PhiSources.mapOperands]

@[simp] theorem mapOperands_id (i : Instr) : i.mapOperands id = i := by
  cases i with
  | phi d s => simp [mapOperands, PhiSources.mapOperands]
  | ret v => cases v <;> rfl
  | _ => rfl

/-! ## Kinds of instructions -/

theorem eq_label_of_label? {i : Instr} {l : Label} (h : i.label? = some l) : i = .label l := by
  cases i <;> cases h
  rfl

theorem exists_phi_of_sources? {i : Instr} {sources : PhiSources} (h : i.sources? = some sources) :
    ∃ dest, i = .phi dest sources := by
  cases i <;> cases h
  exact ⟨_, rfl⟩

theorem isTerminator_of_target? {i : Instr} {l : Label} (h : i.target? = some l) : i.isTerminator = true := by
  cases i <;> first | rfl | cases h

theorem isTerminator_of_isFinal {i : Instr} (h : i.isFinal = true) : i.isTerminator = true := by
  cases i <;> first | rfl | cases h

/-- Control can go on behind what is no jump. -/
theorem isFinal_of_not_isTerminator {i : Instr} (h : i.isTerminator = false) : i.isFinal = false :=
  Bool.eq_false_iff.2 fun hf => Bool.eq_false_iff.1 h (isTerminator_of_isFinal hf)

theorem isPhi_of_isTerminator {i : Instr} (h : i.isTerminator = true) : i.isPhi = false := by
  cases i <;> first | rfl | cases h

theorem label?_of_isTerminator {i : Instr} (h : i.isTerminator = true) : i.label? = none := by
  cases i <;> first | rfl | cases h

theorem dest?_of_isTerminator {i : Instr} (h : i.isTerminator = true) : i.dest? = none := by
  cases i <;> first | rfl | cases h

theorem isTerminator_of_isPhi {i : Instr} (h : i.isPhi = true) : i.isTerminator = false := by
  cases i <;> first | rfl | cases h

theorem label?_of_isPhi {i : Instr} (h : i.isPhi = true) : i.label? = none := by
  cases i <;> first | rfl | cases h

/-! ## Text -/

/-- What stands after the opcode. -/
def argText : Instr → String
  | nop => ""
  | const _ value => s!" {value}"
  | copy _ source => s!" {source}"
  | binary _ _ left right => s!" {left}, {right}"
  | unary _ _ operand => s!" {operand}"
  | param index value => s!" {index}, {value}"
  | call _ target argc => s!" {target}, {argc}"
  | phi _ sources => "(" ++ ", ".intercalate (sources.entries.map fun e => s!"{e.1}: {e.2}") ++ ")"
  | label _ => ""
  | jump target => s!" {target}"
  | branch _ value target => s!" {value}, {target}"
  | ret (some value) => s!" {value}"
  | ret none => ""

/-- The instruction as it is written: a label with a colon, any other instruction as its
destination, opcode and arguments with a semicolon. -/
def text : Instr → String
  | label name => s!"{name}:"
  | i =>
    let dest := match i.dest? with
      | some t => s!"{t} = "
      | none => ""
    s!"{dest}{i.opcode}{i.argText};"

instance : ToString Instr := ⟨Instr.text⟩

end Instr

end ThreeAddress

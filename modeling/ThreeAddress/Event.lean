import ThreeAddress.Name
/-!
# Events

What happens while a program is optimized is recorded as a list of events: the transformations by the
passes, the beginning and end of each pass, and notes. Reports count them by kind.
-/

namespace ThreeAddress

namespace Event

/-- What an event records. -/
inductive Kind where
  /-- A temporary was found constant and its uses were replaced by the value. -/
  | constantFolded
  /-- A conditional jump was decided. -/
  | branchSimplified
  /-- An instruction was deleted. -/
  | instructionRemoved
  /-- A block that never executes was deleted. -/
  | blockRemoved
  /-- A redundant phi was deleted. -/
  | phiSimplified
  /-- A computation was replaced by a copy of an earlier result. -/
  | expressionEliminated
  /-- A copy was deleted and its source read instead. -/
  | copyPropagated
  | passStarted
  | passCompleted
  /-- A note on a procedure. -/
  | info
  /-- Input that had to be mended. -/
  | warning
deriving DecidableEq, Repr

namespace Kind

def all : List Kind :=
  [constantFolded, branchSimplified, instructionRemoved, blockRemoved, phiSimplified,
    expressionEliminated, copyPropagated, passStarted, passCompleted, info, warning]

def text : Kind → String
  | constantFolded => "constant folded"
  | branchSimplified => "branch simplified"
  | instructionRemoved => "instruction removed"
  | blockRemoved => "block removed"
  | phiSimplified => "phi simplified"
  | expressionEliminated => "expression eliminated"
  | copyPropagated => "copy propagated"
  | passStarted => "pass started"
  | passCompleted => "pass completed"
  | info => "info"
  | warning => "warning"

def ofText? (s : String) : Option Kind := all.find? (·.text == s)

/-- Whether events of the kind describe a transformation of the code. -/
def isTransformation : Kind → Bool
  | constantFolded | branchSimplified | instructionRemoved | blockRemoved | phiSimplified
  | expressionEliminated | copyPropagated => true
  | passStarted | passCompleted | info | warning => false

instance : ToString Kind := ⟨text⟩

end Kind

end Event

/-- A recorded transformation or note. -/
structure Event where
  kind : Event.Kind
  proc? : Option String
  block? : Option Label
  /-- The pass that recorded it. -/
  pass? : Option String
  message : String
deriving DecidableEq, Repr

namespace Event

/-- An event that belongs to no procedure; its message is its kind. -/
def ofKind (kind : Kind) : Event := ⟨kind, none, none, none, kind.text⟩

/-- A note. -/
def info (message : String) : Event := { ofKind .info with message := message }

def warn (message : String) : Event := { ofKind .warning with message := message }

/-- An event of a pass on a procedure. -/
def ofPass (kind : Kind) (pass proc : String) : Event :=
  { ofKind kind with proc? := some proc, pass? := some pass }

/-- The event at a block. -/
def atBlock (e : Event) (l : Label) : Event := { e with block? := some l }

def withMessage (e : Event) (message : String) : Event := { e with message := message }

/-- The kind in brackets, the place as far as it is known, and the message. -/
def text (e : Event) : String :=
  let proc := match e.proc? with
    | some p => s!" {p}"
    | none => ""
  let block := match e.block? with
    | some l => s!" {l}"
    | none => ""
  s!"[{e.kind}]{proc}{block}: {e.message}"

instance : ToString Event := ⟨text⟩

/-- Whether an event describes a transformation of the code of a procedure. -/
def Transforms (e : Event) (proc : String) : Prop :=
  e.kind.isTransformation = true ∧ e.proc? = some proc

end Event

/-! ## Reports -/

/-- The events of a run. -/
abbrev EventLog := List Event

namespace EventLog

def ofKind (log : EventLog) (k : Event.Kind) : EventLog := log.filter (·.kind = k)

/-- The number of events of a kind. -/
def countKind (log : EventLog) (k : Event.Kind) : Nat := (log.ofKind k).length

def has (log : EventLog) (k : Event.Kind) : Bool := log.any (·.kind = k)

def transformations (log : EventLog) : EventLog := log.filter (·.kind.isTransformation)

/-- The kinds that occur, with their numbers. -/
def counts (log : EventLog) : List (Event.Kind × Nat) :=
  (Event.Kind.all.filter log.has).map fun k => (k, log.countKind k)

/-- The procedures with at least one transformation. -/
def affected (log : EventLog) : List String :=
  (log.transformations.filterMap Event.proc?).eraseDups

theorem mem_affected {log : EventLog} {proc : String} :
    proc ∈ log.affected ↔ ∃ e ∈ log, e.Transforms proc := by
  simp [affected, transformations, Event.Transforms, and_assoc]

theorem mem_affected_append {log log' : EventLog} {proc : String} :
    proc ∈ affected (log ++ log') ↔ proc ∈ log.affected ∨ proc ∈ log'.affected := by
  simp only [mem_affected, List.mem_append, or_and_right, exists_or]

theorem mem_affected_flatMap {α : Type} {as : List α} {g : α → EventLog} {proc : String} :
    proc ∈ affected (as.flatMap g) ↔ ∃ a ∈ as, proc ∈ (g a).affected := by
  simp only [mem_affected, List.mem_flatMap]
  constructor
  · rintro ⟨e, ⟨a, ha, he⟩, h⟩
    exact ⟨a, ha, e, he, h⟩
  · rintro ⟨a, ha, e, he, h⟩
    exact ⟨e, ⟨a, ha, he⟩, h⟩

/-- Where all events describe transformations of one procedure, it is affected if there is one. -/
theorem mem_affected_iff_ne_nil {log : EventLog} {proc : String} (h : ∀ e ∈ log, e.Transforms proc) :
    proc ∈ log.affected ↔ log ≠ [] := by
  rw [mem_affected, Ne, List.eq_nil_iff_forall_not_mem, Classical.not_forall_not]
  exact exists_congr fun e => and_iff_left_of_imp (h e)

theorem mem_affected_map {α : Type} {as : List α} {g : α → Event} {proc : String}
    (h : ∀ a, (g a).Transforms proc) : proc ∈ affected (as.map g) ↔ as ≠ [] := by
  rw [mem_affected_iff_ne_nil fun e he => ?_]
  · exact not_congr List.map_eq_nil_iff
  · obtain ⟨a, -, rfl⟩ := List.mem_map.1 he
    exact h a

/-- The numbers of transformations by kind, in the order of their texts. -/
def summary (log : EventLog) : String :=
  if log.isEmpty then "no events"
  else
    match log.counts.filter (·.1.isTransformation) with
    | [] => s!"{log.length} events"
    | counts =>
      let parts := counts.map fun c => s!"{c.2} {c.1}"
      ", ".intercalate (parts.mergeSort (fun a b => !(b < a)))

/-! ## Order of reports -/

/-- A missing field comes before any text. -/
def fieldOrder (a b : Option String) : Ordering :=
  match a, b with
  | none, none => .eq
  | none, some _ => .lt
  | some _, none => .gt
  | some x, some y => compareOfLessAndEq x y

/-- Events are ordered by kind, procedure, block, pass and message. -/
def eventOrder (a b : Event) : Ordering :=
  (compareOfLessAndEq a.kind.text b.kind.text).then <|
  (fieldOrder a.proc? b.proc?).then <|
  (fieldOrder (a.block?.map Label.name) (b.block?.map Label.name)).then <|
  (fieldOrder a.pass? b.pass?).then <|
  compareOfLessAndEq a.message b.message

/-- The events in the order of reports. -/
def sorted (log : EventLog) : EventLog :=
  log.mergeSort fun a b => eventOrder a b != .gt

end EventLog

end ThreeAddress

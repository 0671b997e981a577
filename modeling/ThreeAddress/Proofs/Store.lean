import ThreeAddress.Machine.Step
/-!
# Stores

What a running procedure can change is a `Store`: the globals and the output, which it shares with
its callers, its staged arguments, and its locals. This module says what one instruction does to a
store when the effect of a call is given by an arbitrary relation `Calls`, so that statements about
one procedure do not depend on the others.

An instruction reads its operands, acts on the memory it shares (`Instr.Acts`), and leaves a value
in its destination (`Store.receive`). That operands and destination enter only in this way is what
lets one lemma, `Store.Exec.transfer`, serve every rewriting of operands.
-/

namespace ThreeAddress

/-- What calls do: from a target, its arguments, the globals and the output to what they end in. -/
abbrev Calls := String → List Int64 → Table Temp Int64 → List String → Final → Prop

/-- Calls of a procedure leave the globals as they are. -/
def Calls.Quiet (calls : Calls) (target : String) : Prop :=
  ∀ args globals output f, calls target args globals output f → f.globals = globals

/-- What a procedure may take for granted about the program around it. -/
structure Surroundings where
  /-- The procedures that leave the globals alone. -/
  quiet : String → Prop
  /-- The globals that are declared. -/
  declares : Temp → Prop

namespace Surroundings

/-- Surroundings of which nothing is known. -/
def unknown : Surroundings := ⟨fun _ => False, fun _ => False⟩

/-- What is declared is among the globals. -/
def Covers (env : Surroundings) (globals : Table Temp Int64) : Prop :=
  ∀ t, env.declares t → globals.contains t = true

/-- Calls and globals are as the surroundings have them. -/
structure Offers (env : Surroundings) (calls : Calls) (globals : Table Temp Int64) : Prop where
  quiet : ∀ target, env.quiet target → calls.Quiet target
  covers : env.Covers globals

end Surroundings

/-- What a procedure shares with others, and the arguments it has staged for them. -/
structure Memory where
  globals : Table Temp Int64
  output : List String
  staged : Table UInt32 Int64

/-- What a running procedure can change. -/
structure Store extends Memory where
  locals : Table Temp Int64

namespace Store

/-! ## Reading and writing -/

/-- The value of a temporary, if it has one. -/
def temp? (σ : Store) (t : Temp) : Option Int64 :=
  if t.isGlobal then σ.globals.get? t else σ.locals.get? t

/-- The value of an operand, if it has one. -/
def value? (σ : Store) : Operand → Option Int64
  | .temp t => σ.temp? t
  | .imm v => some v

def write (σ : Store) (t : Temp) (v : Int64) : Store :=
  if t.isGlobal then
    if σ.globals.contains t then { σ with globals := σ.globals.set t v } else σ
  else { σ with locals := σ.locals.set t v }

/-- Gives a destination its value, or leaves it undefined where there is none. -/
def receive (σ : Store) (dest? : Option Temp) (v? : Option Int64) : Store :=
  match dest?, v? with
  | some t, some v => σ.write t v
  | some t, none => { σ with locals := σ.locals.erase t }
  | none, _ => σ

@[simp] theorem value?_temp (σ : Store) (t : Temp) : σ.value? (.temp t) = σ.temp? t := rfl

@[simp] theorem value?_imm (σ : Store) (v : Int64) : σ.value? (.imm v) = some v := rfl

theorem temp?_of_global {t : Temp} (h : t.isGlobal = true) (σ : Store) :
    σ.temp? t = σ.globals.get? t := by
  simp [temp?, h]

theorem temp?_of_local {t : Temp} (h : t.isGlobal = false) (σ : Store) :
    σ.temp? t = σ.locals.get? t := by
  simp [temp?, h]

/-- What is shared does not matter to locals. -/
theorem temp?_mk {t : Temp} (h : t.isGlobal = false) (m : Memory) (σ : Store) :
    (Store.mk m σ.locals).temp? t = σ.temp? t := by
  rw [temp?_of_local h, temp?_of_local h]

/-- What a local holds after a write: only the destination has changed. -/
theorem temp?_receive_local {u : Temp} (hu : u.isGlobal = false) (σ : Store) (dest? : Option Temp)
    (v? : Option Int64) :
    (σ.receive dest? v?).temp? u = if dest? = some u then v? else σ.temp? u := by
  rw [temp?_of_local hu, temp?_of_local hu]
  cases dest? with
  | none => simp [receive]
  | some t =>
    cases v? with
    | none => by_cases h : u = t <;> simp [receive, h, eq_comm]
    | some v =>
      by_cases ht : t.isGlobal
      · have hne : t ≠ u := fun h => by simp [h, hu] at ht
        simp only [receive, write, ht, if_true, Option.some.injEq, hne, if_false]
        split <;> rfl
      · by_cases h : u = t <;> simp [receive, write, ht, h, eq_comm]

/-- What is shared after a write does not depend on the locals. -/
theorem toMemory_receive (m : Memory) (l l' : Table Temp Int64) (dest? : Option Temp)
    (v? : Option Int64) :
    ((Store.mk m l).receive dest? v?).toMemory = ((Store.mk m l').receive dest? v?).toMemory := by
  cases dest? with
  | none => rfl
  | some t =>
    cases v? with
    | none => rfl
    | some v =>
      simp only [receive, write]
      split
      · split <;> rfl
      · rfl

/-- A local destination leaves alone what is shared. -/
theorem toMemory_receive_local (σ : Store) {t : Temp} (ht : t.isGlobal = false) (v? : Option Int64) :
    (σ.receive (some t) v?).toMemory = σ.toMemory := by
  cases v? <;> simp [receive, write, ht]

/-- What a global holds after a write to something else. -/
theorem temp?_receive_global {u : Temp} (hu : u.isGlobal = true) (σ : Store) {dest? : Option Temp}
    (hd : dest? ≠ some u) (v? : Option Int64) : (σ.receive dest? v?).temp? u = σ.temp? u := by
  rw [temp?_of_global hu, temp?_of_global hu]
  cases dest? with
  | none => rfl
  | some t =>
    have hne : u ≠ t := fun h => hd (h ▸ rfl)
    cases v? with
    | none => rfl
    | some v =>
      simp only [receive, write]
      split
      · split
        · simp [hne]
        · rfl
      · rfl

/-- A global stays declared. -/
theorem contains_receive {σ : Store} {t : Temp} (h : σ.globals.contains t = true) (dest? : Option Temp)
    (v? : Option Int64) : (σ.receive dest? v?).globals.contains t = true := by
  cases dest? with
  | none => exact h
  | some u =>
    cases v? with
    | none => exact h
    | some v =>
      simp only [receive, write]
      split
      · split
        · exact Table.contains_set_of_contains h u v
        · exact h
      · exact h

/-- A global that is declared, or a local, holds what is written to it. -/
theorem temp?_receive_self (σ : Store) {t : Temp} (h : t.isGlobal = true → σ.globals.contains t = true)
    (v : Int64) : (σ.receive (some t) (some v)).temp? t = some v := by
  cases ht : t.isGlobal with
  | false => rw [temp?_receive_local ht, if_pos rfl]
  | true =>
    rw [temp?_of_global ht]
    simp [receive, write, ht, h ht]

theorem temp?_congr_of_global {σ τ : Store} (h : σ.toMemory = τ.toMemory) {t : Temp}
    (ht : t.isGlobal = true) : σ.temp? t = τ.temp? t := by
  rw [temp?_of_global ht, temp?_of_global ht, h]

end Store

/-! ## Instructions -/

namespace Instr

/-- What an instruction does with the values of its operands: how it changes the memory, and which
value it has for its destination. Phis, labels and jumps do not act in this way. -/
def Acts (calls : Calls) (i : Instr) (vs : List Int64) (m m' : Memory) (w : Option Int64) : Prop :=
  match i with
  | .nop => vs = [] ∧ m' = m ∧ w = none
  | .const _ c => vs = [] ∧ m' = m ∧ w = some c
  | .copy _ _ => ∃ v, vs = [v] ∧ m' = m ∧ w = some v
  | .binary _ op _ _ => ∃ u v c, vs = [u, v] ∧ op.eval u v = some c ∧ m' = m ∧ w = some c
  | .unary _ op _ => ∃ v, vs = [v] ∧ m' = m ∧ w = some (op.eval v)
  | .param k _ => ∃ v, vs = [v] ∧ m' = { m with staged := m.staged.set k v } ∧ w = none
  | .call _ target argc => vs = [] ∧ ∃ args f,
      stagedFrom m.staged target 1 argc.toNat = .ok args ∧
        calls target args m.globals m.output f ∧ m' = ⟨f.globals, f.output, ∅⟩ ∧ w = f.result?
  | .phi .. | .label _ | .jump _ | .branch .. | .ret _ => False

/-- The procedure that an instruction calls. -/
def called? : Instr → Option String
  | call _ target _ => some target
  | _ => none

@[simp] theorem called?_mapOperands (f : Operand → Operand) (i : Instr) :
    (i.mapOperands f).called? = i.called? := by
  cases i with
  | ret v => cases v <;> rfl
  | _ => rfl

@[simp] theorem called?_withDest (i : Instr) (t : Temp) : (i.withDest t).called? = i.called? := by
  cases i with
  | call d => cases d <;> rfl
  | _ => rfl

theorem acts_mapOperands {calls : Calls} {f : Operand → Operand} {i : Instr} :
    (i.mapOperands f).Acts calls = i.Acts calls := by
  cases i with
  | ret v => cases v <;> rfl
  | _ => rfl

theorem acts_withDest {calls : Calls} {t : Temp} {i : Instr} :
    (i.withDest t).Acts calls = i.Acts calls := by
  cases i with
  | call d => cases d <;> rfl
  | _ => rfl

/-- More calls allow more. -/
theorem Acts.mono {calls calls' : Calls} (h : ∀ t a g o f, calls t a g o f → calls' t a g o f)
    {i : Instr} {vs : List Int64} {m m' : Memory} {w : Option Int64} (hi : i.Acts calls vs m m' w) :
    i.Acts calls' vs m m' w := by
  cases i with
  | call dest? target argc =>
    obtain ⟨hvs, args, f, hs, hc, hm⟩ := hi
    exact ⟨hvs, args, f, hs, h _ _ _ _ _ hc, hm⟩
  | _ => exact hi

/-- What is done without calls does not depend on what calls allow. -/
theorem Acts.of_not_call {calls : Calls} {i : Instr} {vs : List Int64} {m m' : Memory} {w : Option Int64}
    (h : i.Acts calls vs m m' w) (hc : ∀ d t n, i ≠ .call d t n) (calls' : Calls) : i.Acts calls' vs m m' w := by
  cases i with
  | call d t n => exact absurd rfl (hc d t n)
  | _ => exact h

/-- Only calls and `param` change the memory. -/
theorem Acts.memory_eq {calls : Calls} {i : Instr} {vs : List Int64} {m m' : Memory}
    {w : Option Int64} (h : i.Acts calls vs m m' w) (hp : ∀ k v, i ≠ .param k v)
    (hc : ∀ d t n, i ≠ .call d t n) : m' = m := by
  cases i <;> simp_all [Acts]
  all_goals grind

/-- Only calls change the globals. -/
theorem Acts.globals_eq {calls : Calls} {i : Instr} {vs : List Int64} {m m' : Memory} {w : Option Int64}
    (h : i.Acts calls vs m m' w) (hq : ∀ target, i.called? = some target → calls.Quiet target) :
    m'.globals = m.globals := by
  cases i with
  | call dest? target argc =>
    obtain ⟨-, args, f, -, hc, rfl, -⟩ := h
    exact hq target rfl _ _ _ _ hc
  | param k o =>
    obtain ⟨v, -, rfl, -⟩ := h
    rfl
  | _ => rw [h.memory_eq nofun nofun]

end Instr

namespace Store

/-- Executes an instruction that is no phi, label or jump. -/
def Exec (calls : Calls) (σ : Store) (i : Instr) (σ' : Store) : Prop :=
  ∃ vs m w, i.uses.map σ.value? = vs.map some ∧ i.Acts calls vs σ.toMemory m w ∧
    σ' = (Store.mk m σ.locals).receive i.dest? w

theorem Exec.mono {calls calls' : Calls} (h : ∀ t a g o f, calls t a g o f → calls' t a g o f)
    {σ σ' : Store} {i : Instr} (hi : σ.Exec calls i σ') : σ.Exec calls' i σ' := by
  obtain ⟨vs, m, w, hv, ha, rfl⟩ := hi
  exact ⟨vs, m, w, hv, ha.mono h, rfl⟩

theorem Exec.of_not_call {calls : Calls} {σ σ' : Store} {i : Instr} (h : σ.Exec calls i σ')
    (hc : ∀ d t n, i ≠ .call d t n) (calls' : Calls) : σ.Exec calls' i σ' := by
  obtain ⟨vs, m, w, hv, ha, rfl⟩ := h
  exact ⟨vs, m, w, hv, ha.of_not_call hc calls', rfl⟩

/-- Every operand of an instruction that is executed has a value. -/
theorem Exec.value {calls : Calls} {σ σ' : Store} {i : Instr} (h : σ.Exec calls i σ') {o : Operand}
    (ho : o ∈ i.uses) : ∃ v, σ.value? o = some v := by
  obtain ⟨vs, _, _, hv, _, _⟩ := h
  have : σ.value? o ∈ vs.map some := hv ▸ List.mem_map_of_mem ho
  obtain ⟨v, _, h⟩ := List.mem_map.1 this
  exact ⟨v, h.symm⟩

/-- Phis, labels and jumps are executed otherwise. -/
theorem Exec.plain {calls : Calls} {σ σ' : Store} {i : Instr} (h : σ.Exec calls i σ') :
    i.isPhi = false ∧ i.isTerminator = false ∧ i.label? = none := by
  obtain ⟨vs, _, _, _, ha, _⟩ := h
  cases i <;> first | exact ⟨rfl, rfl, rfl⟩ | (exact absurd ha (by simp [Instr.Acts]))

/-- Locals other than the destination keep their values. -/
theorem Exec.temp?_of_ne {calls : Calls} {σ σ' : Store} {i : Instr} (h : σ.Exec calls i σ') {u : Temp}
    (hu : u.isGlobal = false) (hd : i.dest? ≠ some u) : σ'.temp? u = σ.temp? u := by
  obtain ⟨vs, m, w, _, _, rfl⟩ := h
  rw [temp?_receive_local hu, if_neg hd, temp?_of_local hu, temp?_of_local hu]

/-- Globals other than the destination keep their values, unless a call writes globals. -/
theorem Exec.temp?_of_quiet {calls : Calls} {σ σ' : Store} {i : Instr} (h : σ.Exec calls i σ')
    (hq : ∀ target, i.called? = some target → calls.Quiet target) {u : Temp} (hd : i.dest? ≠ some u) :
    σ'.temp? u = σ.temp? u := by
  cases hu : u.isGlobal with
  | false => exact h.temp?_of_ne hu hd
  | true =>
    obtain ⟨vs, m, w, _, ha, rfl⟩ := h
    rw [temp?_receive_global hu _ hd, temp?_of_global hu, temp?_of_global hu, ← ha.globals_eq hq]

/-- Globals stay declared, unless a call takes them away. -/
theorem Exec.contains {calls : Calls} {σ σ' : Store} {i : Instr} (h : σ.Exec calls i σ')
    (hq : ∀ target, i.called? = some target → calls.Quiet target) {t : Temp}
    (ht : σ.globals.contains t = true) : σ'.globals.contains t = true := by
  obtain ⟨vs, m, w, _, ha, rfl⟩ := h
  exact contains_receive (σ := Store.mk m σ.locals) (ha.globals_eq hq ▸ ht) _ _

/-- Values that agree on the operands of an instruction let its image be executed in another
store, with the same effect. -/
theorem Exec.transfer {calls : Calls} {σ σ' τ : Store} {i : Instr} (h : σ.Exec calls i σ')
    (hm : σ.toMemory = τ.toMemory) {f : Operand → Operand}
    (hf : ∀ o ∈ i.uses, ∀ v, σ.value? o = some v → τ.value? (f o) = some v) :
    ∃ m w, σ' = (Store.mk m σ.locals).receive i.dest? w ∧
      τ.Exec calls (i.mapOperands f) ((Store.mk m τ.locals).receive i.dest? w) := by
  obtain ⟨vs, m, w, hv, ha, rfl⟩ := h
  refine ⟨m, w, rfl, vs, m, w, ?_, ?_, by simp⟩
  · rw [Instr.uses_mapOperands, List.map_map, ← hv]
    refine List.map_congr_left fun o ho => ?_
    obtain ⟨v, hov⟩ := Exec.value ⟨vs, m, w, hv, ha, rfl⟩ ho
    rw [Function.comp_apply, hf o ho v hov, hov]
  · rwa [Instr.acts_mapOperands, ← hm]

/-! ## Phis -/

/-- What the phis of a group write when control comes from a block. -/
def phiValues? (σ : Store) (l : Label) : List Instr → Option (List (Temp × Option Int64))
  | .phi dest sources :: phis =>
    match sources.find? l with
    | none => none
    | some source => (σ.phiValues? l phis).map ((dest, σ.value? source) :: ·)
  | _ :: phis => σ.phiValues? l phis
  | [] => some []

/-- Locals after a list of writes. -/
def putAll (locals : Table Temp Int64) (writes : List (Temp × Option Int64)) : Table Temp Int64 :=
  writes.foldl (fun locals w => locals.put w.1 w.2) locals

/-- Executes the phis that stand together, all of which read before any writes. -/
def Phis (σ : Store) (l : Label) (group : List Instr) (σ' : Store) : Prop :=
  ∃ writes, σ.phiValues? l group = some writes ∧ σ' = { σ with locals := putAll σ.locals writes }

theorem Phis.toMemory {σ σ' : Store} {l : Label} {group : List Instr} (h : σ.Phis l group σ') :
    σ'.toMemory = σ.toMemory := by
  obtain ⟨_, _, rfl⟩ := h
  rfl

@[simp] theorem putAll_nil (locals : Table Temp Int64) : putAll locals [] = locals := rfl

@[simp] theorem putAll_cons (locals : Table Temp Int64) (w : Temp × Option Int64)
    (ws : List (Temp × Option Int64)) : putAll locals (w :: ws) = putAll (locals.put w.1 w.2) ws := rfl

theorem putAll_append (locals : Table Temp Int64) (ws ws' : List (Temp × Option Int64)) :
    putAll locals (ws ++ ws') = putAll (putAll locals ws) ws' := by
  simp [putAll]

theorem get?_putAll_of_notMem {u : Temp} {ws : List (Temp × Option Int64)} (h : ∀ w ∈ ws, w.1 ≠ u)
    (locals : Table Temp Int64) : (putAll locals ws).get? u = locals.get? u := by
  induction ws generalizing locals with
  | nil => rfl
  | cons w ws ih =>
    rw [putAll_cons, ih fun w' hw' => h w' (.tail _ hw'), Table.get?_put,
      if_neg (Ne.symm (h w (.head _)))]

/-- What a local holds after a list of writes it held before, or one of them put it there. -/
theorem get?_putAll {u : Temp} {v : Int64} {ws : List (Temp × Option Int64)} {locals : Table Temp Int64}
    (h : (putAll locals ws).get? u = some v) : (u, some v) ∈ ws ∨ locals.get? u = some v := by
  induction ws generalizing locals with
  | nil => exact .inr h
  | cons w ws ih =>
    rcases ih h with h | h
    · exact .inl (.tail _ h)
    · rw [Table.get?_put] at h
      split at h
      · rename_i hu
        have hw : w = (u, some v) := Prod.ext hu.symm h
        exact .inl (hw ▸ List.mem_cons_self)
      · exact .inr h

/-- What a local holds after a list of writes depends on what it held before. -/
theorem get?_putAll_congr {u : Temp} {locals locals' : Table Temp Int64} (h : locals.get? u = locals'.get? u)
    (ws : List (Temp × Option Int64)) : (putAll locals ws).get? u = (putAll locals' ws).get? u := by
  induction ws generalizing locals locals' with
  | nil => exact h
  | cons w ws ih =>
    refine ih ?_
    rw [Table.get?_put, Table.get?_put, h]

/-- A local keeps its value where that is what is written to it. -/
theorem get?_putAll_of_same {u : Temp} {v? : Option Int64} {ws : List (Temp × Option Int64)}
    (h : ∀ w ∈ ws, w.1 = u → w.2 = v?) {locals : Table Temp Int64} (hu : locals.get? u = v?) :
    (putAll locals ws).get? u = v? := by
  induction ws generalizing locals with
  | nil => exact hu
  | cons w ws ih =>
    refine ih (fun w' hw' => h w' (.tail _ hw')) ?_
    rw [Table.get?_put]
    split
    · exact h w List.mem_cons_self (Eq.symm ‹_›)
    · exact hu

/-- The first instruction of a group is a phi that finds its source, or is passed over. -/
theorem phiValues?_cons {σ : Store} {l : Label} {i : Instr} {group : List Instr}
    {ws : List (Temp × Option Int64)} (h : σ.phiValues? l (i :: group) = some ws) :
    (∃ dest sources source ws', i = .phi dest sources ∧ sources.find? l = some source ∧
      σ.phiValues? l group = some ws' ∧ ws = (dest, σ.value? source) :: ws') ∨
    (i.isPhi = false ∧ σ.phiValues? l group = some ws) := by
  cases i with
  | phi dest sources =>
    simp only [phiValues?] at h
    split at h
    · simp at h
    · rename_i source hs
      obtain ⟨ws', hws, rfl⟩ := Option.map_eq_some_iff.1 h
      exact .inl ⟨dest, sources, source, ws', rfl, hs, hws, rfl⟩
  | _ => exact .inr ⟨rfl, h⟩

/-- A phi writes what its source holds. -/
theorem phiValues?_mem {σ : Store} {l : Label} {group : List Instr} {ws : List (Temp × Option Int64)}
    (h : σ.phiValues? l group = some ws) {w : Temp × Option Int64} (hw : w ∈ ws) :
    ∃ sources source, .phi w.1 sources ∈ group ∧ sources.find? l = some source ∧
      w.2 = σ.value? source := by
  induction group generalizing ws with
  | nil => simp only [phiValues?, Option.some.injEq] at h; simp [← h] at hw
  | cons i group ih =>
    rcases phiValues?_cons h with ⟨dest, sources, source, ws', rfl, hs, hws, rfl⟩ | ⟨-, hws⟩
    · rcases List.mem_cons.1 hw with rfl | hw
      · exact ⟨sources, source, List.mem_cons_self, hs, rfl⟩
      · obtain ⟨s, o, hmem, hs, hv⟩ := ih hws hw
        exact ⟨s, o, List.mem_cons_of_mem _ hmem, hs, hv⟩
    · obtain ⟨s, o, hmem, hs, hv⟩ := ih hws hw
      exact ⟨s, o, List.mem_cons_of_mem _ hmem, hs, hv⟩

/-- Every phi of a group finds a source. -/
theorem phiValues?_source {σ : Store} {l : Label} {group : List Instr}
    {ws : List (Temp × Option Int64)} (h : σ.phiValues? l group = some ws) {dest : Temp}
    {sources : PhiSources} (hi : .phi dest sources ∈ group) :
    ∃ source, sources.find? l = some source ∧ (dest, σ.value? source) ∈ ws := by
  induction group generalizing ws with
  | nil => simp at hi
  | cons i group ih =>
    rcases phiValues?_cons h with ⟨d, s, source, ws', rfl, hs, hws, rfl⟩ | ⟨hn, hws⟩
    · rcases List.mem_cons.1 hi with hi | hi
      · cases hi
        exact ⟨source, hs, List.mem_cons_self⟩
      · obtain ⟨o, ho, hmem⟩ := ih hws hi
        exact ⟨o, ho, List.mem_cons_of_mem _ hmem⟩
    · rcases List.mem_cons.1 hi with rfl | hi
      · simp [Instr.isPhi] at hn
      · exact ih hws hi

theorem phiValues?_append {σ : Store} {l : Label} {group group' : List Instr}
    {ws : List (Temp × Option Int64)} (h : σ.phiValues? l (group ++ group') = some ws) :
    ∃ ws₁ ws₂, σ.phiValues? l group = some ws₁ ∧ σ.phiValues? l group' = some ws₂ ∧ ws = ws₁ ++ ws₂ := by
  induction group generalizing ws with
  | nil => exact ⟨[], ws, rfl, h, rfl⟩
  | cons i group ih =>
    rcases phiValues?_cons h with ⟨dest, sources, source, ws', rfl, hs, hws, rfl⟩ | ⟨hn, hws⟩
    · obtain ⟨ws₁, ws₂, h₁, h₂, rfl⟩ := ih hws
      refine ⟨(dest, σ.value? source) :: ws₁, ws₂, ?_, h₂, rfl⟩
      simp only [phiValues?, hs, h₁, Option.map_some]
    · obtain ⟨ws₁, ws₂, h₁, h₂, rfl⟩ := ih hws
      refine ⟨ws₁, ws₂, ?_, h₂, rfl⟩
      cases i <;> first | exact h₁ | simp [Instr.isPhi] at hn

/-- Phis can be executed if each has a source for the block that control comes from. -/
theorem exists_phis_iff {σ : Store} {l : Label} {group : List Instr} : (∃ σ', σ.Phis l group σ') ↔
    ∀ dest sources, .phi dest sources ∈ group → l ∈ sources.labels := by
  constructor
  · rintro ⟨σ', ws, hws, -⟩ dest sources hi
    obtain ⟨o, ho, -⟩ := phiValues?_source hws hi
    exact PhiSources.mem_labels.2 ⟨o, ho⟩
  · intro h
    obtain ⟨ws, hws⟩ : ∃ ws, σ.phiValues? l group = some ws := by
      induction group with
      | nil => exact ⟨[], rfl⟩
      | cons i group ih =>
        obtain ⟨ws, hws⟩ := ih fun dest sources hi => h dest sources (.tail _ hi)
        cases i with
        | phi dest sources =>
          obtain ⟨o, ho⟩ := PhiSources.mem_labels.1 (h dest sources List.mem_cons_self)
          exact ⟨(dest, σ.value? o) :: ws, by simp [phiValues?, ho, hws]⟩
        | _ => exact ⟨ws, hws⟩
    exact ⟨_, ws, hws, rfl⟩

/-- A phi whose destination no later one of its group writes yields its source. -/
theorem Phis.temp?_of_phi {σ σ' : Store} {l : Label} {before after : List Instr} {x : Temp}
    {sources : PhiSources} (h : σ.Phis l (before ++ .phi x sources :: after) σ')
    (hx : x.isGlobal = false) (hafter : ∀ i ∈ after, i.dest? ≠ some x) :
    ∃ o, sources.find? l = some o ∧ σ'.temp? x = σ.value? o := by
  obtain ⟨ws, hws, rfl⟩ := h
  obtain ⟨ws₁, ws₂, -, h₂, rfl⟩ := phiValues?_append hws
  rcases phiValues?_cons h₂ with ⟨dest, s, o, ws₃, he, ho, h₃, rfl⟩ | ⟨hn, -⟩
  · cases he
    refine ⟨o, ho, ?_⟩
    rw [temp?_of_local hx]
    have hnot : ∀ w ∈ ws₃, w.1 ≠ x := by
      intro w hw hwx
      obtain ⟨s', _, hmem, _, _⟩ := phiValues?_mem h₃ hw
      exact hafter _ hmem (congrArg some hwx)
    simp only [putAll_append, putAll_cons]
    rw [get?_putAll_of_notMem hnot, Table.get?_put, if_pos rfl]
  · simp [Instr.isPhi] at hn

/-- Locals that no phi of a group writes keep their values. -/
theorem Phis.temp?_of_notMem {σ σ' : Store} {l : Label} {group : List Instr} (h : σ.Phis l group σ')
    {u : Temp} (hu : u.isGlobal = false) (hg : ∀ i ∈ group, i.dest? ≠ some u) :
    σ'.temp? u = σ.temp? u := by
  obtain ⟨ws, hws, rfl⟩ := h
  rw [temp?_of_local hu, temp?_of_local hu]
  refine get?_putAll_of_notMem (fun w hw => ?_) _
  obtain ⟨s, _, hmem, _, _⟩ := phiValues?_mem hws hw
  exact fun e => hg _ hmem (congrArg some e)

/-- Phis in front of a group that give locals the values that they have change nothing. -/
theorem Phis.temp?_of_append {σ σ₁ σ₂ : Store} {l : Label} {same group : List Instr}
    (h₁ : σ.Phis l (same ++ group) σ₁) (h₂ : σ.Phis l group σ₂)
    (hsame : ∀ dest sources o, .phi dest sources ∈ same → sources.find? l = some o → o = .temp dest)
    {u : Temp} (hu : u.isGlobal = false) : σ₁.temp? u = σ₂.temp? u := by
  obtain ⟨ws, hws, rfl⟩ := h₁
  obtain ⟨ws₂, hws₂, rfl⟩ := h₂
  obtain ⟨ws₁, ws₂', hws₁, hws₂', rfl⟩ := phiValues?_append hws
  cases hws₂.symm.trans hws₂'
  rw [temp?_of_local hu, temp?_of_local hu]
  simp only [putAll_append]
  refine get?_putAll_congr (get?_putAll_of_same (fun w hw hwu => ?_) rfl) ws₂
  obtain ⟨sources, o, hmem, ho, hv⟩ := phiValues?_mem hws₁ hw
  rw [hv, hsame _ _ _ hmem ho, hwu, value?_temp, temp?_of_local hu]

/-! ## Bodies -/

/-- Executes instructions that stand in a row, control having come from the block `prev?`. Phis
that stand together are one step. -/
inductive Body (calls : Calls) (prev? : Option Label) : List Instr → Store → Store → Prop
  | nil (σ : Store) : Body calls prev? [] σ σ
  | exec {i : Instr} {is : List Instr} {σ σ₁ σ₂ : Store} :
      σ.Exec calls i σ₁ → Body calls prev? is σ₁ σ₂ → Body calls prev? (i :: is) σ σ₂
  | phis {i : Instr} {is : List Instr} {l : Label} {σ σ₁ σ₂ : Store} :
      i.isPhi = true → prev? = some l → σ.Phis l (i :: is.takeWhile Instr.isPhi) σ₁ →
      Body calls prev? (is.dropWhile Instr.isPhi) σ₁ σ₂ → Body calls prev? (i :: is) σ σ₂

/-- Instructions that can be matched one by one, with the same effect, do the same in a row. -/
theorem Body.carry_iff {calls : Calls} {R : List Instr → List Instr → Store → Prop}
    (hnil : ∀ {js σ}, R [] js σ → js = [])
    (hcons : ∀ {i is js σ}, R (i :: is) js σ → ∃ j js', js = j :: js' ∧
      ((∀ σ₁, σ.Exec calls j σ₁ ↔ σ.Exec calls i σ₁) ∧ ∀ σ₁, σ.Exec calls i σ₁ → R is js' σ₁) ∧
      (j.isPhi = true ∨ i.isPhi = true → j = i ∧ js'.takeWhile Instr.isPhi = is.takeWhile Instr.isPhi ∧
        ∀ l σ₁, σ.Phis l (i :: is.takeWhile Instr.isPhi) σ₁ →
          R (is.dropWhile Instr.isPhi) (js'.dropWhile Instr.isPhi) σ₁))
    {prev? : Option Label} {is js : List Instr} {σ σ' : Store} (hR : R is js σ) :
    (Body calls prev? js σ σ' ↔ Body calls prev? is σ σ') ∧ (Body calls prev? is σ σ' → R [] [] σ') := by
  -- Each way the induction is on the execution at hand, and the relation tells how the other row begins.
  have hto : ∀ {is js σ σ'}, Body calls prev? is σ σ' → R is js σ →
      Body calls prev? js σ σ' ∧ R [] [] σ' := by
    intro is js σ σ' h hR
    induction h generalizing js with
    | nil σ =>
      obtain rfl := hnil hR
      exact ⟨.nil σ, hR⟩
    | exec he _ ih =>
      obtain ⟨j, js', rfl, ⟨hexec, hnext⟩, -⟩ := hcons hR
      exact (ih (hnext _ he)).imp_left (.exec ((hexec _).2 he))
    | phis hi hl hg _ ih =>
      obtain ⟨j, js', rfl, -, hphi⟩ := hcons hR
      obtain ⟨rfl, htake, hnext⟩ := hphi (.inr hi)
      exact (ih (hnext _ _ hg)).imp_left (.phis hi hl (htake ▸ hg))
  have hfrom : ∀ {js is σ σ'}, Body calls prev? js σ σ' → R is js σ → Body calls prev? is σ σ' := by
    intro js is σ σ' h hR
    induction h generalizing is with
    | nil σ =>
      cases is with
      | nil => exact .nil σ
      | cons i is =>
        obtain ⟨j, js', heq, -⟩ := hcons hR
        cases heq
    | exec he _ ih =>
      cases is with
      | nil => cases hnil hR
      | cons i is =>
        obtain ⟨j, js', heq, ⟨hexec, hnext⟩, -⟩ := hcons hR
        cases heq
        have he' := (hexec _).1 he
        exact .exec he' (ih (hnext _ he'))
    | phis hi hl hg _ ih =>
      cases is with
      | nil => cases hnil hR
      | cons i is =>
        obtain ⟨j, js', heq, -, hphi⟩ := hcons hR
        cases heq
        obtain ⟨rfl, htake, hnext⟩ := hphi (.inl hi)
        rw [htake] at hg
        exact .phis hi hl hg (ih (hnext _ _ hg))
  exact ⟨⟨fun h => hfrom h hR, fun h => (hto h hR).1⟩, fun h => (hto h hR).2⟩

/-! ## Leaving a block -/

/-- How control leaves a block. -/
inductive Exit where
  | to (l : Label)
  | ret (result? : Option Int64)

/-- Where the jumps of a block lead, if they lead anywhere. -/
def exit? (σ : Store) : List Instr → Option Exit
  | .jump l :: _ => some (.to l)
  | .branch cond v l :: js =>
    match σ.value? v with
    | some k => if cond.holds k then some (.to l) else σ.exit? js
    | none => none
  | .ret none :: _ => some (.ret none)
  | .ret (some v) :: _ => (σ.value? v).map fun k => .ret (some k)
  | _ => none

/-- Control leaves a block to one of its targets. -/
theorem mem_targets_of_exit? {σ : Store} {js : List Instr} {l : Label}
    (h : σ.exit? js = some (.to l)) : l ∈ js.filterMap Instr.target? := by
  induction js with
  | nil => simp [exit?] at h
  | cons j js ih =>
    cases j with
    | jump t => simp_all [exit?, Instr.target?]
    | branch cond v t =>
      simp only [exit?] at h
      rw [List.filterMap_cons]
      simp only [Instr.target?]
      split at h
      · split at h
        · cases h
          exact List.mem_cons_self
        · exact List.mem_cons_of_mem _ (ih h)
      · simp at h
    | ret v? =>
      cases v? with
      | none => simp [exit?] at h
      | some v => cases hv : σ.value? v <;> simp [exit?, hv] at h
    | _ => simp [exit?] at h

/-- Jumps under an operand map that keeps values lead to the same place. -/
theorem exit?_mapOperands {σ τ : Store} {js : List Instr} {f : Operand → Operand}
    (hf : ∀ j ∈ js, ∀ o ∈ j.uses, ∀ v, σ.value? o = some v → τ.value? (f o) = some v) {e : Exit}
    (he : σ.exit? js = some e) : τ.exit? (js.map (·.mapOperands f)) = some e := by
  induction js with
  | nil => simp [exit?] at he
  | cons j js ih =>
    have ih := ih fun j hj => hf j (.tail _ hj)
    have hj := hf j List.mem_cons_self
    cases j with
    | jump l => simpa [exit?, Instr.mapOperands] using he
    | branch cond v l =>
      cases hv : σ.value? v with
      | none => simp [exit?, hv] at he
      | some k =>
        have hv' := hj v (by simp [Instr.uses]) k hv
        simp only [exit?, hv] at he
        simp only [List.map_cons, Instr.mapOperands, exit?, hv']
        split at he
        · rwa [if_pos ‹_›]
        · rw [if_neg ‹_›]; exact ih he
    | ret v? =>
      cases v? with
      | none => simpa [exit?, Instr.mapOperands] using he
      | some v =>
        obtain ⟨k, hv, rfl⟩ := Option.map_eq_some_iff.1 (by simpa only [exit?] using he)
        have hv' := hj v (by simp [Instr.uses]) k hv
        simp [exit?, Instr.mapOperands, hv']
    | _ => simp [exit?] at he

/-- Jumps under an operand map that neither gives nor takes values lead to the same place, or nowhere. -/
theorem exit?_mapOperands_eq {σ τ : Store} {js : List Instr} {f : Operand → Operand}
    (hf : ∀ j ∈ js, ∀ o ∈ j.uses, τ.value? (f o) = σ.value? o) :
    τ.exit? (js.map (·.mapOperands f)) = σ.exit? js := by
  induction js with
  | nil => rfl
  | cons j js ih =>
    have ih := ih fun j hj => hf j (.tail _ hj)
    have hj := hf j List.mem_cons_self
    cases j with
    | branch cond v l =>
      have hbranch : (Instr.branch cond v l).mapOperands f = .branch cond (f v) l := rfl
      simp only [List.map_cons, hbranch, exit?, hj v (by simp [Instr.uses]), ih]
    | ret v? =>
      cases v? with
      | none => rfl
      | some v => simp [exit?, Instr.mapOperands, hj v (by simp [Instr.uses])]
    | _ => rfl

/-- What remains when a procedure returns from a store. -/
def final (σ : Store) (result? : Option Int64) : Final := ⟨σ.globals, σ.output, result?⟩

theorem final_congr {σ τ : Store} (h : σ.toMemory = τ.toMemory) (result? : Option Int64) :
    σ.final result? = τ.final result? := by
  simp only [final, h]

end Store

end ThreeAddress

import ThreeAddress.Proofs.Effects
import ThreeAddress.Proofs.Store
/-!
# Runs of linear code

`LinearRun calls body rest prev? cur? σ f` says that a procedure with the given body, with the
instructions `rest` still to come and the labels `prev?` and `cur?` passed last, returns from the
store `σ` with `f`. Calls are those of the relation `calls`.

`Program.calls` gives calls their meaning: a call runs the procedure of that name, whose own calls
have room for one procedure less. `Program.run_iff` shows that this is how programs run.
-/

namespace ThreeAddress

/-- Runs linear code to its end. -/
inductive LinearRun (calls : Calls) (body : List Instr) :
    List Instr → Option Label → Option Label → Store → Final → Prop
  | done {prev? cur? : Option Label} {σ : Store} : LinearRun calls body [] prev? cur? σ (σ.final none)
  | label {l : Label} {is : List Instr} {prev? cur? : Option Label} {σ : Store} {f : Final} :
      LinearRun calls body is cur? (some l) σ f → LinearRun calls body (.label l :: is) prev? cur? σ f
  | exec {i : Instr} {is : List Instr} {prev? cur? : Option Label} {σ σ' : Store} {f : Final} :
      σ.Exec calls i σ' → LinearRun calls body is prev? cur? σ' f →
      LinearRun calls body (i :: is) prev? cur? σ f
  | phis {i : Instr} {is : List Instr} {l : Label} {prev? cur? : Option Label} {σ σ' : Store}
      {f : Final} :
      i.isPhi = true → prev? = some l → σ.Phis l (i :: is.takeWhile Instr.isPhi) σ' →
      LinearRun calls body (is.dropWhile Instr.isPhi) prev? cur? σ' f →
      LinearRun calls body (i :: is) prev? cur? σ f
  | jump {l : Label} {is rest : List Instr} {prev? cur? : Option Label} {σ : Store} {f : Final} :
      from? l body = some rest → LinearRun calls body rest prev? cur? σ f →
      LinearRun calls body (.jump l :: is) prev? cur? σ f
  | taken {cond : Condition} {v : Operand} {k : Int64} {l : Label} {is rest : List Instr}
      {prev? cur? : Option Label} {σ : Store} {f : Final} :
      σ.value? v = some k → cond.holds k = true → from? l body = some rest →
      LinearRun calls body rest prev? cur? σ f →
      LinearRun calls body (.branch cond v l :: is) prev? cur? σ f
  | passed {cond : Condition} {v : Operand} {k : Int64} {l : Label} {is : List Instr}
      {prev? cur? : Option Label} {σ : Store} {f : Final} :
      σ.value? v = some k → cond.holds k = false → LinearRun calls body is prev? cur? σ f →
      LinearRun calls body (.branch cond v l :: is) prev? cur? σ f
  | ret {is : List Instr} {prev? cur? : Option Label} {σ : Store} :
      LinearRun calls body (.ret none :: is) prev? cur? σ (σ.final none)
  | retValue {v : Operand} {k : Int64} {is : List Instr} {prev? cur? : Option Label} {σ : Store} :
      σ.value? v = some k →
      LinearRun calls body (.ret (some v) :: is) prev? cur? σ (σ.final (some k))

/-- More calls allow more runs. -/
theorem LinearRun.mono {calls calls' : Calls} (h : ∀ t a g o f, calls t a g o f → calls' t a g o f)
    {body rest : List Instr} {prev? cur? : Option Label} {σ : Store} {f : Final}
    (hr : LinearRun calls body rest prev? cur? σ f) : LinearRun calls' body rest prev? cur? σ f := by
  induction hr with
  | done => exact .done
  | label _ ih => exact .label ih
  | exec he _ ih => exact .exec (he.mono h) ih
  | phis hi hp hg _ ih => exact .phis hi hp hg ih
  | jump hl _ ih => exact .jump hl ih
  | taken hv hc hl _ ih => exact .taken hv hc hl ih
  | passed hv hc _ ih => exact .passed hv hc ih
  | ret => exact .ret
  | retValue hv => exact .retValue hv

/-- The store of a procedure that has just been called. -/
def Store.start (params : List Temp) (args : List Int64) (globals : Table Temp Int64)
    (output : List String) : Store :=
  ⟨⟨globals, output, ∅⟩, .ofList (params.zip args)⟩

/-- No local but the parameters has a value. -/
def Store.OnlyParams (params : List Temp) (σ : Store) : Prop :=
  ∀ t v, σ.locals.get? t = some v → t ∈ params

theorem Store.onlyParams_start (params : List Temp) (args : List Int64) (globals : Table Temp Int64)
    (output : List String) : (start params args globals output).OnlyParams params :=
  fun _ _ h => (List.of_mem_zip (Table.mem_of_get?_ofList h)).1

/-- Runs a procedure to its end. -/
def Procedure.Runs (calls : Calls) (p : Procedure) (args : List Int64) (globals : Table Temp Int64)
    (output : List String) (f : Final) : Prop :=
  LinearRun calls p.body p.body none none (.start p.params args globals output) f

/-- What calls do in a program that has room for so many more procedures. -/
def Program.calls (P : Program) : (room : Nat) → Calls
  | room, target, args, globals, output, f =>
    match callee P (maxDepth - room) target args with
    | .error _ => False
    | .ok (.line text) => f = ⟨globals, output ++ [text], none⟩
    | .ok (.proc p) =>
      match room with
      | 0 => False
      | room + 1 => p.Runs (P.calls room) args globals output f

/-! ## States and stores -/

namespace State

/-- The store of the running procedure. -/
def store (s : State) : Store :=
  ⟨⟨s.globals, s.output, s.frame.staged⟩, s.frame.locals⟩

/-- The state with another store. -/
def withStore (s : State) (σ : Store) : State :=
  ⟨σ.globals, σ.output, { s.frame with locals := σ.locals, staged := σ.staged }, s.callers⟩

@[simp] theorem store_withStore (s : State) (σ : Store) : (s.withStore σ).store = σ := rfl

@[simp] theorem withStore_store (s : State) : s.withStore s.store = s := rfl

@[simp] theorem store_withRest (s : State) (rest : List Instr) : (s.withRest rest).store = s.store :=
  rfl

@[simp] theorem store_enter (s : State) (l : Label) : (s.enter l).store = s.store := rfl

theorem value?_store (s : State) (o : Operand) : s.store.value? o = s.value? o := by
  cases o <;> rfl

theorem read_eq_ok {s : State} {o : Operand} {v : Int64} :
    s.read o = .ok v ↔ s.store.value? o = some v := by
  cases o with
  | imm c => simp [read]
  | temp t =>
    rw [value?_store]
    simp only [read, value?]
    cases s.temp? t <;> simp

theorem withStore_write (s : State) (t : Temp) (v : Int64) :
    s.withStore (s.store.write t v) = s.write t v := by
  by_cases ht : t.isGlobal
  · by_cases hg : s.globals.contains t <;> simp [Store.write, write, store, ht, hg, withStore]
  · simp [Store.write, write, store, ht, withStore, withLocals]

theorem withStore_receive (s : State) (dest? : Option Temp) (v? : Option Int64) :
    s.withStore (s.store.receive dest? v?) = s.receive dest? v? := by
  cases dest? with
  | none => rfl
  | some t =>
    cases v? with
    | none => rfl
    | some v => exact withStore_write s t v

theorem phiValues_eq_ok {s : State} {l : Label} {group : List Instr}
    {ws : List (Temp × Option Int64)} :
    s.phiValues l group = .ok ws ↔ s.store.phiValues? l group = some ws := by
  induction group generalizing ws with
  | nil => simp [phiValues, Store.phiValues?]
  | cons i group ih =>
    cases i with
    | phi dest sources =>
      simp only [phiValues, Store.phiValues?]
      cases sources.find? l with
      | none => simp
      | some source =>
        simp only [value?_store]
        cases h : s.phiValues l group with
        | error e =>
          have : ∀ ws, s.store.phiValues? l group ≠ some ws := fun ws hw => by simp [ih.2 hw] at h
          simp [Functor.map, Except.map, Option.eq_none_iff_forall_ne_some.2 this]
        | ok ws' => simp [Functor.map, Except.map, ih.1 h]
    | _ => simpa [phiValues, Store.phiValues?] using ih

/-- The phis of a state are those of its store. -/
theorem phis_eq_ok {s s' : State} {group : List Instr} :
    s.phis group = .ok s' ↔ ∃ l σ', s.frame.previous? = some l ∧ s.store.Phis l group σ' ∧
      s' = s.withStore σ' := by
  unfold phis
  cases hp : s.frame.previous? with
  | none => simp
  | some l =>
    simp only [bind, Except.bind, pure, Except.pure]
    cases hw : s.phiValues l group with
    | error e =>
      have : ∀ ws, s.store.phiValues? l group ≠ some ws := fun ws h => by
        simp [phiValues_eq_ok.2 h] at hw
      simp [Store.Phis, this]
    | ok ws =>
      simp only [Store.Phis, Option.some.injEq, Except.ok.injEq]
      constructor
      · rintro rfl; exact ⟨l, _, rfl, ⟨ws, phiValues_eq_ok.1 hw, rfl⟩, rfl⟩
      · rintro ⟨_, _, rfl, ⟨ws', hw', rfl⟩, rfl⟩
        cases (phiValues_eq_ok.1 hw).symm.trans hw'
        rfl

/-- What is made of the value of an operand. -/
theorem read_map_eq_ok {s : State} {o : Operand} {f : Int64 → Progress} {next : Progress} :
    (do return f (← s.read o)) = Except.ok next ↔ ∃ v, s.store.value? o = some v ∧ next = f v :=
  bind_eq_ok.trans <| exists_congr fun _ => and_congr read_eq_ok <|
    (iff_of_eq (Except.ok.injEq ..)).trans eq_comm

/-- An instruction that is no call, label or jump is executed on the store alone. -/
theorem execute_eq_ok {P : Program} {calls : Calls} {s : State} {i : Instr} {next : Progress}
    (hp : i.isPhi = false) (ht : i.isTerminator = false) (hl : i.label? = none)
    (hc : ∀ d t n, i ≠ .call d t n) :
    s.execute P i = .ok next ↔
      ∃ σ', s.store.Exec calls i σ' ∧ next = (s.withStore σ').settled := by
  have written (dest : Temp) (v : Int64) :
      (s.write dest v).settled = (s.withStore (s.store.receive (some dest) (some v))).settled :=
    congrArg settled (withStore_write s dest v).symm
  cases i with
  | phi => simp [Instr.isPhi] at hp
  | label => simp [Instr.label?] at hl
  | call d t n => exact absurd rfl (hc d t n)
  | jump | branch | ret => simp [Instr.isTerminator] at ht
  | nop =>
    constructor
    · intro h
      exact ⟨_, ⟨[], _, _, rfl, ⟨rfl, rfl, rfl⟩, rfl⟩, (Except.ok.inj h).symm⟩
    · rintro ⟨_, ⟨_, _, _, _, ⟨rfl, rfl, rfl⟩, rfl⟩, rfl⟩
      rfl
  | const dest c =>
    constructor
    · intro h
      exact ⟨_, ⟨[], _, _, rfl, ⟨rfl, rfl, rfl⟩, rfl⟩, (Except.ok.inj h).symm.trans (written dest c)⟩
    · rintro ⟨_, ⟨_, _, _, _, ⟨rfl, rfl, rfl⟩, rfl⟩, rfl⟩
      exact congrArg Except.ok (written dest c)
  | copy dest source =>
    refine read_map_eq_ok.trans ⟨?_, ?_⟩
    · rintro ⟨v, hv, rfl⟩
      exact ⟨_, ⟨[v], _, _, by simp [Instr.uses, hv], ⟨v, rfl, rfl, rfl⟩, rfl⟩, written dest v⟩
    · rintro ⟨_, ⟨_, _, _, hv, ⟨v, rfl, rfl, rfl⟩, rfl⟩, rfl⟩
      exact ⟨v, by simpa [Instr.uses] using hv, (written dest v).symm⟩
  | unary dest op o =>
    refine read_map_eq_ok.trans ⟨?_, ?_⟩
    · rintro ⟨v, hv, rfl⟩
      exact ⟨_, ⟨[v], _, _, by simp [Instr.uses, hv], ⟨v, rfl, rfl, rfl⟩, rfl⟩, written dest (op.eval v)⟩
    · rintro ⟨_, ⟨_, _, _, hv, ⟨v, rfl, rfl, rfl⟩, rfl⟩, rfl⟩
      exact ⟨v, by simpa [Instr.uses] using hv, (written dest (op.eval v)).symm⟩
  | param k o =>
    refine read_map_eq_ok.trans ⟨?_, ?_⟩
    · rintro ⟨v, hv, rfl⟩
      exact ⟨_, ⟨[v], _, _, by simp [Instr.uses, hv], ⟨v, rfl, rfl, rfl⟩, rfl⟩, rfl⟩
    · rintro ⟨_, ⟨_, _, _, hv, ⟨v, rfl, rfl, rfl⟩, rfl⟩, rfl⟩
      exact ⟨v, by simpa [Instr.uses] using hv, rfl⟩
  | binary dest op l r =>
    constructor
    · intro h
      obtain ⟨u, hu, h⟩ := bind_eq_ok.1 h
      obtain ⟨v, hv, h⟩ := bind_eq_ok.1 h
      split at h
      · rename_i c he
        refine ⟨_, ⟨[u, v], _, _, by simp [Instr.uses, read_eq_ok.1 hu, read_eq_ok.1 hv],
          ⟨u, v, c, rfl, he, rfl, rfl⟩, rfl⟩, ?_⟩
        exact (Except.ok.inj h).symm.trans (written dest c)
      · cases h
    · rintro ⟨_, ⟨_, _, _, hvs, ⟨u, v, c, rfl, he, rfl, rfl⟩, rfl⟩, rfl⟩
      obtain ⟨hu, hv⟩ : s.store.value? l = some u ∧ s.store.value? r = some v := by simpa [Instr.uses] using hvs
      refine bind_eq_ok.2 ⟨u, read_eq_ok.2 hu, bind_eq_ok.2 ⟨v, read_eq_ok.2 hv, ?_⟩⟩
      simp only [he]
      exact congrArg Except.ok (written dest c)

end State

end ThreeAddress

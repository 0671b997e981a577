import ThreeAddress.Proofs.LinearRun
/-!
# Steps and runs

A procedure on top of its callers returns in some number of steps of the machine exactly if there is
a `LinearRun` of it (`State.Returns`). `Program.run_iff` says so of whole programs: with a large enough
limit a program ends in `f` exactly if the call of its entry procedure does.
-/

namespace ThreeAddress

/-! ## What calls lead to -/

/-- What is printed depends on the arguments alone. -/
theorem callee_line {P : Program} {depth : Nat} {target : String} {args : List Int64} {text : String}
    (h : callee P depth target args = .ok (.line text)) (Q : Program) (depth' : Nat) :
    callee Q depth' target args = .ok (.line text) := by
  unfold callee at h ⊢
  by_cases hi : target = printInt
  · simpa only [hi, if_true] using h
  by_cases hb : target = printBool
  · subst hb
    simpa only [hi, if_true, if_false] using h
  simp only [hi, hb, if_false] at h
  split at h
  · simp at h
  split at h
  · simp at h
  split at h <;> simp at h

/-- A procedure is called by its name, with as many arguments as it has parameters, while there is
room for one more. -/
theorem callee_proc_iff {P : Program} {depth : Nat} {target : String} {args : List Int64}
    {p : Procedure} : callee P depth target args = .ok (.proc p) ↔
      (target ≠ printInt ∧ target ≠ printBool) ∧ P.procedure? target = some p ∧
        args.length = p.params.length ∧ depth < maxDepth := by
  unfold callee
  by_cases hi : target = printInt
  · simp only [hi, if_true, bind, Except.bind, pure, Except.pure]
    split <;> simp
  by_cases hb : target = printBool
  · subst hb
    simp only [hi, if_true, if_false, bind, Except.bind, pure, Except.pure]
    split <;> simp
  simp only [hi, hb, if_false]
  cases hp : P.procedure? target with
  | none => simp
  | some q =>
    by_cases ha : args.length = q.params.length
    · by_cases hd : maxDepth ≤ depth
      · have : ¬ depth < maxDepth := by omega
        simp [ha, hd, this]
      · have : depth < maxDepth := by omega
        simp only [ha, ne_eq, not_true, if_false, hd, Except.ok.injEq, Callee.proc.injEq,
          Option.some.injEq, hi, hb, not_false_eq_true, true_and, this, and_true]
        exact ⟨fun h => ⟨h, h ▸ ha ▸ rfl⟩, And.left⟩
    · have : ∀ r, q = r → args.length ≠ r.params.length := fun _ h => h ▸ ha
      simp [ha]
      grind

namespace State

/-- The running procedure returns with `f`. -/
def Returns (P : Program) (s : State) (f : Final) : Prop :=
  LinearRun (P.calls (maxDepth - (s.callers.length + 1))) s.frame.proc.body s.frame.rest
    s.frame.previous? s.frame.current? s.store f

theorem settled_of_rest_nil {s : State} (h : s.frame.rest = []) :
    s.settled = leave s.globals s.output none s.callers := by
  simp [settled, h]

theorem settled_of_rest_cons {s : State} {i : Instr} {is : List Instr} (h : s.frame.rest = i :: is) :
    s.settled = .running s := by
  simp [settled, h]

theorem callers_receive (s : State) (dest? : Option Temp) (v? : Option Int64) :
    (s.receive dest? v?).callers = s.callers := by
  rw [← withStore_receive]; rfl

/-- A caller goes on from where it has received the result. -/
theorem leave_cons (globals : Table Temp Int64) (output : List String) (v? : Option Int64) (c : Caller)
    (callers : List Caller) : leave globals output v? (c :: callers) =
      ((State.mk globals output c.frame callers).receive c.dest? v?).settled := by
  rw [leave, settled]
  simp only [callers_receive]

theorem goTo_eq_ok {s s' : State} {l : Label} :
    s.goTo l = .ok s' ↔ ∃ rest, from? l s.frame.proc.body = some rest ∧ s' = s.withRest rest := by
  unfold goTo
  cases from? l s.frame.proc.body <;> simp [eq_comm]

/-- A call prints a line, or puts a procedure on top of the caller. -/
theorem call_eq_ok {P : Program} {s : State} {dest? : Option Temp} {target : String} {argc : UInt32}
    {next : Progress} : s.call P dest? target argc = .ok next ↔
      ∃ args, stagedFrom s.frame.staged target 1 argc.toNat = .ok args ∧
        ((∃ text, callee P (s.callers.length + 1) target args = .ok (.line text) ∧
          next = (s.withStore ((Store.mk ⟨s.globals, s.output ++ [text], ∅⟩ s.frame.locals).receive
            dest? none)).settled) ∨
        (∃ p, callee P (s.callers.length + 1) target args = .ok (.proc p) ∧
          next = (State.mk s.globals s.output (.start p args)
            (⟨{ s.frame with staged := ∅ }, dest?⟩ :: s.callers)).settled)) := by
  have print_eq (text : String) :
      s.withStore ((Store.mk ⟨s.globals, s.output ++ [text], ∅⟩ s.frame.locals).receive dest? none) =
        (({ s with frame := { s.frame with staged := ∅ } }.print text).receive dest? none) :=
    withStore_receive (({ s with frame := { s.frame with staged := ∅ } } : State).print text) dest? none
  simp only [call, bind, Except.bind, pure, Except.pure, print_eq]
  cases hs : stagedFrom s.frame.staged target 1 argc.toNat with
  | error e => simp
  | ok args =>
    simp only [Except.ok.injEq, exists_eq_left']
    cases hc : callee P (s.callers.length + 1) target args with
    | error e => simp
    | ok k => cases k <;> simp [eq_comm]

/-! ## What steps lead to -/

variable {P : Program} {s : State} {next : Progress}

theorem execute_jump_eq_ok {l : Label} : s.execute P (.jump l) = .ok next ↔
    ∃ rest, from? l s.frame.proc.body = some rest ∧ next = (s.withRest rest).settled := by
  refine bind_eq_ok.trans ⟨?_, ?_⟩
  · rintro ⟨u, hu, h⟩
    obtain ⟨rest, hrest, rfl⟩ := goTo_eq_ok.1 hu
    exact ⟨rest, hrest, (Except.ok.inj h).symm⟩
  · rintro ⟨rest, hrest, rfl⟩
    exact ⟨_, goTo_eq_ok.2 ⟨rest, hrest, rfl⟩, rfl⟩

/-- A conditional jump goes where an unconditional one does, or on. -/
theorem execute_branch_eq_ok {cond : Condition} {v : Operand} {l : Label} :
    s.execute P (.branch cond v l) = .ok next ↔ ∃ k, s.store.value? v = some k ∧
      if cond.holds k then s.execute P (.jump l) = .ok next else next = s.settled := by
  refine bind_eq_ok.trans (exists_congr fun k => and_congr read_eq_ok ?_)
  split
  · exact Iff.rfl
  · exact (iff_of_eq (Except.ok.injEq ..)).trans eq_comm

theorem execute_ret_eq_ok {v : Operand} : s.execute P (.ret (some v)) = .ok next ↔
    ∃ k, s.store.value? v = some k ∧ next = leave s.globals s.output (some k) s.callers :=
  read_map_eq_ok

/-- What a step of the machine does with an instruction that is no phi. -/
theorem step_of_rest {i : Instr} {is : List Instr} (hr : s.frame.rest = i :: is) (hi : i.isPhi = false) :
    s.step P = (s.withRest is).execute P i := by
  simp [State.step, hr, hi]

/-- A step at a phi executes all those that stand together. -/
theorem step_phis_eq_ok {i : Instr} {is : List Instr} (hr : s.frame.rest = i :: is) (hi : i.isPhi = true) :
    s.step P = .ok next ↔ ∃ l σ, s.frame.previous? = some l ∧
      s.store.Phis l (i :: is.takeWhile Instr.isPhi) σ ∧
      next = ((s.withRest (is.dropWhile Instr.isPhi)).withStore σ).settled := by
  simp only [step, hr, hi, if_true]
  refine bind_eq_ok.trans ⟨?_, ?_⟩
  · rintro ⟨u, hu, h⟩
    obtain ⟨l, σ, hl, hσ, rfl⟩ := phis_eq_ok.1 hu
    exact ⟨l, σ, hl, hσ, (Except.ok.inj h).symm⟩
  · rintro ⟨l, σ, hl, hσ, rfl⟩
    exact ⟨_, phis_eq_ok.2 ⟨l, σ, hl, hσ, rfl⟩, rfl⟩

/-- The moves of the machine: what a step can do with an instruction when the given ones stand behind it. -/
inductive Move (P : Program) (s : State) : Instr → List Instr → Progress → Prop
  | phis {i : Instr} {is : List Instr} {l : Label} {σ : Store} :
      i.isPhi = true → s.frame.previous? = some l → s.store.Phis l (i :: is.takeWhile Instr.isPhi) σ →
      Move P s i is ((s.withRest (is.dropWhile Instr.isPhi)).withStore σ).settled
  | exec {i : Instr} {is : List Instr} {σ : Store} :
      s.store.Exec (fun _ _ _ _ _ => False) i σ → Move P s i is ((s.withRest is).withStore σ).settled
  | label {l : Label} {is : List Instr} : Move P s (.label l) is ((s.withRest is).enter l).settled
  | jump {l : Label} {is later : List Instr} :
      from? l s.frame.proc.body = some later → Move P s (.jump l) is (s.withRest later).settled
  | taken {cond : Condition} {v : Operand} {k : Int64} {l : Label} {is later : List Instr} :
      s.store.value? v = some k → cond.holds k = true → from? l s.frame.proc.body = some later →
      Move P s (.branch cond v l) is (s.withRest later).settled
  | passed {cond : Condition} {v : Operand} {k : Int64} {l : Label} {is : List Instr} :
      s.store.value? v = some k → cond.holds k = false →
      Move P s (.branch cond v l) is (s.withRest is).settled
  | ret {is : List Instr} : Move P s (.ret none) is (leave s.globals s.output none s.callers)
  | retValue {v : Operand} {k : Int64} {is : List Instr} :
      s.store.value? v = some k → Move P s (.ret (some v)) is (leave s.globals s.output (some k) s.callers)
  | print {dest? : Option Temp} {target text : String} {argc : UInt32} {args : List Int64} {is : List Instr} :
      stagedFrom s.frame.staged target 1 argc.toNat = .ok args →
      callee P (s.callers.length + 1) target args = .ok (.line text) →
      Move P s (.call dest? target argc) is ((s.withRest is).withStore
        ((Store.mk ⟨s.globals, s.output ++ [text], ∅⟩ s.frame.locals).receive dest? none)).settled
  | call {dest? : Option Temp} {target : String} {argc : UInt32} {args : List Int64} {p : Procedure}
      {is : List Instr} :
      stagedFrom s.frame.staged target 1 argc.toNat = .ok args →
      callee P (s.callers.length + 1) target args = .ok (.proc p) →
      Move P s (.call dest? target argc) is (State.mk s.globals s.output (.start p args)
        (⟨{ s.frame with rest := is, staged := ∅ }, dest?⟩ :: s.callers)).settled

variable {i : Instr} {is : List Instr}

/-- The machine makes a move at every step. -/
theorem move_of_step (hr : s.frame.rest = i :: is) (h : s.step P = .ok next) : s.Move P i is next := by
  cases hi : i.isPhi with
  | true =>
    obtain ⟨l, σ, hl, hσ, rfl⟩ := (step_phis_eq_ok hr hi).1 h
    exact .phis hi hl hσ
  | false =>
  rw [step_of_rest hr hi] at h
  have goTo {l : Label} (h : (s.withRest is).execute P (.jump l) = .ok next) :
      ∃ later, from? l s.frame.proc.body = some later ∧ next = (s.withRest later).settled :=
    (execute_jump_eq_ok (s := s.withRest is)).1 h
  have plain (ht : i.isTerminator = false) (hl : i.label? = none) (hc : ∀ d t n, i ≠ .call d t n) :
      s.Move P i is next := by
    have hexec := @execute_eq_ok P (fun _ _ _ _ _ => False) (s.withRest is) i next
    obtain ⟨σ, hσ, rfl⟩ := (hexec hi ht hl hc).1 h
    exact .exec hσ
  cases i with
  | phi => cases hi
  | nop | const | copy | binary | unary | param => exact plain rfl rfl (by simp)
  | label l =>
    cases h
    exact .label
  | jump l =>
    obtain ⟨later, hlater, rfl⟩ := goTo h
    exact .jump hlater
  | branch cond v l =>
    obtain ⟨k, hk, hnext⟩ := execute_branch_eq_ok.1 h
    split at hnext
    · rename_i hcond
      obtain ⟨later, hlater, rfl⟩ := goTo hnext
      exact .taken hk hcond hlater
    · rename_i hcond
      exact hnext ▸ .passed hk (by simpa using hcond)
  | ret v? =>
    cases v? with
    | none =>
      cases h
      exact .ret
    | some v =>
      obtain ⟨k, hk, rfl⟩ := execute_ret_eq_ok.1 h
      exact .retValue hk
  | call dest? target argc =>
    obtain ⟨args, hargs, ⟨text, hc, rfl⟩ | ⟨p, hc, rfl⟩⟩ := call_eq_ok.1 h
    · exact .print hargs hc
    · exact .call hargs hc

/-- Every move is a step. -/
theorem Move.step (h : s.Move P i is next) (hr : s.frame.rest = i :: is) : s.step P = .ok next := by
  cases h with
  | phis hi hl hσ => exact (step_phis_eq_ok hr hi).2 ⟨_, _, hl, hσ, rfl⟩
  | exec hσ =>
    obtain ⟨hi, ht, hl⟩ := hσ.plain
    rw [step_of_rest hr hi]
    refine (execute_eq_ok (s := s.withRest is) hi ht hl ?_).2 ⟨_, hσ, rfl⟩
    -- A call needs one that is allowed, and here none is.
    rintro d t n rfl
    obtain ⟨_, _, _, -, ⟨-, _, _, -, hno, -⟩, -⟩ := hσ
    exact hno
  | label => exact step_of_rest hr rfl
  | jump hlater => exact (step_of_rest hr rfl).trans (execute_jump_eq_ok.2 ⟨_, hlater, rfl⟩)
  | taken hk hcond hlater =>
    refine (step_of_rest hr rfl).trans (execute_branch_eq_ok.2 ⟨_, hk, ?_⟩)
    rw [if_pos hcond]
    exact execute_jump_eq_ok.2 ⟨_, hlater, rfl⟩
  | passed hk hcond =>
    refine (step_of_rest hr rfl).trans (execute_branch_eq_ok.2 ⟨_, hk, ?_⟩)
    rw [if_neg (by simp [hcond])]
  | ret => exact step_of_rest hr rfl
  | retValue hk => exact (step_of_rest hr rfl).trans (execute_ret_eq_ok.2 ⟨_, hk, rfl⟩)
  | print hargs hc => exact (step_of_rest hr rfl).trans (call_eq_ok.2 ⟨_, hargs, .inl ⟨_, hc, rfl⟩⟩)
  | call hargs hc => exact (step_of_rest hr rfl).trans (call_eq_ok.2 ⟨_, hargs, .inr ⟨_, hc, rfl⟩⟩)

/-! ## From steps to runs -/

theorem returns_of_rest {P : Program} {s : State} {i : Instr} {is : List Instr} {f : Final}
    (hr : s.frame.rest = i :: is)
    (h : LinearRun (P.calls (maxDepth - (s.callers.length + 1))) s.frame.proc.body (i :: is)
      s.frame.previous? s.frame.current? s.store f) : s.Returns P f := by
  unfold Returns
  rwa [hr]

/-- What a step of a procedure with instructions to come leads to: the procedure goes on, it
returns, or it calls another one and goes on when that has returned. -/
theorem step_cases {P : Program} {s : State} {next : Progress} {i : Instr} {is : List Instr}
    (h : s.step P = .ok next) (hd : s.callers.length < maxDepth) (hr : s.frame.rest = i :: is) :
    (∃ s' : State, next = s'.settled ∧ s'.callers = s.callers ∧ ∀ f, s'.Returns P f → s.Returns P f) ∨
    (∃ f, next = leave f.globals f.output f.result? s.callers ∧ s.Returns P f) ∨
    (∃ s₁ : State, next = s₁.settled ∧ s₁.callers.length < maxDepth ∧
      ∀ f₁, s₁.Returns P f₁ → ∃ s₂ : State, leave f₁.globals f₁.output f₁.result? s₁.callers = s₂.settled ∧
        s₂.callers = s.callers ∧ ∀ f, s₂.Returns P f → s.Returns P f) := by
  cases move_of_step hr h with
  | phis hi hl hσ => exact .inl ⟨_, rfl, rfl, fun f hf => returns_of_rest hr (.phis hi hl hσ hf)⟩
  | exec hσ => exact .inl ⟨_, rfl, rfl, fun f hf => returns_of_rest hr (.exec (hσ.mono nofun) hf)⟩
  | label => exact .inl ⟨_, rfl, rfl, fun f hf => returns_of_rest hr (.label hf)⟩
  | jump hlater => exact .inl ⟨_, rfl, rfl, fun f hf => returns_of_rest hr (.jump hlater hf)⟩
  | taken hk hcond hlater =>
    exact .inl ⟨_, rfl, rfl, fun f hf => returns_of_rest hr (.taken hk hcond hlater hf)⟩
  | passed hk hcond => exact .inl ⟨_, rfl, rfl, fun f hf => returns_of_rest hr (.passed hk hcond hf)⟩
  | ret => exact .inr (.inl ⟨s.store.final none, rfl, returns_of_rest hr .ret⟩)
  | @retValue v k _ hk =>
    exact .inr (.inl ⟨s.store.final (some k), rfl, returns_of_rest hr (.retValue hk)⟩)
  | @print dest? target text argc args _ hargs hc =>
    refine .inl ⟨_, rfl, rfl, fun f hf => ?_⟩
    let printed : Final := ⟨s.globals, s.output ++ [text], none⟩
    refine returns_of_rest hr <| .exec ⟨[], _, none, rfl, ⟨rfl, args, printed, hargs, ?_, rfl, rfl⟩, rfl⟩ hf
    have hroom : maxDepth - (maxDepth - (s.callers.length + 1)) = s.callers.length + 1 := by omega
    simp only [Program.calls, hroom, hc]
    rfl
  | @call dest? target argc args p _ hargs hc =>
    obtain ⟨-, -, -, hdepth⟩ := callee_proc_iff.1 hc
    refine .inr (.inr ⟨_, rfl, hdepth, fun f₁ hf₁ => ?_⟩)
    refine ⟨_, leave_cons _ _ _ _ _, callers_receive _ _ _, fun f hf => returns_of_rest hr ?_⟩
    refine .exec ⟨[], _, f₁.result?, rfl, ⟨rfl, args, f₁, hargs, ?_, rfl, rfl⟩, rfl⟩ ?_
    · -- One procedure more stands on the machine, so that there is room for one less.
      obtain ⟨room, hroom⟩ : ∃ room, maxDepth - (s.callers.length + 1) = room + 1 :=
        ⟨maxDepth - (s.callers.length + 1) - 1, by omega⟩
      have hdeep : maxDepth - (room + 1) = s.callers.length + 1 := by omega
      have hroom' : maxDepth - (s.callers.length + 1 + 1) = room := by omega
      simp only [hroom, Program.calls, hdeep, hc]
      have hf₁ : p.Runs (P.calls (maxDepth - (s.callers.length + 1 + 1))) args s.globals s.output f₁ :=
        hf₁
      rwa [hroom'] at hf₁
    · rw [← withStore_receive] at hf
      exact hf

/-- A run that ends is the return of the running procedure, followed by what the callers do. -/
theorem returns_of_runFrom {P : Program} {limit : Nat} {o : Outcome} (n : Nat) :
    ∀ s : State, s.callers.length < maxDepth → runFrom P limit n s.settled = .ok o →
      ∃ f, s.Returns P f ∧ ∃ m ≤ n, runFrom P limit m (leave f.globals f.output f.result? s.callers) = .ok o := by
  induction n using Nat.strongRecOn with
  | ind n ih =>
    intro s hd h
    cases hr : s.frame.rest with
    | nil =>
      rw [settled_of_rest_nil hr] at h
      refine ⟨s.store.final none, ?_, n, Nat.le_refl n, h⟩
      unfold Returns
      rw [hr]
      exact .done
    | cons i is =>
      rw [settled_of_rest_cons hr] at h
      cases n with
      | zero => simp [runFrom] at h
      | succ n =>
        simp only [runFrom] at h
        split at h
        · simp at h
        rename_i next hstep
        rcases step_cases hstep hd hr with ⟨s', rfl, hc, hret⟩ | ⟨f, rfl, hret⟩ | ⟨s₁, rfl, hd₁, hcall⟩
        · obtain ⟨f, hf, m, hm, ho⟩ := ih n (by omega) s' (hc ▸ hd) h
          exact ⟨f, hret f hf, m, by omega, hc ▸ ho⟩
        · exact ⟨f, hret, n, by omega, h⟩
        · -- The procedure that is called returns first, and what is left of the steps is for the caller.
          obtain ⟨f₁, hf₁, m₁, hm₁, ho₁⟩ := ih n (by omega) s₁ hd₁ h
          obtain ⟨s₂, hs₂, hc₂, hret⟩ := hcall f₁ hf₁
          rw [hs₂] at ho₁
          obtain ⟨f, hf, m, hm, ho⟩ := ih m₁ (by omega) s₂ (hc₂ ▸ hd) ho₁
          exact ⟨f, hret f hf, m, by omega, hc₂ ▸ ho⟩

/-! ## From runs to steps -/

/-- The machine gets from one point to another in so many steps. -/
def Gets (P : Program) (k : Nat) (a b : Progress) : Prop :=
  ∀ limit n, runFrom P limit (n + k) a = runFrom P limit n b

theorem Gets.refl (P : Program) (a : Progress) : Gets P 0 a a := fun _ _ => rfl

theorem Gets.trans {P : Program} {k k' : Nat} {a b c : Progress} (h : Gets P k a b)
    (h' : Gets P k' b c) : Gets P (k' + k) a c := fun limit n => by
  rw [← Nat.add_assoc, h, h']

theorem Gets.move {P : Program} {s : State} {i : Instr} {is : List Instr} {next : Progress}
    (hr : s.frame.rest = i :: is) (h : s.Move P i is next) : Gets P 1 s.settled next := fun limit n => by
  rw [settled_of_rest_cons hr, runFrom, h.step hr]

/-- A call does on the machine what it does as a relation, if the procedures that it leads to run
on the machine as they run as relations. -/
theorem gets_call {P : Program} {s : State} {is : List Instr} {dest? : Option Temp} {target : String}
    {argc : UInt32} {σ' : Store} (hr : s.frame.rest = .call dest? target argc :: is)
    (hd : s.callers.length < maxDepth)
    (he : s.store.Exec (P.calls (maxDepth - (s.callers.length + 1))) (.call dest? target argc) σ')
    (ih : ∀ s₁ : State, ∀ f, s₁.callers.length = s.callers.length + 1 →
      s₁.callers.length < maxDepth → s₁.Returns P f →
      ∃ k, Gets P k s₁.settled (leave f.globals f.output f.result? s₁.callers)) :
    ∃ k, Gets P k s.settled ((s.withRest is).withStore σ').settled := by
  obtain ⟨vs, m, w, -, ⟨rfl, args, f, hargs, hcall, rfl, rfl⟩, rfl⟩ := he
  have hdeep : maxDepth - (maxDepth - (s.callers.length + 1)) = s.callers.length + 1 := by omega
  unfold Program.calls at hcall
  rw [hdeep] at hcall
  split at hcall
  · exact hcall.elim
  · rename_i text hc
    subst hcall
    exact ⟨1, .move hr (.print hargs hc)⟩
  · rename_i p hc
    obtain ⟨-, -, -, hdepth⟩ := callee_proc_iff.1 hc
    split at hcall
    · exact hcall.elim
    · rename_i room hroom
      have hroom : room = maxDepth - (s.callers.length + 1 + 1) := by omega
      subst hroom
      obtain ⟨k, hk⟩ := ih (State.mk s.globals s.output (.start p args)
        (⟨{ s.frame with rest := is, staged := ∅ }, dest?⟩ :: s.callers)) f rfl hdepth hcall
      rw [leave_cons, ← withStore_receive] at hk
      exact ⟨_, .trans (.move hr (.call hargs hc)) hk⟩

/-- The machine returns from a procedure as its run does. The induction is on the room for further
procedures, and for one procedure on its run. -/
theorem gets_of_linearRun {P : Program} (room : Nat) : ∀ {body rest : List Instr}
    {prev? cur? : Option Label} {σ : Store} {f : Final},
    LinearRun (P.calls room) body rest prev? cur? σ f →
    ∀ s : State, s.frame.proc.body = body → s.frame.rest = rest → s.frame.previous? = prev? →
      s.frame.current? = cur? → s.store = σ → s.callers.length < maxDepth →
      room = maxDepth - (s.callers.length + 1) →
      ∃ k, Gets P k s.settled (leave f.globals f.output f.result? s.callers) := by
  induction room using Nat.strongRecOn with
  | ind room ih =>
    intro body rest prev? cur? σ f h
    induction h with
    | done =>
      rintro s - hr - - rfl - -
      rw [settled_of_rest_nil hr]
      exact ⟨0, .refl P _⟩
    | @label l is _ _ _ _ _ hrun =>
      rintro s hb hr hp hc rfl hd hroom
      obtain ⟨k, hk⟩ := hrun ((s.withRest is).enter l) hb rfl hc rfl rfl hd hroom
      exact ⟨_, .trans (.move hr .label) hk⟩
    | @exec i is _ _ _ σ' _ he _ hrun =>
      rintro s hb hr hp hc rfl hd rfl
      obtain ⟨k, hk⟩ := hrun ((s.withRest is).withStore σ') hb rfl hp hc rfl hd rfl
      by_cases hcall : ∃ d t n, i = .call d t n
      · obtain ⟨d, t, n, rfl⟩ := hcall
        obtain ⟨k', hk'⟩ := gets_call hr hd he fun s₁ f₁ hlen hd₁ hret =>
          ih _ (by omega) hret s₁ rfl rfl rfl rfl rfl hd₁ rfl
        exact ⟨_, .trans hk' hk⟩
      · exact ⟨_, .trans (.move hr (.exec (he.of_not_call (fun d t n e => hcall ⟨d, t, n, e⟩) _))) hk⟩
    | @phis i is l _ _ _ σ' _ hi hprev hphis _ hrun =>
      rintro s hb hr hp hc rfl hd hroom
      obtain ⟨k, hk⟩ :=
        hrun ((s.withRest (is.dropWhile Instr.isPhi)).withStore σ') hb rfl hp hc rfl hd hroom
      exact ⟨_, .trans (.move hr (.phis hi (hp.trans hprev) hphis)) hk⟩
    | @jump l is rest _ _ _ _ hl _ hrun =>
      rintro s hb hr hp hc rfl hd hroom
      obtain ⟨k, hk⟩ := hrun (s.withRest rest) hb rfl hp hc rfl hd hroom
      exact ⟨_, .trans (.move hr (.jump (hb ▸ hl))) hk⟩
    | @taken cond v k l is rest _ _ _ _ hv hcond hl _ hrun =>
      rintro s hb hr hp hc rfl hd hroom
      obtain ⟨n, hn⟩ := hrun (s.withRest rest) hb rfl hp hc rfl hd hroom
      exact ⟨_, .trans (.move hr (.taken hv hcond (hb ▸ hl))) hn⟩
    | @passed cond v k l is _ _ _ _ hv hcond _ hrun =>
      rintro s hb hr hp hc rfl hd hroom
      obtain ⟨n, hn⟩ := hrun (s.withRest is) hb rfl hp hc rfl hd hroom
      exact ⟨_, .trans (.move hr (.passed hv hcond)) hn⟩
    | @ret is _ _ _ =>
      rintro s hb hr hp hc rfl hd hroom
      exact ⟨1, .move hr .ret⟩
    | @retValue v k is _ _ _ hv =>
      rintro s hb hr hp hc rfl hd hroom
      exact ⟨1, .move hr (.retValue hv)⟩

end State

/-! ## Programs -/

namespace Program

theorem maxDepth_pos : 0 < maxDepth := by decide

/-- A run begins in the procedure that is called, or ends with what is printed. -/
theorem start_eq_ok {P : Program} {entry : String} {args : List Int64} {x : Progress} :
    P.start entry args = .ok x ↔
      (∃ text, callee P 0 entry args = .ok (.line text) ∧ x = .ended ⟨P.globals, [text], none⟩) ∨
      ∃ p, callee P 0 entry args = .ok (.proc p) ∧ x = (State.mk P.globals [] (.start p args) []).settled := by
  refine bind_eq_ok.trans ⟨?_, ?_⟩
  · rintro ⟨text | p, hc, h⟩
    · exact .inl ⟨text, hc, (Except.ok.inj h).symm⟩
    · exact .inr ⟨p, hc, (Except.ok.inj h).symm⟩
  · rintro (⟨text, hc, rfl⟩ | ⟨p, hc, rfl⟩)
    · exact ⟨_, hc, rfl⟩
    · exact ⟨_, hc, rfl⟩

/-- Calls a procedure of a program from outside. -/
def Calls (P : Program) (entry : String) (args : List Int64) (f : Final) : Prop :=
  P.calls maxDepth entry args P.globals [] f

/-- A call from outside ends the program within every limit from some number on. -/
theorem run_of_calls {P : Program} {entry : String} {args : List Int64} {f : Final}
    (h : P.Calls entry args f) :
    ∃ n, ∀ limit, n ≤ limit → ∃ o, P.run entry args limit = .ok o ∧ o.toFinal = f := by
  unfold Calls calls at h
  rw [Nat.sub_self] at h
  split at h
  · exact h.elim
  · rename_i text hc
    refine ⟨0, fun limit _ => ⟨⟨f, 0⟩, bind_eq_ok.2 ⟨_, start_eq_ok.2 (.inl ⟨text, hc, rfl⟩), ?_⟩, rfl⟩⟩
    cases limit <;> simp [runFrom, h]
  · rename_i p hc
    obtain ⟨k, hk⟩ := State.gets_of_linearRun (maxDepth - 1) h
      (State.mk P.globals [] (.start p args) []) rfl rfl rfl rfl rfl maxDepth_pos rfl
    refine ⟨k, fun limit hlimit => ⟨⟨f, limit - (limit - k)⟩,
      bind_eq_ok.2 ⟨_, start_eq_ok.2 (.inr ⟨p, hc, rfl⟩), ?_⟩, rfl⟩⟩
    have hrun := hk limit (limit - k)
    rw [Nat.sub_add_cancel hlimit] at hrun
    rw [hrun]
    cases limit - k <;> rfl

/-- A program ends in `f` within some limit exactly if the call of its entry procedure does. -/
theorem run_iff {P : Program} {entry : String} {args : List Int64} {f : Final} :
    (∃ limit o, P.run entry args limit = .ok o ∧ o.toFinal = f) ↔ P.Calls entry args f := by
  refine ⟨fun ⟨limit, o, ho, hf⟩ => ?_, fun h => ?_⟩
  · unfold Calls calls
    rw [Nat.sub_self]
    obtain ⟨x, hx, ho⟩ := bind_eq_ok.1 ho
    rcases start_eq_ok.1 hx with ⟨text, hc, rfl⟩ | ⟨p, hc, rfl⟩
    · rw [hc]
      cases limit <;> (simp only [runFrom, Except.ok.injEq] at ho; subst ho; exact hf.symm)
    · rw [hc]
      obtain ⟨f', hret, m, -, hm⟩ := State.returns_of_runFrom limit
        (State.mk P.globals [] (.start p args) []) maxDepth_pos ho
      have : o.toFinal = f' := by
        cases m <;> (simp only [leave, runFrom, Except.ok.injEq] at hm; rw [← hm])
      rw [← hf, this]
      exact hret
  · obtain ⟨n, hn⟩ := run_of_calls h
    exact ⟨n, hn n (Nat.le_refl n)⟩

/-- What a program ends in does not depend on the limit. -/
theorem run_functional {P : Program} {entry : String} {args : List Int64} {limit limit' : Nat}
    {o o' : Outcome} (h : P.run entry args limit = .ok o) (h' : P.run entry args limit' = .ok o') :
    o.toFinal = o'.toFinal := by
  obtain ⟨n, hn⟩ := run_of_calls (run_iff.1 ⟨limit, o, h, rfl⟩)
  obtain ⟨n', hn'⟩ := run_of_calls (run_iff.1 ⟨limit', o', h', rfl⟩)
  obtain ⟨p, hp, hpo⟩ := hn (max n n') (Nat.le_max_left n n')
  obtain ⟨q, hq, hqo⟩ := hn' (max n n') (Nat.le_max_right n n')
  cases hp.symm.trans hq
  exact hpo.symm.trans hqo

end Program

end ThreeAddress

import Mathlib.Data.List.Forall2
import ThreeAddress.Proofs.Faults
import ThreeAddress.Proofs.Refinement
/-!
# Procedures that run in step

Two procedures run in step if a relation between the states in which they are at work is kept by their
steps, calls and returns included: both go on to related states, both return the same, or both fault, and
then at a read of the same undefined temporary if at any (`Lockstep`). The second may take a step more
here and there. Programs that differ in such procedures fault alike, which their successful runs alone
do not tell (`Lockstep.faultsKeptBy`).
-/

namespace ThreeAddress

/-! ## Points that correspond -/

/-- Both runs go on, in related states, or both have ended in the same way. -/
inductive Progress.Alike (R : State → State → Prop) : Progress → Progress → Prop
  | running {s s' : State} : R s s' → Alike R (.running s) (.running s')
  | ended (f : Final) : Alike R (.ended f) (.ended f)

/-- Both steps lead to points alike, or both are faults, and at reads of undefined temporaries if one is. -/
inductive Matches (names : Temp → Temp → Prop) (R : State → State → Prop) :
    Except Fault Progress → Except Fault Progress → Prop
  | ok {x x' : Progress} : x.Alike R x' → Matches names R (.ok x) (.ok x')
  | error {e e' : Fault} : Option.Rel names e.undefined? e'.undefined? → Matches names R (.error e) (.error e')

theorem Progress.Alike.flip {R : State → State → Prop} {x x' : Progress} (h : x.Alike R x') :
    x'.Alike (fun s' s => R s s') x := by
  cases h with
  | running hs => exact .running hs
  | ended f => exact .ended f

namespace Matches

variable {names : Temp → Temp → Prop} {R : State → State → Prop} {P Q : Program} {s s' : State} {t : Temp}

theorem flip {x x' : Except Fault Progress} (h : Matches names R x x') :
    Matches (fun t' t => names t t') (fun s' s => R s s') x' x := by
  cases h with
  | ok hx => exact .ok hx.flip
  | @error e e' he =>
    refine .error ?_
    generalize e.undefined? = u, e'.undefined? = u' at he
    cases he with
    | some ht => exact .some ht
    | none => exact .none

theorem error_of_eq (hnames : ∀ t, names t t) {e e' : Fault} (h : e'.undefined? = e.undefined?) :
    Matches names R (.error e) (.error e') := by
  refine .error ?_
  rw [h]
  cases e.undefined? with
  | none => exact .none
  | some t => exact .some (hnames t)

/-- Instructions that are executed on the store alone match if one has an effect exactly if the other has one, with
points alike behind it, and if they lack matching operands where they have none. -/
theorem of_exec (calls : Calls) {i i' : Instr} (hi : i.isPhi = false ∧ i.isTerminator = false ∧ i.label? = none)
    (hi' : i'.isPhi = false ∧ i'.isTerminator = false ∧ i'.label? = none)
    (hc : ∀ d target argc, i ≠ .call d target argc) (hc' : ∀ d target argc, i' ≠ .call d target argc)
    (hto : ∀ σ, s.store.Exec calls i σ →
      ∃ τ, s'.store.Exec calls i' τ ∧ (s.withStore σ).settled.Alike R (s'.withStore τ).settled)
    (hfrom : ∀ τ, s'.store.Exec calls i' τ → ∃ σ, s.store.Exec calls i σ)
    (hundefined : (∀ σ, ¬ s.store.Exec calls i σ) →
      Option.Rel names (s.store.undefined? i.uses) (s'.store.undefined? i'.uses)) :
    Matches names R (s.execute [] i) (s'.execute [] i') := by
  have hexec := fun x => @State.execute_eq_ok [] calls s i x hi.1 hi.2.1 hi.2.2 hc
  have hexec' := fun x => @State.execute_eq_ok [] calls s' i' x hi'.1 hi'.2.1 hi'.2.2 hc'
  cases hx : s.execute [] i with
  | ok x =>
    obtain ⟨σ, hσ, rfl⟩ := (hexec x).1 hx
    obtain ⟨τ, hτ, halike⟩ := hto σ hσ
    rw [(hexec' _).2 ⟨τ, hτ, rfl⟩]
    exact .ok halike
  | error e =>
    have hstuck : ∀ σ, ¬ s.store.Exec calls i σ := fun σ hσ => by
      cases hx.symm.trans ((hexec _).2 ⟨σ, hσ, rfl⟩)
    cases hx' : s'.execute [] i' with
    | ok x' =>
      obtain ⟨τ, hτ, -⟩ := (hexec' x').1 hx'
      obtain ⟨σ, hσ⟩ := hfrom τ hτ
      exact absurd hσ (hstuck σ)
    | error e' =>
      refine .error ?_
      rw [← State.undefined?_of_execute hi.1 hc hx, ← State.undefined?_of_execute hi'.1 hc' hx']
      exact hundefined hstuck

theorem undefined {x' : Except Fault Progress} (h : Matches names R (.error (.undefinedTemp t)) x') :
    ∃ t', names t t' ∧ x' = .error (.undefinedTemp t') := by
  cases h with
  | @error _ e' he =>
    have hu : Fault.undefined? (.undefinedTemp t) = some t := rfl
    rw [hu] at he
    generalize hu' : e'.undefined? = u' at he
    cases he with
    | some ht => exact ⟨_, ht, congrArg _ (Fault.undefined?_eq_some.1 hu')⟩

theorem now (h : Matches names R (s.step P) (s'.step Q)) (hs : s.step P = .error (.undefinedTemp t)) :
    ∃ t', names t t' ∧ (Progress.running s').Faults Q t' := by
  rw [hs] at h
  obtain ⟨t', ht, hs'⟩ := h.undefined
  exact ⟨t', ht, .now hs'⟩

theorem later {x : Progress} (h : Matches names R (s.step P) (s'.step Q)) (hs : s.step P = .ok x)
    (hx : ∀ {x' : Progress}, x.Alike R x' → ∃ t', names t t' ∧ x'.Faults Q t') :
    ∃ t', names t t' ∧ (Progress.running s').Faults Q t' := by
  rw [hs] at h
  generalize hs' : s'.step Q = x' at h
  cases h with
  | ok halike =>
    obtain ⟨t', ht, hf⟩ := hx halike
    exact ⟨t', ht, .later hs' hf⟩

end Matches

/-! ## Runs up to a goal -/

/-- Steps lead from a state to the first one that is a goal. -/
inductive Reaches (P : Program) (goal : State → Prop) : State → State → Prop
  | here {s : State} : goal s → Reaches P goal s s
  | step {s s₁ s' : State} : ¬ goal s → s.step P = .ok (.running s₁) → Reaches P goal s₁ s' → Reaches P goal s s'

/-- Runs in which every step matches reach their goals together. -/
theorem Reaches.matched {names : Temp → Temp → Prop} {R : State → State → Prop} {P Q : Program}
    {goal goal' : State → Prop} (hgoal : ∀ {s s'}, R s s' → (goal s ↔ goal' s'))
    (hstep : ∀ {s s'}, R s s' → Matches names R (s.step P) (s'.step Q)) {s t : State} (h : Reaches P goal s t)
    {s' : State} (hs : R s s') : ∃ t', Reaches Q goal' s' t' ∧ R t t' := by
  induction h generalizing s' with
  | here hs₀ => exact ⟨s', .here ((hgoal hs).1 hs₀), hs⟩
  | step hs₀ hs₁ _ ih =>
    have hm := hstep hs
    rw [hs₁] at hm
    generalize hx' : s'.step Q = x' at hm
    cases hm with
    | ok halike =>
      cases halike with
      | running hs' =>
        obtain ⟨t', ht', hR⟩ := ih hs'
        exact ⟨t', .step (mt (hgoal hs).2 hs₀) hx' ht', hR⟩

/-! ## Procedures at work -/

/-- Two procedures at work take their next steps together: they call the same procedure, and are related
behind the call whatever it does, or they take steps of their own that match. -/
inductive InStep (names : Temp → Temp → Prop) (R : State → State → Prop) (s s' : State) : Prop
  | call {d d' : Option Temp} {target : String} {argc : UInt32} {is is' : List Instr} :
      s.frame.rest = .call d target argc :: is → s'.frame.rest = .call d' target argc :: is' →
      s'.frame.staged = s.frame.staged →
      (∀ globals output v?,
        R ((State.mk globals output { s.frame with rest := is, staged := ∅ } []).receive d v?)
          ((State.mk globals output { s'.frame with rest := is', staged := ∅ } []).receive d' v?)) →
      InStep names R s s'
  | plain : ¬ s.Calling → ¬ s'.Calling → Matches names R (s.alone.step []) (s'.alone.step []) →
      InStep names R s s'

/-- Instructions that are executed alike. -/
theorem InStep.of_execute {names : Temp → Temp → Prop} {R : State → State → Prop} {s s' : State} {i i' : Instr}
    {is is' : List Instr} (hr : s.frame.rest = i :: is) (hr' : s'.frame.rest = i' :: is')
    (hi : i.isPhi = false) (hi' : i'.isPhi = false) (hc : ∀ d target argc, i ≠ .call d target argc)
    (hc' : ∀ d target argc, i' ≠ .call d target argc)
    (hm : Matches names R ((s.alone.withRest is).execute [] i) ((s'.alone.withRest is').execute [] i')) :
    InStep names R s s' := by
  refine .plain (State.not_calling hr hc) (State.not_calling hr' hc') ?_
  rwa [State.step_of_rest (s := s.alone) hr hi, State.step_of_rest (s := s'.alone) hr' hi']

/-- Phis that stand together and are executed alike. -/
theorem InStep.of_phis {names : Temp → Temp → Prop} {R : State → State → Prop} {s s' : State} {i i' : Instr}
    {phis group rest rest' : List Instr} {l : Label} (hprev : s.frame.previous? = some l)
    (hprev' : s'.frame.previous? = some l) (hr : s.frame.rest = (i :: phis) ++ rest)
    (hr' : s'.frame.rest = (i' :: group) ++ rest') (hphis : ∀ j ∈ i :: phis, j.isPhi = true)
    (hgroup : ∀ j ∈ i' :: group, j.isPhi = true) (hrest : rest.takeWhile Instr.isPhi = [])
    (hrest' : rest'.takeWhile Instr.isPhi = [])
    (hexists : (∃ τ₁, s'.store.Phis l (i' :: group) τ₁) ↔ ∃ σ₁, s.store.Phis l (i :: phis) σ₁)
    (hnext : ∀ {σ₁ τ₁ : Store}, s.store.Phis l (i :: phis) σ₁ → s'.store.Phis l (i' :: group) τ₁ →
      ((s.alone.withRest rest).withStore σ₁).settled.Alike R ((s'.alone.withRest rest').withStore τ₁).settled) :
    InStep names R s s' := by
  have hphi := fun u => @State.phis_eq_ok (s.alone.withRest rest) u (i :: phis)
  have hphi' := fun u => @State.phis_eq_ok (s'.alone.withRest rest') u (i' :: group)
  refine .plain (State.not_calling hr (by rintro _ _ _ rfl; cases hphis _ List.mem_cons_self))
    (State.not_calling hr' (by rintro _ _ _ rfl; cases hgroup _ List.mem_cons_self)) ?_
  rw [State.step_of_phis (s := s.alone) hr hphis hrest, State.step_of_phis (s := s'.alone) hr' hgroup hrest']
  by_cases hrun : ∃ σ₁, s.store.Phis l (i :: phis) σ₁
  · obtain ⟨τ₁, hτ⟩ := hexists.2 hrun
    obtain ⟨σ₁, hσ⟩ := hrun
    rw [(hphi _).2 ⟨l, σ₁, hprev, hσ, rfl⟩, (hphi' _).2 ⟨l, τ₁, hprev', hτ, rfl⟩]
    exact .ok (hnext hσ hτ)
  · -- Phis fail for want of a source, never of a value, so that no temporary is named.
    cases hx : (s.alone.withRest rest).phis (i :: phis) with
    | ok u =>
      obtain ⟨k, σ₁, hk, hσ, -⟩ := (hphi u).1 hx
      cases hprev.symm.trans hk
      exact absurd ⟨σ₁, hσ⟩ hrun
    | error e =>
      cases hx' : (s'.alone.withRest rest').phis (i' :: group) with
      | ok u =>
        obtain ⟨k, τ₁, hk, hτ, -⟩ := (hphi' u).1 hx'
        cases hprev'.symm.trans hk
        exact absurd (hexists.1 ⟨τ₁, hτ⟩) hrun
      | error e' =>
        refine .error ?_
        rw [State.undefined?_of_phis hx, State.undefined?_of_phis hx']
        exact .none

/-- Phis where there is no block that control came from. -/
theorem InStep.of_stuck {names : Temp → Temp → Prop} {R : State → State → Prop} {s s' : State} {i i' : Instr}
    {rest rest' : List Instr} (hprev : s.frame.previous? = none) (hprev' : s'.frame.previous? = none)
    (hr : s.frame.rest = i :: rest) (hr' : s'.frame.rest = i' :: rest') (hi : i.isPhi = true)
    (hi' : i'.isPhi = true) : InStep names R s s' := by
  have noPredecessor : ∀ {u : State} {i : Instr} {is : List Instr}, u.frame.rest = i :: is →
      i.isPhi = true → u.frame.previous? = none → u.alone.step [] = .error .noPredecessor := by
    intro u i is hr hi hprev
    have hr : u.alone.frame.rest = i :: is := hr
    have hprev : (u.alone.withRest (is.dropWhile Instr.isPhi)).frame.previous? = none := hprev
    simp [State.step, hr, hi, State.phis, hprev, bind, Except.bind]
  refine .plain (State.not_calling hr (by rintro _ _ _ rfl; cases hi))
    (State.not_calling hr' (by rintro _ _ _ rfl; cases hi')) ?_
  rw [noPredecessor hr hi hprev, noPredecessor hr' hi' hprev']
  exact .error .none

/-- Two procedures run in step, by a relation between the states in which they are at work. -/
structure Lockstep (names : Temp → Temp → Prop) (p q : Procedure) (R : State → State → Prop) : Prop where
  /-- The same name stands for itself. -/
  refl (t : Temp) : names t t
  name_eq : q.name = p.name
  params_eq : q.params = p.params
  start {args : List Int64} (globals : Table Temp Int64) (output : List String) :
    args.length = p.params.length → R ⟨globals, output, .start p args, []⟩ ⟨globals, output, .start q args, []⟩
  /-- The callers do not matter. -/
  under {s s' : State} (callers callers' : List Caller) :
    R s s' → R { s with callers := callers } { s' with callers := callers' }
  shared {s s' : State} : R s s' → s'.globals = s.globals ∧ s'.output = s.output
  isEmpty_eq {s s' : State} : R s s' → s'.frame.rest.isEmpty = s.frame.rest.isEmpty
  /-- The second may need one step more to get where the first is. -/
  step {s s' : State} : R s s' → InStep names R s s' ∨
    ¬ s'.Calling ∧ ∃ s'', s'.alone.step [] = .ok (.running s'') ∧ R s s'' ∧ InStep names R s s''

/-- Procedures at work in the same state, or in related ones. -/
def State.Beside (R : State → State → Prop) (s s' : State) : Prop := s'.alone = s.alone ∨ R s s'

/-- Callers that go on from the same state, or from related ones. -/
def Caller.Beside (R : State → State → Prop) (k k' : Caller) : Prop :=
  ∀ globals output v?, ((State.mk globals output k.frame []).receive k.dest? v?).Beside R
    ((State.mk globals output k'.frame []).receive k'.dest? v?)

theorem Caller.Beside.refl (R : State → State → Prop) (k : Caller) : k.Beside R k := fun _ _ _ => .inl rfl

/-- All procedures at work in two runs are in the same state, or in related ones. -/
structure State.AllBeside (R : State → State → Prop) (s s' : State) : Prop where
  top : s.Beside R s'
  callers : List.Forall₂ (Caller.Beside R) s.callers s'.callers

namespace Lockstep

variable {names : Temp → Temp → Prop} {p q : Procedure} {R : State → State → Prop} {s s' : State} {k k' : Caller}
  {callers callers' : List Caller}

theorem beside_under (h : Lockstep names p q R) (hs : s.Beside R s') (callers callers' : List Caller) :
    { s with callers := callers }.Beside R { s' with callers := callers' } :=
  hs.imp id (h.under _ _)

theorem shared_of_beside (h : Lockstep names p q R) (hs : s.Beside R s') :
    s'.globals = s.globals ∧ s'.output = s.output := by
  rcases hs with hs | hs
  · exact ⟨(congrArg State.globals hs :), (congrArg State.output hs :)⟩
  · exact h.shared hs

theorem isEmpty_of_beside (h : Lockstep names p q R) (hs : s.Beside R s') :
    s'.frame.rest.isEmpty = s.frame.rest.isEmpty := by
  rcases hs with hs | hs
  · exact (congrArg (fun s => s.frame.rest.isEmpty) hs :)
  · exact h.isEmpty_eq hs

theorem beside_receive (h : Lockstep names p q R) (hk : k.Beside R k') (globals : Table Temp Int64)
    (output : List String) (v? : Option Int64) (callers callers' : List Caller) :
    ((State.mk globals output k.frame callers).receive k.dest? v?).Beside R
      ((State.mk globals output k'.frame callers').receive k'.dest? v?) := by
  have := h.beside_under (hk globals output v?) callers callers'
  rwa [State.receive_under, State.receive_under] at this

theorem error (h : Lockstep names p q R) (e : Fault) : Matches names (State.AllBeside R) (.error e) (.error e) :=
  .error_of_eq h.refl rfl

/-! ## Returns and calls -/

theorem settled_of_leave (h : Lockstep names p q R) (hs : s.AllBeside R s')
    (hleave : ∀ globals output, (ThreeAddress.leave globals output none s.callers).Alike (State.AllBeside R)
      (ThreeAddress.leave globals output none s'.callers)) :
    s.settled.Alike (State.AllBeside R) s'.settled := by
  obtain ⟨hglobals, houtput⟩ := h.shared_of_beside hs.top
  unfold State.settled
  rw [h.isEmpty_of_beside hs.top, hglobals, houtput]
  split
  · exact hleave _ _
  · exact .running hs

/-- The same result is handed to callers alike. -/
theorem leave (h : Lockstep names p q R) (hcallers : List.Forall₂ (Caller.Beside R) callers callers')
    (globals : Table Temp Int64) (output : List String) (v? : Option Int64) :
    (leave globals output v? callers).Alike (State.AllBeside R) (leave globals output v? callers') := by
  induction hcallers generalizing globals output v? with
  | nil => exact .ended _
  | @cons k k' callers callers' hk hcallers ih =>
    rw [State.leave_cons, State.leave_cons]
    refine h.settled_of_leave ⟨h.beside_receive hk _ _ _ _ _, ?_⟩ fun globals output => ?_
    · rwa [State.callers_receive, State.callers_receive]
    · rw [State.callers_receive, State.callers_receive]
      exact ih globals output none

theorem settled (h : Lockstep names p q R) (hs : s.AllBeside R s') :
    s.settled.Alike (State.AllBeside R) s'.settled :=
  h.settled_of_leave hs fun _ _ => h.leave hs.callers _ _ _

variable {before after : Program}

/-- A name stands for the same procedure, or for the two that differ. -/
theorem procedure?_eq_or (h : Lockstep names p q R) (target : String) :
    Program.procedure? (before ++ .proc q :: after) target = Program.procedure? (before ++ .proc p :: after) target ∨
      Program.procedure? (before ++ .proc p :: after) target = some p ∧
      Program.procedure? (before ++ .proc q :: after) target = some q := by
  have procedure?_eq : ∀ x : Procedure, Program.procedure? (before ++ .proc x :: after) target =
      (Program.procedure? after target).or (if x.name = target then some x else Program.procedure? before target) := by
    intro x
    simp only [Program.procedure?, Program.procedures, List.filterMap_append, List.filterMap_cons,
      Declaration.proc?, List.reverse_append, List.reverse_cons, List.append_assoc, List.find?_append,
      List.singleton_append, List.find?_cons]
    split <;> simp_all
  rw [procedure?_eq, procedure?_eq, h.name_eq]
  cases Program.procedure? after target with
  | some x => exact .inl rfl
  | none =>
    split
    · exact .inr ⟨rfl, rfl⟩
    · exact .inl rfl

/-- Calls lead to the same, or to the two procedures that differ. -/
theorem callee_eq_or (h : Lockstep names p q R) (before after : Program) (depth : Nat) (target : String)
    (args : List Int64) :
    callee (before ++ .proc q :: after) depth target args = callee (before ++ .proc p :: after) depth target args ∨
      args.length = p.params.length ∧
      callee (before ++ .proc p :: after) depth target args = .ok (.proc p) ∧
      callee (before ++ .proc q :: after) depth target args = .ok (.proc q) := by
  unfold callee
  rcases h.procedure?_eq_or target with heq | ⟨hp, hq⟩
  · rw [heq]
    exact .inl rfl
  rw [hp, hq]
  dsimp only
  rw [h.params_eq]
  split
  · exact .inl rfl
  split
  · exact .inl rfl
  split
  · exact .inl rfl
  split
  · exact .inl rfl
  · exact .inr ⟨by omega, rfl, rfl⟩

/-- Callers alike that call the same procedure step alike. -/
theorem call (h : Lockstep names p q R) {d d' : Option Temp}
    (hk : Caller.Beside R ⟨{ s.frame with staged := ∅ }, d⟩ ⟨{ s'.frame with staged := ∅ }, d'⟩)
    (hstaged : s'.frame.staged = s.frame.staged) (hglobals : s'.globals = s.globals)
    (houtput : s'.output = s.output) (hcallers : List.Forall₂ (Caller.Beside R) s.callers s'.callers)
    (target : String) (argc : UInt32) :
    Matches names (State.AllBeside R) (s.call (before ++ .proc p :: after) d target argc)
      (s'.call (before ++ .proc q :: after) d' target argc) := by
  unfold State.call
  rw [hstaged, hglobals, houtput, ← hcallers.length_eq]
  cases stagedFrom s.frame.staged target 1 argc.toNat with
  | error e => exact h.error _
  | ok args =>
    simp only [bind, Except.bind, pure, Except.pure]
    rcases h.callee_eq_or before after (s.callers.length + 1) target args with
      heq | ⟨hlen, hp, hq⟩
    · rw [heq]
      cases callee (before ++ .proc p :: after) (s.callers.length + 1) target args with
      | error e => exact h.error _
      | ok b =>
        cases b with
        | line text =>
          refine .ok (h.settled ⟨h.beside_receive hk _ (s.output ++ [text]) none _ _, ?_⟩)
          rwa [State.callers_receive, State.callers_receive]
        | proc b => exact .ok (h.settled ⟨.inl rfl, .cons hk hcallers⟩)
    · rw [hp, hq]
      exact .ok (h.settled ⟨.inr (h.under _ _ (h.start _ _ hlen)), .cons hk hcallers⟩)

/-! ## Steps -/

theorem alike_under (h : Lockstep names p q R) (hcallers : List.Forall₂ (Caller.Beside R) callers callers')
    {x x' : Progress} (hx : x' = x ∨ x.Alike R x') :
    (x.under callers).Alike (State.AllBeside R) (x'.under callers') := by
  rcases hx with rfl | hx
  · cases x' with
    | running s => exact .running ⟨.inl rfl, hcallers⟩
    | ended f => exact h.leave hcallers _ _ _
  · cases hx with
    | running hs => exact .running ⟨.inr (h.under _ _ hs), hcallers⟩
    | ended f => exact h.leave hcallers _ _ _

/-- Procedures that take their next steps together do so on top of callers alike. -/
theorem inStep (h : Lockstep names p q R) (hs : R s s') (hstep : InStep names R s s')
    (hcallers : List.Forall₂ (Caller.Beside R) s.callers s'.callers) :
    Matches names (State.AllBeside R) (s.step (before ++ .proc p :: after)) (s'.step (before ++ .proc q :: after)) := by
  cases hstep with
  | @call d d' target argc is is' hr hr' hstaged hk =>
    obtain ⟨hglobals, houtput⟩ := h.shared hs
    have hcaller : Caller.Beside R ⟨{ (s.withRest is).frame with staged := ∅ }, d⟩
        ⟨{ (s'.withRest is').frame with staged := ∅ }, d'⟩ := fun _ _ _ => .inr (hk _ _ _)
    rw [State.step_of_rest hr rfl, State.step_of_rest hr' rfl]
    exact h.call hcaller hstaged hglobals houtput hcallers target argc
  | plain hc hc' hm =>
    rw [State.step_under hc, State.step_under hc']
    generalize s.alone.step [] = x, s'.alone.step [] = x' at hm
    cases hm with
    | ok hx => exact .ok (h.alike_under hcallers (.inr hx))
    | error he => exact .error he

/-- Procedures at work in the same state step alike on top of callers alike. -/
theorem step_of_same (h : Lockstep names p q R) (hsame : s'.alone = s.alone)
    (hcallers : List.Forall₂ (Caller.Beside R) s.callers s'.callers) :
    Matches names (State.AllBeside R) (s.step (before ++ .proc p :: after)) (s'.step (before ++ .proc q :: after)) := by
  have hglobals : s'.globals = s.globals := (congrArg State.globals hsame :)
  have houtput : s'.output = s.output := (congrArg State.output hsame :)
  have hframe : s'.frame = s.frame := (congrArg State.frame hsame :)
  by_cases hc : s.Calling
  · obtain ⟨d, target, argc, hr⟩ := hc
    obtain ⟨is, hr⟩ := List.head?_eq_some_iff.1 hr
    have hr' : s'.frame.rest = _ := hframe ▸ hr
    rw [State.step_of_rest hr rfl, State.step_of_rest hr' rfl]
    have hcaller : Caller.Beside R ⟨{ (s.withRest is).frame with staged := ∅ }, d⟩
        ⟨{ (s'.withRest is).frame with staged := ∅ }, d⟩ := by
      rw [State.withRest, State.withRest, hframe]
      exact .refl R _
    have hstaged : s'.frame.staged = s.frame.staged := congrArg Frame.staged hframe
    exact h.call hcaller hstaged hglobals houtput hcallers target argc
  · have hc' : ¬ s'.Calling := by rwa [State.Calling, hframe]
    rw [State.step_under hc, State.step_under hc', hsame]
    cases s.alone.step [] with
    | error e => exact h.error _
    | ok x => exact .ok (h.alike_under hcallers (.inl rfl))

/-- A step of two runs leads them to points alike, perhaps after one step more of the second. -/
theorem allBeside_step (h : Lockstep names p q R) (hs : s.AllBeside R s') :
    Matches names (State.AllBeside R) (s.step (before ++ .proc p :: after)) (s'.step (before ++ .proc q :: after)) ∨
      ∃ s'', s'.step (before ++ .proc q :: after) = .ok (.running s'') ∧ s.AllBeside R s'' ∧
        Matches names (State.AllBeside R) (s.step (before ++ .proc p :: after))
          (s''.step (before ++ .proc q :: after)) := by
  obtain ⟨hsame | hR, hcallers⟩ := hs
  · exact .inl (h.step_of_same hsame hcallers)
  · rcases h.step hR with hstep | ⟨hc', s'', hstep', hR', hstep⟩
    · exact .inl (h.inStep hR hstep hcallers)
    · have hR' : R s { s'' with callers := s'.callers } := h.under s.callers s'.callers hR'
      refine .inr ⟨{ s'' with callers := s'.callers }, ?_, ⟨.inr hR', hcallers⟩, h.inStep hR' ?_ hcallers⟩
      · rw [State.step_under hc', hstep']
        rfl
      · cases hstep with
        | call hr hr' hstaged hk => exact .call hr hr' hstaged hk
        | plain hc hc' hm => exact .plain hc hc' hm

/-! ## Runs -/

/-- A fault of the first run is matched by the second. -/
theorem faults (h : Lockstep names p q R) {t : Temp} {x x' : Progress} (hx : x.Alike (State.AllBeside R) x')
    (hf : x.Faults (before ++ .proc p :: after) t) :
    ∃ t', names t t' ∧ x'.Faults (before ++ .proc q :: after) t' := by
  induction hf generalizing x' with
  | now hstep =>
    cases hx with
    | running hs =>
      rcases h.allBeside_step hs with hm | ⟨s'', hstep', -, hm⟩
      · exact hm.now hstep
      · exact (hm.now hstep).imp fun _ hf => hf.imp_right (.later hstep')
  | later hstep _ ih =>
    cases hx with
    | running hs =>
      rcases h.allBeside_step hs with hm | ⟨s'', hstep', -, hm⟩
      · exact hm.later hstep ih
      · exact (hm.later hstep ih).imp fun _ hf => hf.imp_right (.later hstep')

/-- A fault of the second run is matched by the first. -/
theorem faults_of (h : Lockstep names p q R) {t' : Temp} {x x' : Progress} (hx : x.Alike (State.AllBeside R) x')
    (hf : x'.Faults (before ++ .proc q :: after) t') :
    ∃ t, names t t' ∧ x.Faults (before ++ .proc p :: after) t := by
  induction hf generalizing x with
  | now hstep =>
    cases hx with
    | running hs =>
      rcases h.allBeside_step hs with hm | ⟨s'', hstep', -, -⟩
      · exact hm.flip.now hstep
      · cases hstep.symm.trans hstep'
  | later hstep _ ih =>
    cases hx with
    | running hs =>
      rcases h.allBeside_step hs with hm | ⟨s'', hstep', hs'', -⟩
      · exact hm.flip.later hstep fun halike => ih halike.flip
      · cases hstep.symm.trans hstep'
        exact ih (.running hs'')

end Lockstep

/-! ## Programs -/

namespace Program

/-- Either program keeps the runs of the other that succeed, and those that stop at an undefined temporary. -/
structure RunsAlike (names : Temp → Temp → Prop) (P Q : Program) : Prop where
  keptBy : P.KeptBy Q
  keptBy_old : Q.KeptBy P
  faultsKeptBy : P.FaultsKeptBy names Q
  faultsKeptBy_old : Q.FaultsKeptBy (fun t' t => names t t') P

variable {P Q : Program} {R : State → State → Prop}

/-- Programs that begin alike fault alike, if they do so from where they begin. -/
theorem faultsKeptBy_of_start {names : Temp → Temp → Prop}
    (hstart : ∀ entry args, Matches names R (P.start entry args) (Q.start entry args))
    (hfaults : ∀ {t : Temp} {x x' : Progress}, x.Alike R x' → x.Faults P t →
      ∃ t', names t t' ∧ x'.Faults Q t') : P.FaultsKeptBy names Q := by
  intro entry args limit t hrun
  have hmatches := hstart entry args
  unfold run at hrun ⊢
  generalize P.start entry args = x, Q.start entry args = x' at hmatches hrun
  cases x with
  | error e =>
    cases hrun
    obtain ⟨t', ht, rfl⟩ := hmatches.undefined
    exact ⟨t', ht, 0, fun _ _ => rfl⟩
  | ok x =>
    cases hmatches with
    | ok hx =>
      obtain ⟨t', ht, hf⟩ := hfaults hx (Progress.faults_of_runFrom limit hrun)
      obtain ⟨n, hn⟩ := hf.runFrom
      exact ⟨t', ht, n, fun limit' hle => hn limit' limit' hle⟩

end Program

namespace Lockstep

variable {names : Temp → Temp → Prop} {p q : Procedure} {R : State → State → Prop}

theorem program_start (h : Lockstep names p q R) (before after : Program) (entry : String) (args : List Int64) :
    Matches names (State.AllBeside R) (Program.start (before ++ .proc p :: after) entry args)
      (Program.start (before ++ .proc q :: after) entry args) := by
  have hglobals : Program.globals (before ++ .proc q :: after) = Program.globals (before ++ .proc p :: after) := by
    simp [Program.globals]
  unfold Program.start
  rw [hglobals]
  rcases h.callee_eq_or before after 0 entry args with heq | ⟨hlen, hp, hq⟩
  · rw [heq]
    cases callee (before ++ .proc p :: after) 0 entry args with
    | error e => exact h.error e
    | ok k =>
      cases k with
      | line text => exact .ok (.ended _)
      | proc b => exact .ok (h.settled ⟨.inl rfl, .nil⟩)
  · rw [hp, hq]
    exact .ok (h.settled ⟨.inr (h.start _ _ hlen), .nil⟩)

/-- Programs that differ in procedures that run in step find the same temporaries undefined. -/
theorem faultsKeptBy (h : Lockstep names p q R) (before after : Program) :
    Program.FaultsKeptBy names (before ++ .proc p :: after) (before ++ .proc q :: after) ∧
      Program.FaultsKeptBy (fun t' t => names t t') (before ++ .proc q :: after) (before ++ .proc p :: after) :=
  ⟨Program.faultsKeptBy_of_start (h.program_start before after) h.faults,
    Program.faultsKeptBy_of_start (fun entry args => (h.program_start before after entry args).flip)
      fun hx => h.faults_of hx.flip⟩

end Lockstep

end ThreeAddress

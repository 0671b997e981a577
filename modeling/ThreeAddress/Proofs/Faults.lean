import ThreeAddress.Proofs.Machine
/-!
# Faults at undefined temporaries

A step apart from its callers, and what its fault says of the operands: it is at a read of the first one
without a value (`State.undefined?_of_execute`). A run that comes to such a fault (`Progress.Faults`) does
so within every limit from some number on.
-/

namespace ThreeAddress

/-- The temporary that a read finds undefined. -/
def Fault.undefined? : Fault → Option Temp
  | undefinedTemp t => some t
  | _ => none

theorem Fault.undefined?_eq_some {e : Fault} {t : Temp} : e.undefined? = some t ↔ e = .undefinedTemp t := by
  cases e <;> simp [undefined?]

/-- The first operand without a value, if that is a local. -/
def Store.undefined? (σ : Store) (os : List Operand) : Option Temp :=
  match os.find? fun o => (σ.value? o).isNone with
  | some (.temp t) => if t.isGlobal then none else some t
  | _ => none

/-! ## Steps apart from the callers -/

namespace State

/-- The state without the procedures that wait. -/
def alone (s : State) : State := { s with callers := [] }

/-- The next instruction is a call. -/
def Calling (s : State) : Prop := ∃ d target argc, s.frame.rest.head? = some (.call d target argc)

end State

/-- What a procedure has come to, on top of callers. -/
def Progress.under (callers : List Caller) : Progress → Progress
  | .running s => .running { s with callers := callers }
  | .ended f => leave f.globals f.output f.result? callers

namespace State

theorem settled_under (s : State) : s.settled = s.alone.settled.under s.callers := by
  unfold settled alone
  split <;> rfl

theorem receive_under (s : State) (dest? : Option Temp) (v? : Option Int64) (callers : List Caller) :
    { s.receive dest? v? with callers := callers } = { s with callers := callers }.receive dest? v? := by
  rw [← withStore_receive, ← withStore_receive]
  rfl

/-- Apart from calls, an instruction depends neither on the program nor on the callers. -/
theorem execute_under {s : State} {i : Instr} (h : ∀ d target argc, i ≠ .call d target argc) (P : Program) :
    s.execute P i = (s.alone.execute [] i).map (Progress.under s.callers) := by
  have read_under (o : Operand) {f g : Int64 → Except Fault Progress}
      (hfg : ∀ v, f v = (g v).map (Progress.under s.callers)) :
      s.read o >>= f = (s.alone.read o >>= g).map (Progress.under s.callers) := by
    rw [show s.alone.read o = s.read o by cases o <;> rfl]
    cases s.read o with
    | error e => rfl
    | ok v => exact hfg v
  have write_under : ∀ t v, (s.write t v).settled = (s.alone.write t v).settled.under s.callers := by
    intro t v
    rw [settled_under, show (s.write t v).callers = s.callers from callers_receive s (some t) (some v)]
    exact congrArg (fun u => (settled u).under s.callers) (receive_under s (some t) (some v) [])
  have goTo_under : ∀ l, (s.goTo l).map State.settled =
      ((s.alone.goTo l).map State.settled).map (Progress.under s.callers) := by
    intro l
    unfold goTo
    cases h : from? l s.frame.proc.body with
    | none => simp [alone, h, Except.map]
    | some rest => simp [alone, h, Except.map, settled_under (s.withRest rest)]; rfl
  cases i with
  | call d target argc => exact absurd rfl (h d target argc)
  | nop | phi | label => exact congrArg Except.ok (settled_under _)
  | const dest value => exact congrArg Except.ok (write_under dest value)
  | copy dest o => exact read_under o fun v => congrArg Except.ok (write_under dest v)
  | unary dest op o => exact read_under o fun v => congrArg Except.ok (write_under dest (op.eval v))
  | binary dest op l r =>
    refine read_under l fun u => read_under r fun v => ?_
    cases op.eval u v with
    | none => rfl
    | some w => exact congrArg Except.ok (write_under dest w)
  | param k o => exact read_under o fun v => congrArg Except.ok (settled_under _)
  | jump l => exact goTo_under l
  | branch cond o l =>
    refine read_under o fun v => ?_
    split
    · exact goTo_under l
    · exact congrArg Except.ok (settled_under s)
  | ret o =>
    cases o with
    | none => rfl
    | some o => exact read_under o fun v => rfl

theorem phiValues_alone (s : State) (l : Label) (group : List Instr) :
    s.alone.phiValues l group = s.phiValues l group := by
  have value?_eq : ∀ o, s.alone.value? o = s.value? o := fun o => by cases o <;> rfl
  induction group with
  | nil => rfl
  | cons i group ih =>
    cases i with
    | phi dest sources => simp only [phiValues, ih, value?_eq]
    | _ => exact ih

theorem phis_under (s : State) (group : List Instr) : (s.phis group).map State.settled =
    ((s.alone.phis group).map State.settled).map (Progress.under s.callers) := by
  unfold phis
  rw [show s.alone.frame = s.frame from rfl]
  cases s.frame.previous? with
  | none => rfl
  | some l =>
    simp only [phiValues_alone, bind, Except.bind, pure, Except.pure]
    cases s.phiValues l group with
    | error e => rfl
    | ok writes => exact congrArg Except.ok (settled_under (s.withLocals _))

/-- Apart from calls, a step depends neither on the program nor on the callers. -/
theorem step_under {s : State} (h : ¬ s.Calling) (P : Program) :
    s.step P = (s.alone.step []).map (Progress.under s.callers) := by
  cases hr : s.frame.rest with
  | nil =>
    simp only [step, hr, alone]
    exact congrArg Except.ok (settled_under s)
  | cons i is =>
    have hr' : s.alone.frame.rest = i :: is := hr
    cases hi : i.isPhi with
    | false =>
      rw [step_of_rest hr hi, step_of_rest hr' hi]
      refine execute_under (s := s.withRest is) (fun d target argc he => h ⟨d, target, argc, ?_⟩) P
      rw [hr, he]
      rfl
    | true =>
      simp only [step, hr, hr', hi, if_true]
      exact phis_under (s.withRest (is.dropWhile Instr.isPhi)) (i :: is.takeWhile Instr.isPhi)

theorem not_calling {s : State} {i : Instr} {is : List Instr} (hr : s.frame.rest = i :: is)
    (hi : ∀ d target argc, i ≠ .call d target argc) : ¬ s.Calling := by
  rintro ⟨d, target, argc, h⟩
  rw [hr] at h
  exact hi d target argc (Option.some.inj h)

/-- A step at phis executes all that stand together. -/
theorem step_of_phis {s : State} {i : Instr} {phis is : List Instr} (hr : s.frame.rest = (i :: phis) ++ is)
    (hphis : ∀ j ∈ i :: phis, j.isPhi = true) (his : is.takeWhile Instr.isPhi = []) (P : Program) :
    s.step P = ((s.withRest is).phis (i :: phis)).map State.settled := by
  have hphis' : ∀ j ∈ phis, j.isPhi = true := fun j hj => hphis j (.tail _ hj)
  have hdrop : is.dropWhile Instr.isPhi = is := by
    have := List.takeWhile_append_dropWhile (p := Instr.isPhi) (l := is)
    rwa [his] at this
  unfold step
  simp only [hr, List.cons_append, hphis i List.mem_cons_self, if_true,
    List.takeWhile_append_of_pos hphis', List.dropWhile_append_of_pos hphis', his, hdrop, List.append_nil]
  cases (s.withRest is).phis (i :: phis) <;> rfl

/-! ## Faults of steps -/

theorem undefined?_of_read {s : State} {o : Operand} {e : Fault} (h : s.read o = .error e) (os : List Operand) :
    s.store.undefined? (o :: os) = e.undefined? := by
  cases o with
  | imm v => cases h
  | temp t =>
    simp only [read] at h
    split at h
    · cases h
    · rename_i hv
      have hv : s.store.value? (.temp t) = none := (value?_store s _).trans hv
      cases h
      simp only [Store.undefined?, List.find?_cons, hv, Option.isNone_none]
      split <;> simp_all [Fault.undefined?]

theorem undefined?_of_read_ok {s : State} {o : Operand} {v : Int64} (h : s.read o = .ok v) (os : List Operand) :
    s.store.undefined? (o :: os) = s.store.undefined? os := by
  simp only [Store.undefined?, List.find?_cons, read_eq_ok.1 h, Option.isNone_some]

theorem undefined?_of_goTo {s : State} {l : Label} {e : Fault} (h : s.goTo l = .error e) :
    e.undefined? = none := by
  unfold goTo at h
  split at h <;> cases h
  rfl

/-- A fault of an instruction is at a read of the first operand without a value, or at no such read. -/
theorem undefined?_of_execute {P : Program} {s : State} {i : Instr} {e : Fault} (hi : i.isPhi = false)
    (hc : ∀ d target argc, i ≠ .call d target argc) (h : s.execute P i = .error e) :
    s.store.undefined? i.uses = e.undefined? := by
  cases i with
  | call d target argc => exact absurd rfl (hc d target argc)
  | phi => cases hi
  | nop | label | const => cases h
  | copy | unary | param =>
    rcases bind_eq_error.1 h with h | ⟨v, -, h⟩
    · exact undefined?_of_read h []
    · cases h
  | binary dest op l r =>
    rcases bind_eq_error.1 h with h | ⟨u, hu, h⟩
    · exact undefined?_of_read h [r]
    refine (undefined?_of_read_ok hu [r]).trans ?_
    rcases bind_eq_error.1 h with h | ⟨v, hv, h⟩
    · exact undefined?_of_read h []
    refine (undefined?_of_read_ok hv []).trans ?_
    split at h <;> cases h
    rfl
  | jump l =>
    rcases bind_eq_error.1 h with h | ⟨u, -, h⟩
    · exact (undefined?_of_goTo h).symm
    · cases h
  | branch cond o l =>
    rcases bind_eq_error.1 h with h | ⟨v, hv, h⟩
    · exact undefined?_of_read h []
    refine (undefined?_of_read_ok hv []).trans ?_
    split at h
    · rcases bind_eq_error.1 h with h | ⟨u, -, h⟩
      · exact (undefined?_of_goTo h).symm
      · cases h
    · cases h
  | ret o =>
    cases o with
    | none => cases h
    | some o =>
      rcases bind_eq_error.1 h with h | ⟨v, -, h⟩
      · exact undefined?_of_read h []
      · cases h

/-- Phis read no temporary that has to be defined. -/
theorem undefined?_of_phis {s : State} {group : List Instr} {e : Fault} (h : s.phis group = .error e) :
    e.undefined? = none := by
  have hvalues : ∀ {l group}, s.phiValues l group = .error e → e.undefined? = none := by
    intro l group h
    induction group with
    | nil => cases h
    | cons i group ih =>
      cases i with
      | phi dest sources =>
        simp only [phiValues] at h
        split at h
        · cases h
          rfl
        · cases hg : s.phiValues l group <;> rw [hg] at h <;> cases h
          exact ih hg
      | _ => exact ih h
  unfold phis at h
  split at h
  · cases h
    rfl
  · rcases bind_eq_error.1 h with h | ⟨ws, -, h⟩
    · exact hvalues h
    · cases h

end State

/-! ## Runs that fault -/

/-- A run comes to a read that finds a temporary undefined. -/
inductive Progress.Faults (P : Program) (t : Temp) : Progress → Prop
  | now {s : State} : s.step P = .error (.undefinedTemp t) → Faults P t (.running s)
  | later {s : State} {x : Progress} : s.step P = .ok x → Faults P t x → Faults P t (.running s)

theorem Progress.faults_of_runFrom {P : Program} {limit : Nat} {t : Temp} (left : Nat) {x : Progress}
    (h : runFrom P limit left x = .error (.undefinedTemp t)) : x.Faults P t := by
  induction left generalizing x with
  | zero => cases x <;> cases h
  | succ left ih =>
    cases x with
    | ended f => cases h
    | running s =>
      rw [runFrom] at h
      split at h
      · rename_i hs
        cases h
        exact .now hs
      · exact .later ‹_› (ih h)

/-- The fault is found within every limit from some number on. -/
theorem Progress.Faults.runFrom {P : Program} {t : Temp} {x : Progress} (h : x.Faults P t) :
    ∃ n, ∀ limit left, n ≤ left → ThreeAddress.runFrom P limit left x = .error (.undefinedTemp t) := by
  induction h with
  | now hs =>
    refine ⟨1, fun limit left hn => ?_⟩
    obtain ⟨left, rfl⟩ := Nat.exists_eq_add_of_le' hn
    rw [ThreeAddress.runFrom, hs]
  | later hs _ ih =>
    obtain ⟨n, hrun⟩ := ih
    refine ⟨n + 1, fun limit left hn => ?_⟩
    obtain ⟨left, rfl⟩ := Nat.exists_eq_add_of_le' (Nat.le_trans (Nat.le_add_left 1 n) hn)
    rw [ThreeAddress.runFrom, hs]
    exact hrun limit left (by omega)

/-- A run that stops at a read of an undefined temporary is matched by one that does so within every limit
from some number on; the relation tells which names may stand for one another. -/
def Program.FaultsKeptBy (names : Temp → Temp → Prop) (P Q : Program) : Prop :=
  ∀ ⦃entry : String⦄ ⦃args : List Int64⦄ ⦃limit : Nat⦄ ⦃t : Temp⦄,
    P.run entry args limit = .error (.undefinedTemp t) →
    ∃ t', names t t' ∧ ∃ n, ∀ limit', n ≤ limit' → Q.run entry args limit' = .error (.undefinedTemp t')

end ThreeAddress

import ThreeAddress.Proofs.Runs
/-!
# The step limit

What a run does is settled without any limit: `Program.after` follows it from step to step. A limit only says how
far it is followed. As long as the run goes on (`Program.RunsFor`), so many steps are taken from the limit
(`run_eq_runFrom`); the first point at which it does not go on is the answer for every limit that gets there, and
for no smaller one (`run_of_ended`, `run_of_fault`, `run_of_running`).
-/

namespace ThreeAddress.Program

variable {P : Program} {entry : String} {args : List Int64} {k n : Nat}

/-- The run goes on at each of its first points. -/
def RunsFor (P : Program) (entry : String) (args : List Int64) (k : Nat) : Prop :=
  ∀ j < k, ∃ s, P.after entry args j = .ok (.running s)

theorem RunsFor.mono (h : P.RunsFor entry args n) (hk : k ≤ n) : P.RunsFor entry args k :=
  fun j hj => h j (Nat.lt_of_lt_of_le hj hk)

/-- A run goes on at its first points, and either also at the next or not. -/
theorem runsFor_or_exists_stop (P : Program) (entry : String) (args : List Int64) (n : Nat) :
    P.RunsFor entry args n ∨ ∃ k < n, P.RunsFor entry args k ∧ ¬ ∃ s, P.after entry args k = .ok (.running s) := by
  induction n with
  | zero => exact .inl nofun
  | succ n ih =>
    rcases ih with h | ⟨k, hk, hstop⟩
    · by_cases hn : ∃ s, P.after entry args n = .ok (.running s)
      · refine .inl fun j hj => ?_
        rcases Nat.lt_succ_iff_lt_or_eq.1 hj with hj | rfl
        · exact h j hj
        · exact hn
      · exact .inr ⟨n, Nat.lt_succ_self n, h, hn⟩
    · exact .inr ⟨k, Nat.lt_succ_of_lt hk, hstop⟩

/-- A run that goes on for so many steps has used up so many of its limit. -/
theorem run_eq_runFrom (hk : k ≤ n) (h : P.RunsFor entry args k) {x : Progress}
    (hx : P.after entry args k = .ok x) : P.run entry args n = runFrom P n (n - k) x := by
  induction k generalizing x with
  | zero =>
    have hstart : P.start entry args = .ok x := hx
    simp only [run, hstart, bind, Except.bind, Nat.sub_zero]
  | succ k ih =>
    obtain ⟨s, hs⟩ := h k (Nat.lt_succ_self k)
    have hstep : s.step P = .ok x := by simpa only [after, hs] using hx
    have hleft : n - k = (n - (k + 1)) + 1 := by omega
    rw [ih (by omega) (h.mono (Nat.le_succ k)) hs, hleft, runFrom, hstep]

/-- A run that has ended is the answer for every limit that gets there. -/
theorem run_of_ended (hk : k ≤ n) (h : P.RunsFor entry args k) {f : Final}
    (hf : P.after entry args k = .ok (.ended f)) : P.run entry args n = .ok ⟨f, k⟩ := by
  have hsteps : n - (n - k) = k := by omega
  rw [run_eq_runFrom hk h hf]
  cases hleft : n - k with
  | zero => rw [runFrom, ← hleft, hsteps]
  | succ left => rw [runFrom, ← hleft, hsteps]

/-- So is a run that has come to a fault. -/
theorem run_of_fault (hk : k ≤ n) (h : P.RunsFor entry args k) {fault : Fault}
    (hf : P.after entry args k = .error fault) : P.run entry args n = .error fault := by
  cases k with
  | zero =>
    have hstart : P.start entry args = .error fault := hf
    simp only [run, hstart, bind, Except.bind]
  | succ k =>
    obtain ⟨s, hs⟩ := h k (Nat.lt_succ_self k)
    have hstep : s.step P = .error fault := by simpa only [after, hs] using hf
    have hleft : n - k = (n - (k + 1)) + 1 := by omega
    rw [run_eq_runFrom (by omega) (h.mono (Nat.le_succ k)) hs, hleft, runFrom, hstep]

/-- A run that still goes on is stopped by the limit. -/
theorem run_of_running {s : State} (h : P.RunsFor entry args n) (hs : P.after entry args n = .ok (.running s)) :
    P.run entry args n = .error (.stepLimit n) := by
  rw [run_eq_runFrom (Nat.le_refl n) h hs, Nat.sub_self, runFrom]

/-- Within a limit a run is found to end, to come to a fault, or to go on. If it ends, then it has taken no more
steps than the limit; within every limit that leaves room for these steps it ends in the same way, and every smaller
limit stops it. -/
theorem run_limit (P : Program) (entry : String) (args : List Int64) (n : Nat) :
    ((∃ k ≤ n, ∃ f, P.after entry args k = .ok (.ended f) ∧ P.run entry args n = .ok ⟨f, k⟩) ∨
      (∃ k ≤ n, ∃ fault, P.after entry args k = .error fault ∧ P.run entry args n = .error fault) ∨
      ∃ s, P.after entry args n = .ok (.running s) ∧ P.run entry args n = .error (.stepLimit n)) ∧
    ∀ o, P.run entry args n = .ok o → o.steps ≤ n ∧
      (∀ m, o.steps ≤ m → P.run entry args m = .ok o) ∧
      ∀ m < o.steps, P.run entry args m = .error (.stepLimit m) := by
  -- Either the run goes on for as long as the limit allows, or there is a first step at which it stops.
  rcases runsFor_or_exists_stop P entry args (n + 1) with hruns | ⟨k, hk, hruns, hstop⟩
  · obtain ⟨s, hs⟩ := hruns n (Nat.lt_succ_self n)
    have hrun := run_of_running (hruns.mono (Nat.le_succ n)) hs
    refine ⟨.inr (.inr ⟨s, hs, hrun⟩), fun o ho => ?_⟩
    cases hrun.symm.trans ho
  have hk : k ≤ n := Nat.le_of_lt_succ hk
  cases hx : P.after entry args k with
  | error fault =>
    have hrun := run_of_fault hk hruns hx
    refine ⟨.inr (.inl ⟨k, hk, fault, hx, hrun⟩), fun o ho => ?_⟩
    cases hrun.symm.trans ho
  | ok x =>
    cases x with
    | running s => exact absurd ⟨s, hx⟩ hstop
    | ended f =>
      have hrun := run_of_ended hk hruns hx
      refine ⟨.inl ⟨k, hk, f, hx, hrun⟩, fun o ho => ?_⟩
      cases hrun.symm.trans ho
      refine ⟨hk, fun m hm => run_of_ended hm hruns hx, fun m hm => ?_⟩
      obtain ⟨s, hs⟩ := hruns m hm
      exact run_of_running (hruns.mono (Nat.le_of_lt hm)) hs

end ThreeAddress.Program

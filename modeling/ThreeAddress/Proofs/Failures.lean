import ThreeAddress.Proofs.Constants.Undefined
import ThreeAddress.Proofs.Pipeline
import ThreeAddress.Proofs.Ssa.Supplied
/-!
# When optimization fails

A program fails at the first of its procedures that fails: where no graph is made of the procedure, with the
error of that, and otherwise with a violation that folding leaves (`Program.optimize_outcomes`). Such a violation is
an argument that is read from a versioned name, in a procedure that has phis or reads a versioned name, it may be
a parameter, which it does not write on all paths to the place. All other procedures are optimized
(`Procedure.exists_runPasses_of_assigned`): what SSA construction supplies for them is still there when the
constants are folded, as only the deletion of phis comes before.
-/

namespace ThreeAddress

variable {c : Cfg} {params : List Temp}

/-! ## Passes -/

/-- On a graph that linear code can be written from, a pass fails only with the violation that folding leaves. -/
theorem Pass.run_cases (p : Pass) (h : c.Closed) : (∃ r, p.run c = .ok r) ∨
    p = .foldConstants ∧ ∃ u, p.run c = .error (.undefinedRead u) ∧ u.OfArgument c.proc := by
  cases hv : (p.apply c).2 with
  | none => exact .inl (p.exists_run (p.closed_apply h).toValid hv)
  | some u =>
    cases p with
    | foldConstants =>
      refine .inr ⟨rfl, u, ?_, (Constants.ofArgument_of_undefinedRead h.endsOnce hv).1⟩
      simp only [run, hv]
      rfl
    | _ => cases hv

/-- So it is with passes in a row. -/
theorem runPasses_cases (passes : List Pass) (h : c.Closed) : (∃ r, runPasses passes c = .ok r) ∨
    .foldConstants ∈ passes ∧ ∃ u, runPasses passes c = .error (.undefinedRead u) ∧ u.OfArgument c.proc := by
  induction passes generalizing c with
  | nil => exact .inl ⟨_, rfl⟩
  | cons p passes ih =>
    rcases p.run_cases h with ⟨first, hfirst⟩ | ⟨rfl, u, hu, hargument⟩
    · have hcfg := Pass.cfg_of_run hfirst
      rcases ih (hcfg ▸ p.closed_apply h) with ⟨rest, hrest⟩ | ⟨hmem, u, hu, hargument⟩
      · exact .inl ⟨_, bind_eq_ok.2 ⟨first, hfirst, bind_eq_ok.2 ⟨rest, hrest, rfl⟩⟩⟩
      · refine .inr ⟨.tail _ hmem, u, bind_eq_error.2 (.inr ⟨first, hfirst, bind_eq_error.2 (.inl hu)⟩), ?_⟩
        rwa [hcfg, p.proc_apply] at hargument
    · exact .inr ⟨List.mem_cons_self, u, bind_eq_error.2 (.inl hu), hargument⟩

/-- Folding leaves no violation where all that is needed of the versioned names is written, and only phis are
deleted before. -/
theorem exists_runPasses_fold {before after : List Pass} (h : c.PassForm params) (hs : c.Supplied)
    (hbefore : ∀ p ∈ before, ∃ rounds, p = .minimizePhis rounds) (hafter : .foldConstants ∉ after) :
    ∃ r, runPasses (before ++ .foldConstants :: after) c = .ok r := by
  induction before generalizing c with
  | nil =>
    have hform := Pass.passForm_apply .foldConstants h
    exact exists_runPasses_cons hform.toValid (Constants.foldConstants_ok_of_supplied h.toSsaForm hs)
      (exists_runPasses hform hafter)
  | cons p before ih =>
    obtain ⟨rounds, rfl⟩ := hbefore p List.mem_cons_self
    have hform := Pass.passForm_apply (.minimizePhis rounds) h
    have hminimized : ((Pass.minimizePhis rounds).apply c).1.cfg.Supplied :=
      PhiMinimization.supplied_minimize h.toSsaForm hs _
    exact exists_runPasses_cons hform.toValid rfl (ih hform hminimized fun q hq => hbefore q (.tail _ hq))

namespace Config

variable {config : Config}

theorem foldConstants_mem_passes : .foldConstants ∈ config.passes ↔ config.foldConstants = true := by
  obtain ⟨_ | _, _ | _, _ | _, _ | _, _⟩ := config <;> simp [passes]

/-- Only phis are deleted before constants are folded, and they are folded once. -/
theorem exists_passes_eq (h : config.foldConstants = true) : ∃ before after,
    config.passes = before ++ .foldConstants :: after ∧
      (∀ p ∈ before, ∃ rounds, p = .minimizePhis rounds) ∧ .foldConstants ∉ after := by
  refine ⟨if config.minimizePhis then [.minimizePhis config.maxRounds] else [],
    (if config.eliminateSubexprs then [.eliminateSubexprs] else []) ++
      (if config.propagateCopies then [.propagateCopies] else []), ?_, fun p hp => ?_, ?_⟩
  · simp [passes, h]
  · split at hp
    · exact ⟨_, List.mem_singleton.1 hp⟩
    · cases hp
  · split <;> split <;> simp

end Config

/-! ## Procedures -/

namespace Procedure

variable {p : Procedure}

/-- All passes succeed on procedures without phis that write versioned names before they read them. -/
theorem exists_runPasses_of_assigned (hphi : ∀ i ∈ p.body, i.isPhi = false) (hc : p.cfg = .ok c) (ha : c.Assigned)
    (config : Config) : ∃ r, runPasses config.passes (c.ssa p.params) = .ok r := by
  have hclosed := closed_cfg hc
  have hform : (c.ssa p.params).PassForm p.params := passForm_ssaVisiting hphi hc fun _ hl => hl
  obtain ⟨R, hssa⟩ := Ssa.exists_renaming hclosed.toValid p.params fun _ hl => hl
  have hsupplied : R.cfg.Supplied := R.supplied_cfg hclosed (phiFree_cfg hc hphi) ha
  rw [← hssa] at hsupplied
  by_cases hfold : config.foldConstants = true
  · obtain ⟨before, after, hpasses, hbefore, hafter⟩ := Config.exists_passes_eq hfold
    exact hpasses ▸ exists_runPasses_fold hform hsupplied hbefore hafter
  · exact exists_runPasses hform fun hmem => hfold (Config.foldConstants_mem_passes.1 hmem)

/-- A procedure may have a versioned name that is not written on all paths to a place that reads it. -/
def ReadsUnwritten (p : Procedure) : Prop :=
  (∃ i ∈ p.body, i.isPhi = true) ∨ ∃ c, p.cfg = .ok c ∧ ¬ c.Assigned

theorem optimize_cases (p : Procedure) (config : Config) : (∃ o, p.optimize config.passes = .ok o) ∨
    (∃ e, p.cfg = .error e ∧ p.optimize config.passes = .error (.structural e)) ∨
    config.foldConstants = true ∧ p.ReadsUnwritten ∧
      ∃ u, p.optimize config.passes = .error (.undefinedRead u) ∧ u.OfArgument p.name := by
  cases hc : p.cfg with
  | error e => exact .inr (.inl ⟨e, rfl, by simp [optimize, hc, Except.mapError, bind, Except.bind]⟩)
  | ok c =>
    have hclosed := (closed_cfg hc).ssaVisiting (fun _ hl => hl) p.params
    rcases runPasses_cases config.passes hclosed with ⟨r, hr⟩ | ⟨hmem, u, hu, hargument⟩
    · obtain ⟨o, ho, -⟩ := exists_optimize hc hr
      exact .inl ⟨o, ho⟩
    · have hname : u.OfArgument p.name := proc_cfg hc ▸ hargument
      refine .inr (.inr ⟨Config.foldConstants_mem_passes.1 hmem, ?_, u, ?_, hname⟩)
      · by_contra hsafe
        obtain ⟨hphi, hassigned⟩ := not_or.1 hsafe
        have ha : c.Assigned := by
          by_contra hne
          exact hassigned ⟨c, hc, hne⟩
        have hphi : ∀ i ∈ p.body, i.isPhi = false := fun i hi => by
          simpa using fun h => hphi ⟨i, hi, h⟩
        obtain ⟨r, hr⟩ := exists_runPasses_of_assigned hphi hc ha config
        cases hr.symm.trans hu
      · simp only [optimize, hc, Except.mapError, bind, Except.bind]
        rw [show runPasses config.passes (c.ssa p.params) = _ from hu]

end Procedure

/-! ## Programs -/

namespace Program

/-- Optimization succeeds, or it fails with the error that is made of a procedure in the place of its graph, or
folding leaves a violation. The violation is an argument that is read from a versioned name, in a procedure that
has phis or does not write versioned names on all paths to where they are read. -/
theorem optimize_outcomes (P : Program) (config : Config) : (∃ o, P.optimize config = .ok o) ∨
    (∃ p ∈ P.procedures, ∃ e, p.cfg = .error e ∧ P.optimize config = .error (.structural e)) ∨
    config.foldConstants = true ∧ ∃ p ∈ P.procedures, p.ReadsUnwritten ∧
      ∃ u, P.optimize config = .error (.undefinedRead u) ∧ u.OfArgument p.name := by
  cases hP : P.optimize config with
  | ok o => exact .inl ⟨o, rfl⟩
  | error e =>
    obtain ⟨d, hd, he⟩ : ∃ d ∈ P, d.optimize config.passes = .error e := by
      rcases bind_eq_error.1 hP with h | ⟨ds, -, h⟩
      · exact exists_of_mapM_eq_error h
      · cases h
    cases d with
    | var v => cases he
    | proc p =>
      have hmem : p ∈ P.procedures := mem_procedures.2 hd
      have he : p.optimize config.passes = .error e := by
        rcases bind_eq_error.1 he with h | ⟨o, -, h⟩
        · exact h
        · cases h
      rcases p.optimize_cases config with ⟨o, ho⟩ | ⟨s, hs, h⟩ | ⟨hfold, hreads, u, hu, hargument⟩
      · cases ho.symm.trans he
      · cases h.symm.trans he
        exact .inr (.inl ⟨p, hmem, s, hs, rfl⟩)
      · cases hu.symm.trans he
        exact .inr (.inr ⟨hfold, p, hmem, hreads, u, rfl, hargument⟩)

/-- A procedure that prints its parameter, whose name is that of a version. -/
def echoing : Procedure := ⟨"@main", [⟨"%0"⟩], [.param 1 (.temp ⟨"%0"⟩), .call none printInt 1, .ret none]⟩

/-- Folding takes a parameter that is spelled like a version for what is never defined, although the program
runs: its argument is a violation. -/
theorem optimize_echoing : (∃ out, Program.run [.proc echoing] "@main" [3] 100 = .ok out ∧ out.output = ["3"]) ∧
    (∀ i ∈ echoing.body, i.isPhi = false) ∧ (∃ c, echoing.cfg = .ok c) ∧
    Program.optimize [.proc echoing] ⟨false, true, false, false, 1⟩ =
      .error (.undefinedRead ⟨"@main", .param 1 (.temp ⟨"%0"⟩), ⟨"%.L0"⟩, ⟨"%0"⟩⟩) :=
  ⟨⟨_, rfl, by decide +kernel⟩, by decide, ⟨_, rfl⟩, rfl⟩

end Program

end ThreeAddress

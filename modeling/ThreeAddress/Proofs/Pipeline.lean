import ThreeAddress.Pipeline
import ThreeAddress.Proofs.CommonSubexpr.Elimination
import ThreeAddress.Proofs.Constants.Form
import ThreeAddress.Proofs.CopyPropagation
import ThreeAddress.Proofs.Infer
import ThreeAddress.Proofs.PhiMinimization
import ThreeAddress.Proofs.Ssa.Simulation
/-!
# The pipeline keeps what programs do

At the boundaries of passes a graph is in SSA form with a source for each predecessor in every phi
(`Cfg.PassForm`, `passForm_runPasses`), whatever the passes and their order. Each pass improves the graph, so
that an optimized procedure refines the old one (`Procedure.refines_runPasses`), and an optimized program
refines the old program (`Program.refines_optimize`). Elimination of common subexpressions takes part in this
only where no call changes the result of an expression.
-/

namespace ThreeAddress

/-! ## The form at the boundaries of passes -/

/-- SSA form with phis that have sources for the predecessors of their blocks, and for no others. -/
structure Cfg.PassForm (params : List Temp) (c : Cfg) : Prop extends c.SsaForm params where
  keyed : c.Keyed

theorem Cfg.Improves.passForm {env : Surroundings} {params : List Temp} {c c' : Cfg}
    (h : c.Improves env params c') (hkeyed : c.Keyed) : c'.PassForm params :=
  ⟨h.ssaForm, h.keyed hkeyed⟩

/-- The labels of the sources are those of the predecessors, each once. -/
theorem Cfg.PassForm.labels_perm {params : List Temp} {c : Cfg} (h : c.PassForm params) {b : Block}
    (hb : b ∈ c.blocks) {dest : Temp} {sources : PhiSources} (hi : .phi dest sources ∈ b.body) :
    sources.labels.Perm (c.predecessors b.label) := by
  refine (List.perm_ext_iff_of_nodup sources.nodup_labels ?_).2 fun l => ?_
  · exact h.nodup.sublist (List.filter_sublist.map _)
  · rw [Cfg.mem_predecessors]
    exact ⟨h.keyed hb hi, h.phiSource hb hi⟩

namespace Pass

variable {params : List Temp} {c : Cfg} {p : Pass} {r : Transformed}

/-- A pass that succeeds leaves its graph. -/
theorem cfg_of_run (h : p.run c = .ok r) : r.cfg = (p.apply c).1.cfg := by
  simp only [run, bind, Except.bind, pure, Except.pure, throw, throwThe, MonadExceptOf.throw] at h
  grind

/-- A pass that leaves a valid graph fails only where it reports a violation. -/
theorem exists_run (hvalid : (p.apply c).1.cfg.Valid) (h : (p.apply c).2 = none) :
    ∃ r, p.run c = .ok r := by
  simp only [run, h, hvalid.validate, pure, Except.pure]
  exact ⟨_, rfl⟩

/-- Passes make graphs that linear code can be written from of such graphs. -/
theorem closed_apply (p : Pass) (h : c.Closed) : (p.apply c).1.cfg.Closed := by
  cases p with
  | minimizePhis rounds => exact PhiMinimization.closed_minimize h _
  | foldConstants => exact Constants.closed_folded h
  | eliminateSubexprs => exact CommonSubexpr.closed_eliminate h
  | propagateCopies => exact CopyPropagation.closed_propagate h

theorem proc_apply (p : Pass) (c : Cfg) : (p.apply c).1.cfg.proc = c.proc := by
  cases p with
  | minimizePhis rounds => exact PhiMinimization.proc_minimize _ c
  | foldConstants => rfl
  | eliminateSubexprs => exact CommonSubexpr.proc_eliminate c
  | propagateCopies => rfl

theorem passForm_apply (p : Pass) (h : c.PassForm params) : (p.apply c).1.cfg.PassForm params := by
  cases p with
  | minimizePhis rounds =>
    have himproves : c.Improves .unknown params (PhiMinimization.minimize (max rounds 1) c).cfg :=
      PhiMinimization.improves_minimize h.toSsaForm _
    exact himproves.passForm h.keyed
  | foldConstants => exact ⟨Constants.ssaForm_folded h.toSsaForm, (Constants.tidy_folded c).keyed h.keyed⟩
  | eliminateSubexprs =>
    exact ⟨CommonSubexpr.ssaForm_eliminate h.toSsaForm, CommonSubexpr.keyed_eliminate h.toValid h.keyed⟩
  | propagateCopies =>
    exact ⟨CopyPropagation.ssaForm_propagate h.toSsaForm, (CopyPropagation.tidy_propagate h.toStrict).keyed h.keyed⟩

/-- A pass improves a graph. Expressions may be reused where no call changes their results. -/
theorem improves_apply {env : Surroundings} (p : Pass) (h : c.SsaForm params)
    (hparams : ∀ t ∈ params, t.isVersioned = false) (hkeeps : p = .eliminateSubexprs → env.Keeps c.bodies) :
    c.Improves env params (p.apply c).1.cfg := by
  cases p with
  | minimizePhis rounds => exact PhiMinimization.improves_minimize h _
  | foldConstants => exact Constants.improves_folded h hparams
  | eliminateSubexprs => exact CommonSubexpr.improves_eliminate h (hkeeps rfl)
  | propagateCopies => exact CopyPropagation.improves_propagate h

end Pass

/-! ## Passes in a row -/

section

variable {params : List Temp} {c : Cfg} {passes : List Pass} {r : Transformed}

theorem runPasses_cons {p : Pass} (h : runPasses (p :: passes) c = .ok r) :
    ∃ r', runPasses passes (p.apply c).1.cfg = .ok r' ∧ r.cfg = r'.cfg := by
  obtain ⟨first, hfirst, h⟩ := bind_eq_ok.1 h
  obtain ⟨rest, hrest, h⟩ := bind_eq_ok.1 h
  cases h
  exact ⟨rest, Pass.cfg_of_run hfirst ▸ hrest, rfl⟩

theorem exists_runPasses_cons {p : Pass} (h : (p.apply c).1.cfg.Valid) (hp : (p.apply c).2 = none)
    (hpasses : ∃ r, runPasses passes (p.apply c).1.cfg = .ok r) : ∃ r, runPasses (p :: passes) c = .ok r := by
  obtain ⟨first, hfirst⟩ := Pass.exists_run h hp
  obtain ⟨rest, hrest⟩ := hpasses
  rw [← Pass.cfg_of_run hfirst] at hrest
  exact ⟨_, bind_eq_ok.2 ⟨first, hfirst, bind_eq_ok.2 ⟨rest, hrest, rfl⟩⟩⟩

/-- Only folding can fail. -/
theorem exists_runPasses (h : c.PassForm params) (hfold : .foldConstants ∉ passes) :
    ∃ r, runPasses passes c = .ok r := by
  induction passes generalizing c with
  | nil => exact ⟨_, rfl⟩
  | cons p passes ih =>
    have hform := p.passForm_apply h
    refine exists_runPasses_cons hform.toValid ?_ (ih hform fun hp => hfold (.tail _ hp))
    cases p with
    | foldConstants => exact absurd List.mem_cons_self hfold
    | _ => rfl

/-- At the boundaries of passes linear code can be written from the graph. -/
theorem closed_runPasses (h : c.Closed) (hr : runPasses passes c = .ok r) :
    r.cfg.Closed ∧ r.cfg.proc = c.proc := by
  induction passes generalizing c r with
  | nil =>
    cases hr
    exact ⟨h, rfl⟩
  | cons p passes ih =>
    obtain ⟨r', hr', heq⟩ := runPasses_cons hr
    obtain ⟨hclosed, hproc⟩ := ih (p.closed_apply h) hr'
    exact heq ▸ ⟨hclosed, hproc.trans (p.proc_apply c)⟩

/-- The form holds at the boundaries of passes. -/
theorem passForm_runPasses (h : c.PassForm params) (hr : runPasses passes c = .ok r) :
    r.cfg.PassForm params := by
  induction passes generalizing c r with
  | nil =>
    cases hr
    exact h
  | cons p passes ih =>
    obtain ⟨r', hr', heq⟩ := runPasses_cons hr
    exact heq ▸ ih (p.passForm_apply h) hr'

/-- Passes improve a graph together. -/
theorem improves_runPasses {env : Surroundings} (h : c.SsaForm params)
    (hparams : ∀ t ∈ params, t.isVersioned = false) (hkeeps : .eliminateSubexprs ∈ passes → env.Keeps c.bodies)
    (hr : runPasses passes c = .ok r) : c.Improves env params r.cfg := by
  induction passes generalizing c r with
  | nil =>
    cases hr
    exact .refl h
  | cons p passes ih =>
    obtain ⟨r', hr', heq⟩ := runPasses_cons hr
    have hfirst := p.improves_apply h hparams fun hp => hkeeps (hp ▸ List.mem_cons_self)
    have hrest := ih hfirst.ssaForm (fun hp => hfirst.keeps (hkeeps (.tail _ hp))) hr'
    exact heq ▸ hfirst.trans hrest

end

/-! ## Procedures -/

namespace Procedure

variable {p : Procedure} {c : Cfg} {visit : List Label} {passes : List Pass} {r : Transformed}

theorem phiFree_cfg (hc : p.cfg = .ok c) (hphi : ∀ i ∈ p.body, i.isPhi = false) : c.PhiFree :=
  fun b hb i hi => hphi i ((shape_cfg hc b hb).2 i hi).1

/-- SSA construction, in whatever order the blocks are visited, makes the form that passes begin with. -/
theorem passForm_ssaVisiting (hphi : ∀ i ∈ p.body, i.isPhi = false) (hc : p.cfg = .ok c)
    (hvisit : ∀ l ∈ c.labels, l ∈ visit) : (c.ssaVisiting visit p.params).PassForm p.params := by
  have hclosed := closed_cfg hc
  have hfree := phiFree_cfg hc hphi
  obtain ⟨R, hssa⟩ := Ssa.exists_renaming hclosed.toValid p.params hvisit
  rw [hssa]
  exact ⟨R.ssaForm_cfg hclosed hfree, R.keyed_cfg hfree⟩

/-- At every boundary of passes the graph of a procedure without phis is valid and in strict SSA form, and its
phis have one source for each predecessor: after the passes that have run, and after the next one, whose graph no
check has seen yet. -/
theorem strict_runPasses (hphi : ∀ i ∈ p.body, i.isPhi = false) (hc : p.cfg = .ok c)
    (hvisit : ∀ l ∈ c.labels, l ∈ visit)
    (hr : runPasses passes (c.ssaVisiting visit p.params) = .ok r) {d : Cfg}
    (hd : d = r.cfg ∨ ∃ next : Pass, d = (next.apply r.cfg).1.cfg) :
    d.validate = .ok () ∧ d.Strict p.params ∧ ∀ b ∈ d.blocks, ∀ dest sources,
      .phi dest sources ∈ b.body → sources.labels.Perm (d.predecessors b.label) := by
  have hrun := passForm_runPasses (passForm_ssaVisiting hphi hc hvisit) hr
  have hform : d.PassForm p.params := by
    rcases hd with rfl | ⟨next, rfl⟩
    · exact hrun
    · exact next.passForm_apply hrun
  exact ⟨hform.toValid.validate, hform.toStrict, fun b hb _ _ hi => hform.labels_perm hb hi⟩

/-- A loop that prints a sum from a variable, and computes it again. -/
def printing : Procedure where
  name := "@main"
  params := [⟨"%n"⟩]
  body := [
    .copy ⟨"%i"⟩ (.temp ⟨"%n"⟩),
    .label ⟨"loop"⟩,
    .binary ⟨"@next"⟩ .add (.temp ⟨"%i"⟩) (.imm 1),
    .param 1 (.temp ⟨"@next"⟩),
    .call none printInt 1,
    .binary ⟨"%k"⟩ .add (.temp ⟨"%i"⟩) (.imm 1),
    .binary ⟨"%i"⟩ .sub (.temp ⟨"%i"⟩) (.imm 1),
    .branch .jnle (.temp ⟨"%i"⟩) ⟨"loop"⟩,
    .ret (some (.temp ⟨"%k"⟩))]

/-- The graph of `printing`. -/
def printingGraph : Cfg where
  proc := "@main"
  entry := ⟨"%.L0"⟩
  blocks := [
    ⟨⟨"%.L0"⟩, [.copy ⟨"%i"⟩ (.temp ⟨"%n"⟩)], [.jump ⟨"loop"⟩]⟩,
    ⟨⟨"loop"⟩,
      [.binary ⟨"@next"⟩ .add (.temp ⟨"%i"⟩) (.imm 1),
        .param 1 (.temp ⟨"@next"⟩),
        .call none printInt 1,
        .binary ⟨"%k"⟩ .add (.temp ⟨"%i"⟩) (.imm 1),
        .binary ⟨"%i"⟩ .sub (.temp ⟨"%i"⟩) (.imm 1)],
      [.branch .jnle (.temp ⟨"%i"⟩) ⟨"loop"⟩, .ret (some (.temp ⟨"%k"⟩))]⟩]

theorem phiFree_printing : ∀ i ∈ printing.body, i.isPhi = false := by decide

theorem cfg_printing : printing.cfg = .ok printingGraph := rfl

/-- All passes succeed on the graph of `printing`. -/
theorem exists_runPasses_printing :
    ∃ r, runPasses Config.all.passes (printingGraph.ssa printing.params) = .ok r := by
  have hform : (printingGraph.ssa printing.params).PassForm printing.params :=
    passForm_ssaVisiting phiFree_printing cfg_printing fun _ hl => hl
  have hmin := Pass.passForm_apply (.minimizePhis PhiMinimization.defaultRounds) hform
  have hfold := Pass.passForm_apply .foldConstants hmin
  refine exists_runPasses_cons hmin.toValid rfl (exists_runPasses_cons hfold.toValid ?_ ?_)
  · decide +kernel
  · exact exists_runPasses hfold (by decide)

theorem strict_runPasses_printing : (∀ i ∈ printing.body, i.isPhi = false) ∧ printing.cfg = .ok printingGraph ∧
    ∃ r, runPasses Config.all.passes (printingGraph.ssa printing.params) = .ok r ∧
      (∀ next : Pass, (next.apply r.cfg).1.cfg.validate = .ok ()) ∧
      r.cfg.validate = .ok () ∧ r.cfg.Strict printing.params ∧ ∀ b ∈ r.cfg.blocks, ∀ dest sources,
        .phi dest sources ∈ b.body → sources.labels.Perm (r.cfg.predecessors b.label) := by
  obtain ⟨r, hr⟩ := exists_runPasses_printing
  have hboundary : ∀ {d : Cfg}, (d = r.cfg ∨ ∃ next : Pass, d = (next.apply r.cfg).1.cfg) → _ :=
    strict_runPasses phiFree_printing cfg_printing (fun _ hl => hl) hr
  exact ⟨phiFree_printing, cfg_printing, r, hr, fun next => (hboundary (.inr ⟨next, rfl⟩)).1, hboundary (.inl rfl)⟩

/-- A procedure without phis is refined by the code of its graph after SSA construction and passes. -/
theorem refines_runPasses {env : Surroundings} (hphi : ∀ i ∈ p.body, i.isPhi = false)
    (hparams : ∀ t ∈ p.params, t.isVersioned = false)
    (hkeeps : .eliminateSubexprs ∈ passes → env.Keeps p.body) (hc : p.cfg = .ok c)
    (hvisit : ∀ l ∈ c.labels, l ∈ visit)
    (hr : runPasses passes (c.ssaVisiting visit p.params) = .ok r) : p.Refines env (p.withCode r.cfg) := by
  have hclosed := closed_cfg hc
  have hfree := phiFree_cfg hc hphi
  have hsub : c.bodies ⊆ p.body := by
    intro i hi
    obtain ⟨b, hb, hi⟩ := Cfg.mem_bodies.1 hi
    exact ((shape_cfg hc b hb).2 i hi).1
  obtain ⟨R, hssa⟩ := Ssa.exists_renaming hclosed.toValid p.params hvisit
  rw [hssa] at hr
  have hstart : c.Improves env p.params R.cfg := R.improves hclosed hfree
  have hpasses := improves_runPasses hstart.ssaForm hparams
    (fun he => hstart.keeps ((hkeeps he).mono hsub)) hr
  have hall := hstart.trans hpasses
  exact (refines_cfg hc hphi).trans (hall.refines.withCode hclosed hall.ssaForm.closed)

theorem exists_optimize (hc : p.cfg = .ok c) (hr : runPasses passes (c.ssa p.params) = .ok r) :
    ∃ o, p.optimize passes = .ok o ∧ o.procedure = p.withCode r.cfg := by
  simp only [optimize, bind, Except.bind, pure, Except.pure, Except.mapError, hc, hr]
  exact ⟨_, rfl, rfl⟩

theorem exists_optimize_eliminate {c' : Cfg} (hphi : ∀ i ∈ p.body, i.isPhi = false) (hc : p.cfg = .ok c)
    (he : (CommonSubexpr.eliminate (c.ssa p.params)).cfg = c') :
    ∃ o, p.optimize [.eliminateSubexprs] = .ok o ∧ o.procedure = p.withCode c' := by
  have hform : (c.ssa p.params).PassForm p.params := passForm_ssaVisiting hphi hc fun _ hl => hl
  obtain ⟨r, hr⟩ : ∃ r, runPasses [.eliminateSubexprs] (c.ssa p.params) = .ok r :=
    exists_runPasses hform (by decide)
  obtain ⟨r', hr', heq⟩ := runPasses_cons hr
  cases hr'
  exact he ▸ heq ▸ exists_optimize hc hr

/-- An optimized procedure is written from the graph that the passes leave. -/
theorem exists_of_optimize {o : Optimized} (h : p.optimize passes = .ok o) : ∃ c r,
    p.cfg = .ok c ∧ runPasses passes (c.ssa p.params) = .ok r ∧ o.cfg = r.cfg ∧ o.procedure = p.withCode o.cfg := by
  obtain ⟨c, hc, h⟩ := bind_eq_ok.1 h
  obtain ⟨r, hr, h⟩ := bind_eq_ok.1 h
  cases h
  exact ⟨c, r, mapError_eq_ok.1 hc, hr, rfl, rfl⟩

theorem refines_optimize {env : Surroundings} {o : Optimized} (hphi : ∀ i ∈ p.body, i.isPhi = false)
    (hparams : ∀ t ∈ p.params, t.isVersioned = false)
    (hkeeps : .eliminateSubexprs ∈ passes → env.Keeps p.body) (h : p.optimize passes = .ok o) :
    p.Refines env o.procedure := by
  obtain ⟨c, r, hc, hr, hcfg, hprocedure⟩ := exists_of_optimize h
  rw [hprocedure, hcfg]
  exact refines_runPasses hphi hparams hkeeps hc (fun _ hl => hl) hr

end Procedure

/-! ## Programs -/

/-- What a declaration becomes refines it, if every procedure does. -/
theorem Declaration.refines_optimize {env : Surroundings} {passes : List Pass} {d : Declaration}
    {o : OptimizedDeclaration}
    (hproc : ∀ p, d = .proc p → ∀ o, p.optimize passes = .ok o → p.Refines env o.procedure)
    (h : d.optimize passes = .ok o) : d.Refines env o.declaration := by
  cases d with
  | var v =>
    cases h
    exact .var v
  | proc p =>
    obtain ⟨o', ho', h⟩ := bind_eq_ok.1 h
    cases h
    exact .proc (hproc p rfl o' ho')

theorem Config.eliminateSubexprs_mem_passes {config : Config} :
    .eliminateSubexprs ∈ config.passes ↔ config.eliminateSubexprs = true := by
  obtain ⟨_ | _, _ | _, _ | _, _ | _, _⟩ := config <;> simp [passes]

namespace Program

variable {P : Program} {config : Config} {o : OptimizedProgram}

theorem mem_procedures {p : Procedure} : p ∈ P.procedures ↔ .proc p ∈ P := by
  rw [procedures, List.mem_filterMap]
  constructor
  · rintro ⟨d, hd, hp⟩
    cases d <;> cases hp
    exact hd
  · exact fun hp => ⟨_, hp, rfl⟩

/-- Declarations that are optimized one by one refine the old ones. -/
theorem refines_mapM {env : Surroundings} {passes : List Pass} {ds : List OptimizedDeclaration}
    (hd : ∀ d ∈ P, ∀ d', Declaration.optimize passes d = .ok d' → d.Refines env d'.declaration)
    (h : List.mapM (Declaration.optimize passes) P = .ok ds) : P.Refines env (ds.map (·.declaration)) := by
  induction P generalizing ds with
  | nil =>
    cases h
    exact .nil
  | cons d P ih =>
    rw [List.mapM_cons] at h
    obtain ⟨d', hd', h⟩ := bind_eq_ok.1 h
    obtain ⟨ds', hds', h⟩ := bind_eq_ok.1 h
    cases h
    exact .cons (hd d List.mem_cons_self d' hd') (ih (fun d hmem => hd d (.tail _ hmem)) hds')

/-- An optimized program refines the old one. -/
theorem refines_optimize {env : Surroundings} (hphi : ∀ p ∈ P.procedures, ∀ i ∈ p.body, i.isPhi = false)
    (hparams : ∀ p ∈ P.procedures, ∀ t ∈ p.params, t.isVersioned = false)
    (hkeeps : config.eliminateSubexprs = true → ∀ p ∈ P.procedures, env.Keeps p.body)
    (h : P.optimize config = .ok o) : P.Refines env o.program := by
  obtain ⟨ds, hds, h⟩ := bind_eq_ok.1 h
  cases h
  refine refines_mapM (fun d hd d' hd' => Declaration.refines_optimize (fun p hp o ho => ?_) hd') hds
  have hmem : p ∈ P.procedures := mem_procedures.2 (hp ▸ hd)
  exact Procedure.refines_optimize (hphi p hmem) (hparams p hmem)
    (fun he => hkeeps (Config.eliminateSubexprs_mem_passes.1 he) p hmem) ho

/-- Optimization keeps the runs of programs without phis whose parameters have no versions: the printed lines,
the result and the globals. Expressions may be reused where their results are put into locals, or into variables
of the program in procedures that call only procedures that leave these alone. -/
theorem keptBy_optimize {quiet : String → Prop} (hquiet : P.LeavesGlobals quiet)
    (hphi : ∀ p ∈ P.procedures, ∀ i ∈ p.body, i.isPhi = false)
    (hparams : ∀ p ∈ P.procedures, ∀ t ∈ p.params, t.isVersioned = false)
    (hkeeps : config.eliminateSubexprs = true → ∀ p ∈ P.procedures, (P.surroundings quiet).Keeps p.body)
    (h : P.optimize config = .ok o) : P.KeptBy o.program :=
  (refines_optimize hphi hparams hkeeps h).keptBy hquiet.around

/-- A variable, and a procedure that puts sums into it and computes them again. The one call between prints. -/
def printingProgram : Program := [.var ⟨"@next", 0⟩, .proc Procedure.printing]

theorem keptBy_optimize_printing : ∃ o, printingProgram.optimize .all = .ok o ∧
    (∃ out, printingProgram.run "@main" [3] 100 = .ok out ∧ out.output = ["4", "3", "2"]) ∧
      printingProgram.KeptBy o.program := by
  obtain ⟨r, hr⟩ := Procedure.exists_runPasses_printing
  obtain ⟨o, ho, -⟩ := Procedure.exists_optimize Procedure.cfg_printing hr
  have hprogram : ∃ o, printingProgram.optimize .all = .ok o := by
    simp only [optimize, printingProgram, List.mapM_cons, List.mapM_nil, Declaration.optimize, ho, bind,
      Except.bind, pure, Except.pure]
    exact ⟨_, rfl⟩
  obtain ⟨o, ho⟩ := hprogram
  refine ⟨o, ho, ⟨_, rfl, by decide +kernel⟩, ?_⟩
  have hprocedures : ∀ {motive : Procedure → Prop}, motive Procedure.printing →
      ∀ p ∈ printingProgram.procedures, motive p := by
    intro motive h p hp
    rw [List.mem_singleton.1 hp]
    exact h
  have hquiet : printingProgram.LeavesGlobals (· = printInt) := by
    rintro target p rfl hp
    have hnone : printingProgram.procedure? printInt = none := by decide
    rw [hnone] at hp
    cases hp
  have hkeeps : (printingProgram.surroundings (· = printInt)).Keeps Procedure.printing.body := by
    have hdest : ∀ i ∈ Procedure.printing.body,
        i.dest?.all (fun t => !t.isGlobal || printingProgram.globals.contains t) = true := by decide
    have hcalled : ∀ i ∈ Procedure.printing.body, i.called?.all (· = printInt) = true := by decide
    intro i hi e t _ ht hg
    have hdeclared : printingProgram.globals.contains t = true := by simpa [ht, hg] using hdest i hi
    refine ⟨hdeclared, fun j hj target htarget => ?_⟩
    have hprint : target = printInt := by simpa [htarget] using hcalled j hj
    exact hprint
  exact keptBy_optimize hquiet (hprocedures Procedure.phiFree_printing) (hprocedures (by decide))
    (fun _ => hprocedures hkeeps) ho

/-- A procedure that writes the variable of `overwritten`. -/
def overwriting : Procedure := ⟨"@set", [], [.const ⟨"@g"⟩ 7, .ret none]⟩

/-- A sum in a variable, and the same sum behind a call. -/
def recomputing : Procedure := ⟨"@main", [⟨"%a"⟩], [
  .binary ⟨"@g"⟩ .add (.temp ⟨"%a"⟩) (.imm 1),
  .call none "@set" 0,
  .binary ⟨"%c"⟩ .add (.temp ⟨"%a"⟩) (.imm 1),
  .ret (some (.temp ⟨"%c"⟩))]⟩

/-- A program that computes a sum again behind a call that writes over the first result. -/
def overwritten : Program := [.var ⟨"@g", 0⟩, .proc overwriting, .proc recomputing]

/-- The graph of `overwriting`. -/
def overwritingGraph : Cfg := ⟨"@set", ⟨"%.L0"⟩, [⟨⟨"%.L0"⟩, [.const ⟨"@g"⟩ 7], [.ret none]⟩]⟩

/-- The graph of `recomputing`. -/
def recomputingGraph : Cfg := ⟨"@main", ⟨"%.L0"⟩, [⟨⟨"%.L0"⟩, [
  .binary ⟨"@g"⟩ .add (.temp ⟨"%a"⟩) (.imm 1),
  .call none "@set" 0,
  .binary ⟨"%c"⟩ .add (.temp ⟨"%a"⟩) (.imm 1)], [.ret (some (.temp ⟨"%c"⟩))]⟩]⟩

/-- The graph of `recomputing` after the pass: it reads the variable behind the call. -/
def reusingGraph : Cfg := ⟨"@main", ⟨"%.L0"⟩, [⟨⟨"%.L0"⟩, [
  .binary ⟨"@g"⟩ .add (.temp ⟨"%a"⟩) (.imm 1),
  .call none "@set" 0,
  .copy ⟨"%c.0"⟩ (.temp ⟨"@g"⟩)], [.ret (some (.temp ⟨"%c.0"⟩))]⟩]⟩

theorem eliminateGlobal_overwriting : (CommonSubexpr.eliminateGlobal overwritingGraph).cfg = overwritingGraph := by
  have hcfg : overwriting.cfg = .ok overwritingGraph := rfl
  exact CommonSubexpr.eliminateGlobal_eq_self (Procedure.closed_cfg hcfg).toValid (by decide +kernel)

theorem eliminateGlobal_reusing : (CommonSubexpr.eliminateGlobal reusingGraph).cfg = reusingGraph := by
  have hcfg : (recomputing.withCode reusingGraph).cfg = .ok reusingGraph := rfl
  exact CommonSubexpr.eliminateGlobal_eq_self (Procedure.closed_cfg hcfg).toValid (by decide +kernel)

/-- Results in variables have to be left out where a call may write these: the result changes from 4 to 7. -/
theorem not_keptBy_optimize_overwritten : (∀ p ∈ overwritten.procedures, ∀ i ∈ p.body, i.isPhi = false) ∧
    (∀ p ∈ overwritten.procedures, ∀ t ∈ p.params, t.isVersioned = false) ∧
    ∃ o, overwritten.optimize ⟨false, false, true, false, 1⟩ = .ok o ∧ ¬ overwritten.KeptBy o.program := by
  have hphi : ∀ p ∈ overwritten.procedures, ∀ i ∈ p.body, i.isPhi = false := by decide
  obtain ⟨o₁, ho₁, hset⟩ : ∃ o, overwriting.optimize [.eliminateSubexprs] = .ok o ∧
      o.procedure = overwriting.withCode overwritingGraph :=
    Procedure.exists_optimize_eliminate (by decide) (c := overwritingGraph) rfl eliminateGlobal_overwriting
  obtain ⟨o₂, ho₂, hmain⟩ : ∃ o, recomputing.optimize [.eliminateSubexprs] = .ok o ∧
      o.procedure = recomputing.withCode reusingGraph :=
    Procedure.exists_optimize_eliminate (by decide) (c := recomputingGraph) rfl eliminateGlobal_reusing
  have hoptimize : ∃ o, overwritten.optimize ⟨false, false, true, false, 1⟩ = .ok o ∧
      o.program = [.var ⟨"@g", 0⟩, .proc o₁.procedure, .proc o₂.procedure] := by
    have hpasses : Config.passes ⟨false, false, true, false, 1⟩ = [.eliminateSubexprs] := rfl
    simp only [optimize, overwritten, List.mapM_cons, List.mapM_nil, Declaration.optimize, hpasses, ho₁, ho₂,
      bind, Except.bind, pure, Except.pure]
    exact ⟨_, rfl, rfl⟩
  obtain ⟨o, ho, hprogram⟩ := hoptimize
  refine ⟨hphi, by decide, o, ho, fun h => ?_⟩
  rw [hprogram, hset, hmain] at h
  obtain ⟨out, hout, hr⟩ : ∃ out, overwritten.run "@main" [3] 100 = .ok out ∧ out.result? = some 4 :=
    ⟨_, rfl, rfl⟩
  obtain ⟨out', hout', hr'⟩ : ∃ out, Program.run [.var ⟨"@g", 0⟩, .proc (overwriting.withCode overwritingGraph),
      .proc (recomputing.withCode reusingGraph)] "@main" [3] 100 = .ok out ∧ out.result? = some 7 :=
    ⟨_, rfl, rfl⟩
  have heq := h.result?_eq hout hout'
  rw [hr, hr'] at heq
  exact absurd heq (by decide)

end Program

end ThreeAddress

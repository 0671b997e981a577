import ThreeAddress.Proofs.CodeSize.Passes
import ThreeAddress.Proofs.Format.Programs
import ThreeAddress.Proofs.RoundTrip
import ThreeAddress.Proofs.Ssa.Form
/-!
# Optimizing again

What has been optimized is brought into SSA form once more, which puts a phi for every local in front of every block,
and of these the passes have to get rid. Nothing else comes to the code. A phi with one source is always deleted, so
that what stays stands where control comes together (`Procedure.size_optimize_withCode`, `Program.bounds_reoptimize`).

There a phi may indeed stay that the first optimization did not leave: the versioned names that it made are locals of
the second one, and where such a name is not written on all paths, neither the deletion of phis nor folding takes away
the phi that merges its new version with the name itself, which nothing writes any more
(`Program.not_size_le_reoptimize_joining`).
-/

namespace ThreeAddress

variable {P : Instr → Bool} {params : List Temp} {c : Cfg}

namespace Cfg

/-- The number of blocks where control comes together from two or more blocks. -/
def joins (c : Cfg) : Nat := c.blocks.countP fun b => 2 ≤ (c.predecessors b.label).length

end Cfg

/-! ## SSA form -/

namespace Ssa

theorem Renames.countP_eq {vs vs' : Versions} {is is' : List Instr} (h : Renames vs is is' vs')
    (hP : ∀ {ws ws' i i'}, Step ws i i' ws' → P i' = P i) : is'.countP P = is.countP P := by
  induction h with
  | nil => rfl
  | cons hi _ ih => rw [List.countP_cons, List.countP_cons, ih, hP hi]

/-- A phi keeps the labels of its sources. -/
theorem Step.isChoice_eq {vs vs' : Versions} {i i' : Instr} (h : Step vs i i' vs') : i'.isChoice = i.isChoice := by
  have huses : (renameUses vs i).isChoice = i.isChoice := by
    unfold renameUses
    split
    · rfl
    · exact i.isChoice_mapOperands _
  cases h with
  | keep => exact huses
  | write => rw [Instr.isChoice_withDest, huses]

theorem Step.isWork_eq {vs vs' : Versions} {i i' : Instr} (h : Step vs i i' vs') : i'.isWork = i.isWork :=
  Instr.coarse_isWork h.isPhi_eq h.label?_eq

theorem isChoice_resolveSources (exits : Label → Option Versions) (i : Instr) :
    (resolveSources exits i).isChoice = i.isChoice := by
  cases i with
  | phi dest sources => simp [resolveSources, Instr.isChoice, Instr.isPhi, Instr.sources?]
  | _ => rfl

theorem isWork_resolveSources (exits : Label → Option Versions) (i : Instr) :
    (resolveSources exits i).isWork = i.isWork :=
  Instr.coarse_isWork (isPhi_resolveSources exits i) (label?_resolveSources exits i)

/-- The phis that are put in front of a block with one predecessor have one source. -/
theorem countP_isChoice_headPhis (params : List Temp) (c : Cfg) (b : Block) :
    (headPhis params c b).countP Instr.isChoice ≤
      if 2 ≤ (c.predecessors b.label).length then (locals params c).length else 0 := by
  unfold headPhis
  rcases c.predecessors b.label with - | ⟨l, - | ⟨k, preds⟩⟩
  · exact le_rfl
  · have hsingle : ((locals params c).map (phiFor [l])).countP Instr.isChoice = 0 := by
      refine List.countP_eq_zero.2 fun i hi => ?_
      obtain ⟨t, -, rfl⟩ := List.mem_map.1 hi
      exact Bool.false_ne_true
    exact hsingle.le
  · rw [if_neg (List.cons_ne_nil _ _), if_pos (by simp)]
    exact List.countP_le_length.trans (List.length_map _).le

namespace Renaming

variable (r : Renaming params c)

theorem countP_block {b : Block} (hb : b ∈ c.blocks) (hstep : ∀ {ws ws' i i'}, Step ws i i' ws' → P i' = P i)
    (hresolve : ∀ exits i, P (resolveSources exits i) = P i) :
    (r.block b).body.countP P = (headPhis params c b).countP P + b.body.countP P := by
  rw [← List.countP_append, ← (r.renames b hb).countP_eq hstep, block, List.countP_map]
  exact List.countP_congr fun i _ => by rw [Function.comp_apply, hresolve]

/-- Renaming makes no work. -/
theorem shrinks_cfg : c.Shrinks Instr.isWork r.cfg := by
  refine .mapBlocks (fun _ => rfl) (fun b _ => .map (fun _ => rfl) b.jumps) fun b hb => ?_
  have hhead : (headPhis params c b).countP Instr.isWork = 0 :=
    List.countP_eq_zero.2 fun i hi => by simp [Instr.isWork_of_isPhi (isPhi_headPhis i hi)]
  rw [r.countP_block hb Step.isWork_eq isWork_resolveSources, hhead, Nat.zero_add]

/-- Phis with more than one source are put in only where control comes together. -/
theorem count_isChoice_le :
    r.cfg.count Instr.isChoice ≤ c.count Instr.isPhi + c.joins * (locals params c).length := by
  have hblock : ∀ b ∈ c.blocks, (r.block b).body.countP Instr.isChoice ≤ b.body.countP Instr.isPhi +
      if 2 ≤ (c.predecessors b.label).length then (locals params c).length else 0 := by
    intro b hb
    rw [r.countP_block hb Step.isChoice_eq isChoice_resolveSources, Nat.add_comm]
    exact Nat.add_le_add (List.countP_mono_left fun i _ => Instr.isPhi_of_isChoice)
      (countP_isChoice_headPhis params c b)
  have hjoins : (c.blocks.map fun b =>
      if 2 ≤ (c.predecessors b.label).length then (locals params c).length else 0).sum =
        c.joins * (locals params c).length :=
    sum_map_ite (fun b : Block => 2 ≤ (c.predecessors b.label).length) _ c.blocks
  rw [Cfg.count_eq_sum, cfg, Cfg.mapBlocks, List.map_map, Cfg.count_eq_sum, ← hjoins, ← List.sum_map_add]
  exact List.sum_le_sum hblock

end Renaming

end Ssa

/-! ## Procedures -/

namespace Procedure

variable {p : Procedure}

/-- An optimized procedure is written from a graph that it is cut into again. -/
theorem closed_optimize {passes : List Pass} {o : Optimized} (h : p.optimize passes = .ok o) :
    o.cfg.Closed ∧ o.cfg.proc = p.name := by
  obtain ⟨c, r, hc, hr, hcfg, -⟩ := exists_of_optimize h
  have hclosed := (closed_cfg hc).ssaVisiting (fun _ hl => hl) p.params
  obtain ⟨hclosed', hproc⟩ := closed_runPasses hclosed hr
  exact hcfg ▸ ⟨hclosed', hproc.trans (proc_cfg hc : c.proc = p.name)⟩

/-- All passes over the code of a graph: no work is made, and phis only where control comes together. -/
theorem size_optimize_withCode {o : Optimized} (h : c.Closed) (hname : p.name = c.proc)
    (ho : (p.withCode c).optimize Config.all.passes = .ok o) :
    o.procedure.work ≤ (p.withCode c).work ∧
      o.procedure.size ≤ (p.withCode c).size + c.joins * (Ssa.locals p.params c).length := by
  obtain ⟨c', r, hc', hr, hcfg, hprocedure⟩ := exists_of_optimize ho
  cases hc'.symm.trans (cfg_withCode_of_closed h hname)
  obtain ⟨hclosed, -⟩ := closed_optimize ho
  obtain ⟨R, hssa⟩ := Ssa.exists_renaming h.toValid p.params fun _ hl => hl
  have hR : R.cfg.Closed := R.closed_cfg h
  have hr : runPasses Config.all.passes R.cfg = .ok r := hssa ▸ hr
  have hwork : c.Shrinks Instr.isWork o.cfg :=
    hcfg ▸ R.shrinks_cfg.trans (shrinks_runPasses Instr.coarse_isWork hR hr)
  have hphis : o.cfg.count Instr.isPhi ≤ c.count Instr.isPhi + c.joins * (Ssa.locals p.params c).length := by
    obtain ⟨r', hr', heq⟩ := runPasses_cons hr
    let minimized := ((Pass.minimizePhis PhiMinimization.defaultRounds).apply R.cfg).1.cfg
    have hminimized : minimized.Closed := Pass.closed_apply _ hR
    have hirredundant : PhiMinimization.Irredundant minimized := PhiMinimization.irredundant_minimize 63 R.cfg
    calc o.cfg.count Instr.isPhi
      _ ≤ minimized.count Instr.isPhi :=
          hcfg ▸ heq ▸ (shrinks_runPasses Instr.coarse_isPhi hminimized hr').count_le
      _ = minimized.count Instr.isChoice := hirredundant.count_isPhi
      _ ≤ R.cfg.count Instr.isChoice :=
          (PhiMinimization.shrinks_minimize Instr.isChoice_mapOperands R.cfg _).count_le
      _ ≤ c.count Instr.isPhi + c.joins * (Ssa.locals p.params c).length := R.count_isChoice_le
  have hwork' : o.procedure.work ≤ (p.withCode c).work := by
    rw [hprocedure, work_withCode _ hclosed, work_withCode _ h]
    exact Nat.add_le_add hwork.count_le hwork.exits_le
  refine ⟨hwork', ?_⟩
  rw [size_eq, size_eq, countP_isPhi_withCode _ h, hprocedure, countP_isPhi_withCode _ hclosed]
  rw [hprocedure] at hwork'
  omega

end Procedure

/-- What bounds the code that all passes make of the code of an optimized procedure. -/
structure Optimized.Bounds (q q' : Optimized) : Prop where
  work_le : q'.procedure.work ≤ q.procedure.work
  size_le : q'.procedure.size ≤ q.procedure.size + q.cfg.joins * (Ssa.locals q.procedure.params q.cfg).length

theorem Procedure.bounds_optimize {p : Procedure} {passes : List Pass} {o o' : Optimized}
    (h : p.optimize passes = .ok o) (h' : o.procedure.optimize Config.all.passes = .ok o') : o.Bounds o' := by
  obtain ⟨hclosed, hname⟩ := closed_optimize h
  obtain ⟨-, -, -, -, -, hprocedure⟩ := exists_of_optimize h
  rw [hprocedure] at h'
  obtain ⟨hwork, hsize⟩ := size_optimize_withCode hclosed hname.symm h'
  constructor <;> rwa [hprocedure]

/-! ## Programs -/

theorem Declaration.bounds_optimize {passes : List Pass} {d : Declaration} {e e' : OptimizedDeclaration}
    (h : d.optimize passes = .ok e) (h' : e.declaration.optimize Config.all.passes = .ok e') :
    Option.Rel Optimized.Bounds e.procedure? e'.procedure? := by
  cases d with
  | var v =>
    cases h
    cases h'
    exact .none
  | proc p =>
    obtain ⟨o, ho, h⟩ := bind_eq_ok.1 h
    cases h
    obtain ⟨o', ho', h'⟩ := bind_eq_ok.1 h'
    cases h'
    exact .some (p.bounds_optimize ho ho')

namespace Program

variable {P : Program} {config : Config} {o o' : OptimizedProgram}

/-- A program that has been optimized and is optimized again, with all passes: no procedure has more work. Phis may
come to it, but no more than one for each local at each block where control comes together. So where no block has two
predecessors, no code is added. -/
theorem bounds_reoptimize (h : P.optimize config = .ok o) (h' : o.program.optimize .all = .ok o') :
    List.Forall₂ Optimized.Bounds o.procedures o'.procedures := by
  obtain ⟨ds, hds, h⟩ := bind_eq_ok.1 h
  cases h
  obtain ⟨ds', hds', h'⟩ := bind_eq_ok.1 h'
  cases h'
  have hfirst : ∀ e ∈ ds, ∃ d ∈ P, d.optimize config.passes = .ok e := exists_of_mem_of_forall₂ (mapM_eq_ok.1 hds)
  have hsecond := List.forall₂_map_left_iff.1 (mapM_eq_ok.1 hds')
  have hall : List.Forall₂ (fun e e' => Option.Rel Optimized.Bounds e.procedure? e'.procedure?) ds ds' := by
    refine ((List.forall₂_and_left _ _).2 ⟨hfirst, hsecond⟩).imp fun e e' ⟨he, he'⟩ => ?_
    obtain ⟨d, -, hd⟩ := he
    exact d.bounds_optimize hd he'
  exact List.rel_filterMap (fun _ _ h => h) hall

end Program

/-! ## Where code is added -/

/-- A pass in front of others. -/
theorem exists_runPasses_cons_cfg {p : Pass} {passes : List Pass} {c' d : Cfg} (h : c'.Valid)
    (hfirst : (p.apply c).1.cfg = c') (hnone : (p.apply c).2 = none)
    (hpasses : ∃ r, runPasses passes c' = .ok r ∧ r.cfg = d) :
    ∃ r, runPasses (p :: passes) c = .ok r ∧ r.cfg = d := by
  subst hfirst
  obtain ⟨rest, hrest, heq⟩ := hpasses
  obtain ⟨r, hr⟩ := exists_runPasses_cons h hnone ⟨rest, hrest⟩
  obtain ⟨r', hr', hcfg⟩ := runPasses_cons hr
  cases hr'.symm.trans hrest
  exact ⟨r, hr, hcfg.trans heq⟩

/-- Passes that change nothing. -/
theorem exists_runPasses_of_fixed {passes : List Pass} (h : c.Valid)
    (hpasses : ∀ p ∈ passes, (p.apply c).1.cfg = c ∧ (p.apply c).2 = none) :
    ∃ r, runPasses passes c = .ok r ∧ r.cfg = c := by
  induction passes with
  | nil => exact ⟨_, rfl, rfl⟩
  | cons p passes ih =>
    obtain ⟨hcfg, hnone⟩ := hpasses p List.mem_cons_self
    exact exists_runPasses_cons_cfg h hcfg hnone (ih fun q hq => hpasses q (.tail _ hq))

namespace Procedure

/-- All passes, where only the deletion of phis changes something. -/
theorem exists_optimize_all {p : Procedure} {c' : Cfg} (hc : p.cfg = .ok c)
    (hminimized : (PhiMinimization.minimize PhiMinimization.defaultRounds (c.ssa p.params)).cfg = c')
    (hfolded : (Constants.foldConstants c').1.cfg = c') (hnone : (Constants.foldConstants c').2 = none)
    (hlocal : (CommonSubexpr.eliminateLocal c').cfg = c')
    (hheld : ∀ b ∈ c'.blocks, ∀ e ∈ cleanFirst [] [] b.body.zipIdx,
      ∀ k ∈ c'.dominance.strict b.label, c'.holderAt? b e.1 e.2 k = none)
    (hpropagated : (CopyPropagation.propagate c').cfg = c') :
    ∃ o, p.optimize Config.all.passes = .ok o ∧ o.procedure = p.withCode c' := by
  have hclosed : (c.ssa p.params).Closed := (closed_cfg hc).ssaVisiting (fun _ hl => hl) p.params
  have hclosed' : c'.Closed := hminimized ▸ PhiMinimization.closed_minimize hclosed _
  have heliminated : (CommonSubexpr.eliminate c').cfg = c' := by
    rw [CommonSubexpr.eliminate, hlocal]
    exact CommonSubexpr.eliminateGlobal_eq_self hclosed'.toValid hheld
  have hfixed : ∀ pass ∈ [.foldConstants, .eliminateSubexprs, .propagateCopies],
      (Pass.apply c' pass).1.cfg = c' ∧ (Pass.apply c' pass).2 = none := by
    simp only [List.forall_mem_cons]
    exact ⟨⟨hfolded, hnone⟩, ⟨heliminated, rfl⟩, ⟨hpropagated, rfl⟩, nofun⟩
  obtain ⟨r, hr, hcfg⟩ : ∃ r, runPasses Config.all.passes (c.ssa p.params) = .ok r ∧ r.cfg = c' :=
    exists_runPasses_cons_cfg hclosed'.toValid hminimized rfl (exists_runPasses_of_fixed hclosed'.toValid hfixed)
  exact hcfg ▸ exists_optimize hc hr

/-- A temporary that is written on one of two paths and not used where they join. -/
def joining : Procedure := ⟨"@main", [⟨"%a"⟩], [
  .branch .jz (.temp ⟨"%a"⟩) ⟨"L"⟩,
  .binary ⟨"%t"⟩ .add (.temp ⟨"%a"⟩) (.imm 1),
  .label ⟨"L"⟩,
  .ret none]⟩

/-- The graph of `joining` with a name for its temporary and phis in front of the last block. -/
def joined (t : Temp) (phis : List Instr) : Cfg := ⟨"@main", ⟨"%.L0"⟩, [
  ⟨⟨"%.L0"⟩, [], [.branch .jz (.temp ⟨"%a"⟩) ⟨"L"⟩, .jump ⟨"%.L1"⟩]⟩,
  ⟨⟨"%.L1"⟩, [.binary t .add (.temp ⟨"%a"⟩) (.imm 1)], [.jump ⟨"L"⟩]⟩,
  ⟨⟨"L"⟩, phis, [.ret none]⟩]⟩

/-- A first optimization of `joining` leaves a phi. -/
def joinedOnce : Cfg := joined ⟨"%t.1"⟩ [
  .phi ⟨"%t.2"⟩ (.ofList [(⟨"%.L0"⟩, .temp ⟨"%t"⟩), (⟨"%.L1"⟩, .temp ⟨"%t.1"⟩)])]

/-- A second one puts in one more, for the versioned name, and cannot delete it. -/
def joinedTwice : Cfg := joined ⟨"%t.4"⟩ [
  .phi ⟨"%t.5"⟩ (.ofList [(⟨"%.L0"⟩, .temp ⟨"%t.1"⟩), (⟨"%.L1"⟩, .temp ⟨"%t.4"⟩)]),
  .phi ⟨"%t.7"⟩ (.ofList [(⟨"%.L0"⟩, .temp ⟨"%t"⟩), (⟨"%.L1"⟩, .temp ⟨"%t.4"⟩)])]

theorem exists_optimize_joining : ∃ o, joining.optimize Config.all.passes = .ok o ∧
    o.procedure = joining.withCode joinedOnce :=
  exists_optimize_all (c := joined ⟨"%t"⟩ []) rfl (by decide +kernel) (by decide +kernel) (by decide +kernel)
    (by decide +kernel) (by decide +kernel) (by decide +kernel)

theorem exists_optimize_joinedOnce : ∃ o, (joining.withCode joinedOnce).optimize Config.all.passes = .ok o ∧
    o.procedure = joining.withCode joinedTwice :=
  exists_optimize_all (c := joinedOnce) rfl (by decide +kernel) (by decide +kernel) (by decide +kernel)
    (by decide +kernel) (by decide +kernel) (by decide +kernel)

end Procedure

namespace Program

/-- A program of one procedure. -/
theorem optimize_proc {p : Procedure} {config : Config} {o : Optimized} (h : p.optimize config.passes = .ok o) :
    Program.optimize [.proc p] config = .ok ⟨[.proc o.procedure], [o]⟩ := by
  simp only [optimize, List.mapM_cons, List.mapM_nil, Declaration.optimize, h, bind, Except.bind, pure, Except.pure]
  rfl

theorem exists_optimize_joining : ∃ q q',
    Program.optimize [.proc Procedure.joining] .all = .ok ⟨[.proc q.procedure], [q]⟩ ∧
    Program.optimize [.proc q.procedure] .all = .ok ⟨[.proc q'.procedure], [q']⟩ ∧
    q.procedure = Procedure.joining.withCode Procedure.joinedOnce ∧
    q'.procedure = Procedure.joining.withCode Procedure.joinedTwice := by
  obtain ⟨q, hq, hcode⟩ := Procedure.exists_optimize_joining
  obtain ⟨q', hq', hcode'⟩ := Procedure.exists_optimize_joinedOnce
  exact ⟨q, q', optimize_proc hq, optimize_proc (hcode ▸ hq'), hcode, hcode'⟩

/-- A phi is added: there are four instructions other than labels, and then five. -/
theorem not_size_le_reoptimize_joining :
    Program.parse (toJson [.proc Procedure.joining]).compact = .ok [.proc Procedure.joining] ∧
      ∃ o o', Program.optimize [.proc Procedure.joining] .all = .ok o ∧ o.program.optimize .all = .ok o' ∧
        ¬ List.Forall₂ (fun q q' : Optimized => q'.procedure.size ≤ q.procedure.size) o.procedures o'.procedures := by
  have hnamed : ∀ d ∈ [Declaration.proc Procedure.joining], d.Named := List.forall_mem_singleton.2 (by rfl)
  obtain ⟨q, q', hq, hq', hcode, hcode'⟩ := exists_optimize_joining
  refine ⟨parse_toJson hnamed, _, _, hq, hq', fun h => ?_⟩
  obtain ⟨hle, -⟩ := List.forall₂_cons.1 h
  rw [hcode, hcode'] at hle
  exact absurd hle (by decide)

/-- The work stays, and there is one phi more. There might have been three more, for as many locals at one block. -/
theorem bounds_reoptimize_joining :
    ∃ o o', Program.optimize [.proc Procedure.joining] .all = .ok o ∧ o.program.optimize .all = .ok o' ∧
      List.Forall₂ Optimized.Bounds o.procedures o'.procedures := by
  obtain ⟨q, q', hq, hq', -, -⟩ := exists_optimize_joining
  exact ⟨_, _, hq, hq', bounds_reoptimize hq hq'⟩

end Program

end ThreeAddress

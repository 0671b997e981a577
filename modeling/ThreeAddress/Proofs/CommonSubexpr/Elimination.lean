import ThreeAddress.Proofs.CommonSubexpr.Global
import ThreeAddress.Proofs.CommonSubexpr.Local
import ThreeAddress.Proofs.Dominance
/-!
# Eliminating common subexpressions

The pass keeps SSA form (`ssaForm_eliminate`), and it keeps what the graph does in surroundings where the
results of expressions stay in their places (`improves_eliminate`).
-/

namespace ThreeAddress.CommonSubexpr

variable {env : Surroundings} {params : List Temp} {c : Cfg}

theorem eliminateAt_cfg (d : Dominance) (r : Transformed) (hr : r.cfg.Valid) (l : Label) :
    (eliminateAt d r l).cfg = r.cfg.withBodies (visit d r.cfg l) := by
  have hblocks : ∀ {g : Block → Block}, (∀ b ∈ r.cfg.blocks, g b = ⟨b.label, visit d r.cfg l b, b.jumps⟩) →
      r.cfg.mapBlocks g = r.cfg.withBodies (visit d r.cfg l) := by
    intro g hg
    simp only [Cfg.withBodies, Cfg.mapBlocks]
    rw [List.map_congr_left hg]
  unfold eliminateAt
  split
  · -- Without a block of that label nothing is visited.
    rename_i hnone
    have hid : r.cfg.mapBlocks id = r.cfg := by simp [Cfg.mapBlocks]
    rw [← hblocks (g := id) fun b hb => ?_, hid]
    have hne : b.label ≠ l := by
      rintro rfl
      rw [hr.block?_of_mem hb] at hnone
      cases hnone
    rw [visit_of_ne hne]
    rfl
  · rename_i b hb
    refine hblocks fun b' hb' => ?_
    split
    · rename_i hl
      obtain rfl : b' = b :=
        hr.eq_of_label hb' (Cfg.mem_of_block? hb) (hl.trans (Cfg.label_of_block? hb).symm)
      rw [visit, copiesAt, if_pos hl]
      rfl
    · rw [visit_of_ne ‹_›]

/-- What holds at the beginning, and still holds when one more block is visited, holds in the end. The dominators
are those of the graph at the beginning, whose paths stay the same. -/
theorem eliminateGlobal_visits {motive : Transformed → Prop} (h : c.Valid) (hstart : motive ⟨c, [], false⟩)
    (hvisit : ∀ {r : Transformed} {l : Label}, r.cfg.Valid → motive r →
      (∀ k ∈ c.dominance.closestFirst l, k ≠ l ∧ ∀ ls, r.cfg.Path ls l → k ∈ ls) →
      motive (eliminateAt c.dominance r l)) : motive (eliminateGlobal c) := by
  have key : (eliminateGlobal c).cfg.Valid ∧ (∀ ls l, (eliminateGlobal c).cfg.Path ls l → c.Path ls l) ∧
      motive (eliminateGlobal c) := by
    refine List.foldlRecOn (motive := fun r : Transformed => r.cfg.Valid ∧
      (∀ ls l, r.cfg.Path ls l → c.Path ls l) ∧ motive r) c.labels _ ⟨h, fun _ _ hp => hp, hstart⟩ ?_
    rintro r ⟨hr, hpath, hm⟩ l -
    have hd : ∀ k ∈ c.dominance.closestFirst l, k ≠ l ∧ ∀ ls, r.cfg.Path ls l → k ∈ ls := fun k hk =>
      have hk := Cfg.mem_closestFirst.1 hk
      ⟨h.ne_of_mem_strict hk, fun ls hls => h.mem_of_mem_strict hk (hpath ls l hls)⟩
    have hcfg := eliminateAt_cfg c.dominance r hr l
    exact ⟨hcfg ▸ (reuses_visit hr fun k hk => (hd k hk).2).valid hr,
      fun ls k hp => hpath ls k (Cfg.path_withBodies.1 (hcfg ▸ hp)), hvisit hr hm hd⟩
  exact key.2.2

/-- What holds of a graph, and still holds when one more block is visited, holds in the end. -/
theorem eliminateGlobal_induction {motive : Cfg → Prop} (h : c.Valid) (hstart : motive c)
    (hvisit : ∀ {c' : Cfg} {l : Label}, c'.Valid → motive c' →
      (∀ k ∈ c.dominance.closestFirst l, k ≠ l ∧ ∀ ls, c'.Path ls l → k ∈ ls) →
      motive (c'.withBodies (visit c.dominance c' l))) : motive (eliminateGlobal c).cfg :=
  eliminateGlobal_visits (motive := fun r => motive r.cfg) h hstart fun {r l} hr hm hd =>
    eliminateAt_cfg c.dominance r hr l ▸ hvisit hr hm hd

/-- Where no strict dominator holds what a block computes, nothing is reused along dominators. -/
theorem eliminateGlobal_eq_self (h : c.Valid) (hheld : ∀ b ∈ c.blocks, ∀ e ∈ cleanFirst [] [] b.body.zipIdx,
    ∀ k ∈ c.dominance.strict b.label, c.holderAt? b e.1 e.2 k = none) : (eliminateGlobal c).cfg = c := by
  have hcopies : ∀ b ∈ c.blocks, c.reusable c.dominance b = [] := by
    refine fun b hb => List.filterMap_eq_nil_iff.2 fun e he => ?_
    rw [List.findSome?_eq_none_iff.2 fun k hk => hheld b hb e he k (Cfg.mem_closestFirst.1 hk), Option.map_none]
  have hvisit : ∀ l, ∀ b ∈ c.blocks, visit c.dominance c l b = b.body := by
    intro l b hb
    by_cases hl : b.label = l
    · rw [visit, copiesAt, if_pos hl, hcopies b hb]
      exact List.zipIdx_map_fst 0 b.body
    · exact visit_of_ne hl
  refine eliminateGlobal_induction (motive := (· = c)) h rfl ?_
  rintro c' l - rfl -
  rw [Cfg.withBodies, Cfg.mapBlocks, List.map_congr_left fun b hb => by rw [hvisit l b hb]]
  exact congrArg (fun bs => { c' with blocks := bs }) (List.map_id _)

theorem ssaForm_global (h : c.SsaForm params) : (eliminateGlobal c).cfg.SsaForm params :=
  eliminateGlobal_induction h.toValid h fun hc' hform hd =>
    (reuses_visit hc' fun k hk => (hd k hk).2).ssaForm hform

theorem keyed_global (h : c.Valid) (hkeyed : c.Keyed) : (eliminateGlobal c).cfg.Keyed :=
  eliminateGlobal_induction (motive := Cfg.Keyed) h hkeyed fun hc' hk' hd =>
    (reuses_visit hc' fun k hk => (hd k hk).2).keyed hk'

theorem closed_global (h : c.Closed) : (eliminateGlobal c).cfg.Closed :=
  eliminateGlobal_induction h.toValid h fun hc' hform hd =>
    (reuses_visit hc' fun k hk => (hd k hk).2).closed hform

/-- Where results stay in their places, reuse along dominators changes nothing that the graph does. -/
theorem runs_global_iff (h : c.Valid) (hk : env.Keeps c.bodies) {calls : Calls} {σ : Store} {f : Final}
    (ho : env.Offers calls σ.globals) :
    (eliminateGlobal c).cfg.Runs calls none (eliminateGlobal c).cfg.entry σ f ↔
      c.Runs calls none c.entry σ f := by
  have key : env.Keeps (eliminateGlobal c).cfg.bodies ∧
      ((eliminateGlobal c).cfg.Runs calls none (eliminateGlobal c).cfg.entry σ f ↔
        c.Runs calls none c.entry σ f) := by
    refine eliminateGlobal_induction (motive := fun c' => env.Keeps c'.bodies ∧
      (c'.Runs calls none c'.entry σ f ↔ c.Runs calls none c.entry σ f)) h ⟨hk, .rfl⟩ ?_
    rintro c' l hc' ⟨hk', hruns⟩ hd
    exact ⟨(reuses_visit hc' fun k hk => (hd k hk).2).keeps hk',
      (runs_visit_iff hc' hd (hk'.lasting ho)).trans hruns⟩
  exact key.2

theorem improves_global (h : c.SsaForm params) (hk : env.Keeps c.bodies) :
    c.Improves env params (eliminateGlobal c).cfg where
  ssaForm := ssaForm_global h
  refines _ _ _ ho _ hrun := (runs_global_iff h.toValid hk ho).2 hrun
  keeps hk := eliminateGlobal_induction (motive := fun c' => env.Keeps c'.bodies) h.toValid hk
    fun hc' hk' hd => (reuses_visit hc' fun k hk => (hd k hk).2).keeps hk'
  keyed := keyed_global h.toValid

/-! ## The pass -/

theorem improves_local (h : c.SsaForm params) (hk : env.Keeps c.bodies) :
    c.Improves env params (eliminateLocal c).cfg where
  ssaForm := (reuses_local c).ssaForm h
  refines := refines_local hk
  keeps := (reuses_local c).keeps
  keyed := (reuses_local c).keyed

/-- Eliminating common subexpressions keeps the form. -/
theorem ssaForm_eliminate (h : c.SsaForm params) : (eliminate c).cfg.SsaForm params :=
  ssaForm_global ((reuses_local c).ssaForm h)

theorem keyed_eliminate (h : c.Valid) (hkeyed : c.Keyed) : (eliminate c).cfg.Keyed :=
  keyed_global ((reuses_local c).valid h) ((reuses_local c).keyed hkeyed)

theorem closed_eliminate (h : c.Closed) : (eliminate c).cfg.Closed :=
  closed_global ((reuses_local c).closed h)

theorem proc_eliminate (c : Cfg) : (eliminate c).cfg.proc = c.proc := by
  refine List.foldlRecOn (motive := fun r : Transformed => r.cfg.proc = c.proc) _ _ rfl fun r hr l _ => ?_
  unfold eliminateAt
  split
  · exact hr
  · exact hr

/-- Where results stay in their places it keeps all that the graph does. -/
theorem improves_eliminate (h : c.SsaForm params) (hk : env.Keeps c.bodies) :
    c.Improves env params (eliminate c).cfg := by
  have hlocal := improves_local h hk
  exact hlocal.trans (improves_global hlocal.ssaForm (hlocal.keeps hk))

/-! ## Programs -/

/-- Results stay in any surroundings if they are put into locals. -/
theorem keeps_of_local (hlocal : ∀ b ∈ c.blocks, ∀ i ∈ b.body, ∀ e t, Expr.ofInstr? i = some e →
    i.dest? = some t → t.isGlobal = false) : env.Keeps c.bodies := by
  intro i hi e t he ht hg
  obtain ⟨b, hb, hi⟩ := Cfg.mem_bodies.1 hi
  rw [hlocal b hb i hi e t (Expr.of?_eq_some.1 he).1 ht] at hg
  cases hg

/-- Reuse along dominators neither adds nor takes away a run of the programs around a procedure, where results
are put into locals: names may be written many times, and calls may change all globals. -/
theorem keptBy_eliminateGlobal (h : c.Closed) (hlocal : ∀ b ∈ c.blocks, ∀ i ∈ b.body, ∀ e t,
      Expr.ofInstr? i = some e → i.dest? = some t → t.isGlobal = false) (p : Procedure) (before after : Program) :
    Program.KeptBy (before ++ .proc (p.withCode c) :: after)
        (before ++ .proc (p.withCode (eliminateGlobal c).cfg) :: after) ∧
      Program.KeptBy (before ++ .proc (p.withCode (eliminateGlobal c).cfg) :: after)
        (before ++ .proc (p.withCode c) :: after) := by
  have hk : Surroundings.unknown.Keeps c.bodies := keeps_of_local hlocal
  have hto : c.Refines .unknown p.params (eliminateGlobal c).cfg :=
    fun _ _ _ ho _ hrun => (runs_global_iff h.toValid hk ho).2 hrun
  have hfrom : (eliminateGlobal c).cfg.Refines .unknown p.params c :=
    fun _ _ _ ho _ hrun => (runs_global_iff h.toValid hk ho).1 hrun
  exact ⟨hto.keptBy h (closed_global h) before after, hfrom.keptBy (closed_global h) h before after⟩

/-- A loop that computes again what was computed in front of it, into a name that is written twice. -/
def repeated : Cfg where
  proc := "@main"
  entry := ⟨"entry"⟩
  blocks := [
    ⟨⟨"entry"⟩, [.copy ⟨"%i"⟩ (.temp ⟨"%n"⟩), .binary ⟨"%s"⟩ .add (.temp ⟨"%n"⟩) (.imm 1)], [.jump ⟨"head"⟩]⟩,
    ⟨⟨"head"⟩,
      [.binary ⟨"%i"⟩ .sub (.temp ⟨"%i"⟩) (.imm 1), .binary ⟨"%t"⟩ .add (.temp ⟨"%n"⟩) (.imm 1)],
      [.branch .jnle (.temp ⟨"%i"⟩) ⟨"head"⟩, .jump ⟨"exit"⟩]⟩,
    ⟨⟨"exit"⟩, [], [.ret (some (.temp ⟨"%t"⟩))]⟩]

/-- A procedure around `repeated`. -/
def repeatedProc : Procedure := ⟨"@main", [⟨"%n"⟩], []⟩

theorem keptBy_eliminateGlobal_repeated :
    repeated.Closed ∧ (∀ b ∈ repeated.blocks, ∀ i ∈ b.body, ∀ e t, Expr.ofInstr? i = some e →
      i.dest? = some t → t.isGlobal = false) ∧ (∃ o, Program.run [.proc (repeatedProc.withCode repeated)] "@main" [3] 100 = .ok o) ∧
      Program.KeptBy [.proc (repeatedProc.withCode repeated)]
        [.proc (repeatedProc.withCode (eliminateGlobal repeated).cfg)] ∧
      Program.KeptBy [.proc (repeatedProc.withCode (eliminateGlobal repeated).cfg)]
        [.proc (repeatedProc.withCode repeated)] := by
  have hvalid : Cfg.ofBlocks repeated.proc repeated.blocks = .ok repeated := rfl
  have hclosed : repeated.Closed := ⟨(Cfg.ofBlocks_eq_ok.1 hvalid).2.2, by decide, by decide⟩
  have hlocal : ∀ b ∈ repeated.blocks, ∀ i ∈ b.body, ∀ e t, Expr.ofInstr? i = some e →
      i.dest? = some t → t.isGlobal = false := by
    have hdest : ∀ b ∈ repeated.blocks, ∀ i ∈ b.body, i.dest?.all (!·.isGlobal) = true := by decide
    intro b hb i hi e t _ ht
    simpa [ht] using hdest b hb i hi
  exact ⟨hclosed, hlocal, ⟨_, rfl⟩, keptBy_eliminateGlobal hclosed hlocal repeatedProc [] []⟩

/-- A block that holds the label of another one. Linear code goes there, past the dominator that computes what
the block computes again. -/
def strayLabel : Cfg where
  proc := "@main"
  entry := ⟨"E"⟩
  blocks := [
    ⟨⟨"E"⟩, [.const ⟨"%t"⟩ 9], [.branch .jz (.temp ⟨"%c"⟩) ⟨"X"⟩, .jump ⟨"A"⟩]⟩,
    ⟨⟨"X"⟩, [], [.ret none]⟩,
    ⟨⟨"A"⟩, [.binary ⟨"%t"⟩ .add (.temp ⟨"%a"⟩) (.temp ⟨"%b"⟩)], [.jump ⟨"B"⟩]⟩,
    ⟨⟨"B"⟩, [.label ⟨"X"⟩, .binary ⟨"%u"⟩ .add (.temp ⟨"%a"⟩) (.temp ⟨"%b"⟩)],
      [.ret (some (.temp ⟨"%u"⟩))]⟩]

/-- What reuse along dominators makes of `strayLabel`. -/
def strayReused : Cfg :=
  strayLabel.modify ⟨"B"⟩ fun b => { b with body := [.label ⟨"X"⟩, .copy ⟨"%u"⟩ (.temp ⟨"%t"⟩)] }

theorem eliminateGlobal_strayLabel : (eliminateGlobal strayLabel).cfg = strayReused := by
  have hclosest : strayLabel.dominance.closestFirst = strayLabel.dominance.strict :=
    Cfg.closestFirst_eq_strict (by decide +kernel)
  delta eliminateGlobal eliminateAt Cfg.reuseGlobal Cfg.reusable
  rw [hclosest]
  decide +kernel

/-- A procedure around `strayLabel`. -/
def strayProc : Procedure := ⟨"@main", [⟨"%a"⟩, ⟨"%b"⟩, ⟨"%c"⟩], []⟩

/-- Labels in bodies have to be left out: the result changes from 3 to 9. -/
theorem not_keptBy_eliminateGlobal_strayLabel :
    Cfg.ofBlocks strayLabel.proc strayLabel.blocks = .ok strayLabel ∧
      (∀ b ∈ strayLabel.blocks, b.EndsOnce) ∧ (∀ b ∈ strayLabel.blocks, ∀ i ∈ b.body, ∀ e t,
        Expr.ofInstr? i = some e → i.dest? = some t → t.isGlobal = false) ∧
      ¬ Program.KeptBy [.proc (strayProc.withCode strayLabel)]
        [.proc (strayProc.withCode (eliminateGlobal strayLabel).cfg)] := by
  refine ⟨rfl, by decide, fun b hb i hi e t _ ht => ?_, fun h => ?_⟩
  · have hdest : ∀ b ∈ strayLabel.blocks, ∀ i ∈ b.body, i.dest?.all (!·.isGlobal) = true := by decide
    simpa [ht] using hdest b hb i hi
  · rw [eliminateGlobal_strayLabel] at h
    obtain ⟨o, ho, hr⟩ : ∃ o, Program.run [.proc (strayProc.withCode strayLabel)] "@main" [1, 2, 0] 100 =
      .ok o ∧ o.result? = some 3 := ⟨_, rfl, rfl⟩
    obtain ⟨o', ho', hr'⟩ : ∃ o, Program.run [.proc (strayProc.withCode strayReused)] "@main" [1, 2, 0] 100 =
      .ok o ∧ o.result? = some 9 := ⟨_, rfl, rfl⟩
    have heq := h.result?_eq ho ho'
    rw [hr, hr'] at heq
    exact absurd heq (by decide)

end ThreeAddress.CommonSubexpr

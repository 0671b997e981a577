import ThreeAddress.Proofs.Lockstep
import ThreeAddress.Proofs.Ssa.Simulation
/-!
# SSA construction keeps faults

The linear code of a graph and that of its renaming run in step. `Place` says where the two stand: in the
same block, at instructions that correspond, with stores that agree under the versions there. The renamed
code takes a step more where a block had no phis and has got some.
-/

namespace ThreeAddress

namespace Ssa

/-- A name stands for itself, or for a version of it. -/
def IsVersion (t x : Temp) : Prop := x = t ∨ ∃ n, x = t.withVersion n

/-- The first operand that finds a local undefined is the same one under versions. -/
theorem Agrees.undefined? {taken : List Temp} {vs : Versions} {σ τ : Store} {pre pre₀ : List Instr}
    (h : Agrees taken vs σ τ) (hvs : Renames ∅ pre pre₀ vs) {os : List Operand}
    (hos : ∀ t, .temp t ∈ os → t ∈ taken) :
    Option.Rel IsVersion (σ.undefined? os) (τ.undefined? (os.map (rename vs))) := by
  induction os with
  | nil => exact .none
  | cons o os ih =>
    have ih := ih fun t ht => hos t (.tail _ ht)
    have hvalue := h.value? hvs (o := o) fun t ht => hos t (ht ▸ List.mem_cons_self)
    unfold Store.undefined? at ih ⊢
    rw [List.map_cons, List.find?_cons, List.find?_cons, hvalue]
    cases hv : (σ.value? o).isNone with
    | false => exact ih
    | true =>
      cases o with
      | imm k => cases hv
      | temp t =>
        -- A global is never undefined, and a version is one of the same local.
        rw [rename_temp]
        dsimp only
        rw [hvs.isGlobal_getD]
        split
        · exact .none
        · refine .some ?_
          cases hx : vs.get? t with
          | none => exact .inl rfl
          | some x => exact .inr (hvs.exists_withVersion hx)

namespace Renaming

variable {params : List Temp} {c : Cfg} (r : Renaming params c)

/-! ## Places -/

/-- What the renaming makes of the code of what is left of a block: of a body that is renamed, and of jumps
of the old graph, in front of further blocks of it. -/
def codeOf (b : Block) (is js : List Instr) (bs : List Block) : List Instr :=
  remains b.label is (js.map (renameUses (r.ends b))) (bs.map r.block)

theorem linearize_map_cons (b : Block) (bs : List Block) :
    linearize ((b :: bs).map r.block) = .label b.label :: r.codeOf b (r.block b).body b.jumps bs :=
  linearize_cons_eq (r.block b) (bs.map r.block)

theorem linear_cfg : r.cfg.linear = linearize (c.blocks.map r.block) := rfl

/-- Where the linear code of a graph and that of its renaming stand, and with which stores. -/
inductive Place : List Instr → List Instr → Option Label → Option Label → Store → Store → Prop
  | start (σ : Store) : Place c.linear r.cfg.linear none none σ σ
  /-- At phis of the entry. -/
  | stuck {i i' : Instr} {is is' : List Instr} {cur? : Option Label} {σ τ : Store} :
      i.isPhi = true → i'.isPhi = true → σ.toMemory = τ.toMemory → Place (i :: is) (i' :: is') none cur? σ τ
  /-- At the label of a block to which control goes. -/
  | label {b d : Block} {pre bs : List Block} {prev? : Option Label} {σ τ : Store} :
      c.blocks = pre ++ d :: bs → c.Edge b.label d.label → r.At b [] [] σ τ →
      Place (linearize (d :: bs)) (linearize ((d :: bs).map r.block)) prev? (some b.label) σ τ
  /-- Behind the label of a block to which control has come. -/
  | head {b d : Block} {pre bs : List Block} {σ τ : Store} :
      c.blocks = pre ++ d :: bs → c.Edge b.label d.label → r.At b [] [] σ τ →
      Place (remains d.label d.body d.jumps bs) (r.codeOf d (r.block d).body d.jumps bs)
        (some b.label) (some d.label) σ τ
  /-- Behind the phis of a block. -/
  | within {b : Block} {pre bs : List Block} {is is' js : List Instr} {prev? : Option Label} {σ τ : Store} :
      c.blocks = pre ++ b :: bs → r.At b is is' σ τ → (∀ i ∈ is, i.isPhi = false) → js ≠ [] → js <:+ b.jumps →
      Place (remains b.label is js bs) (r.codeOf b is' js bs) prev? (some b.label) σ τ

namespace Place

variable {r} {rest rest' : List Instr} {prev? cur? : Option Label} {σ τ : Store}

theorem memory_eq (h : r.Place rest rest' prev? cur? σ τ) : σ.toMemory = τ.toMemory := by
  cases h with
  | start => rfl
  | stuck _ _ hm => exact hm
  | label _ _ hat | head _ _ hat => exact hat.ends.2.memory
  | within _ hat =>
    obtain ⟨_, _, _, _, _, _, hagrees⟩ := hat.exists_versions
    exact hagrees.memory

/-- Neither procedure is at its end. -/
theorem rest_ne (hc : c.Closed) (h : r.Place rest rest' prev? cur? σ τ) : rest ≠ [] ∧ rest' ≠ [] := by
  cases h with
  | start =>
    obtain ⟨b, bs, hbs, -⟩ := hc.exists_entry
    rw [linear_cfg, Cfg.linear, hbs, linearize_cons_eq, linearize_map_cons]
    exact ⟨List.cons_ne_nil _ _, List.cons_ne_nil _ _⟩
  | stuck => exact ⟨List.cons_ne_nil _ _, List.cons_ne_nil _ _⟩
  | label =>
    rw [linearize_cons_eq, linearize_map_cons]
    exact ⟨List.cons_ne_nil _ _, List.cons_ne_nil _ _⟩
  | @head b d pre bs _ _ hbs =>
    have hjs := (hc.endsOnce d (by simp [hbs])).jumps_ne_nil
    exact ⟨remains_ne_nil _ _ hjs _, remains_ne_nil _ _ (by simpa using hjs) _⟩
  | within _ _ _ hjs => exact ⟨remains_ne_nil _ _ hjs _, remains_ne_nil _ _ (by simpa using hjs) _⟩

/-- Behind the label of the entry. -/
theorem entry (h : c.Closed) {b : Block} {bs : List Block} (hp : b.PhisFirst) (hbs : c.blocks = b :: bs)
    (hl : b.label = c.entry) (σ : Store) : r.Place (remains b.label b.body b.jumps bs)
      (r.codeOf b (r.block b).body b.jumps bs) none (some b.label) σ σ := by
  have hb : b ∈ c.blocks := by simp [hbs]
  obtain ⟨phis, rest, hsplit, hphis, hrest⟩ := hp
  cases phis with
  | nil =>
    have hphi : ∀ i ∈ b.body, i.isPhi = false := hsplit ▸ hrest
    have hbs : c.blocks = [] ++ b :: bs := hbs
    exact .within hbs (.start h.toValid hb hl hphi σ) hphi (h.endsOnce b hb).jumps_ne_nil (List.suffix_refl _)
  | cons i phis =>
    obtain ⟨group, rest', vs, -, hblock, hgroup, -⟩ := r.exists_split hb hsplit hrest
    have hnone : headPhis params c b = [] := headPhis_entry h.toValid hl
    rw [hnone] at hgroup
    cases hgroup with
    | cons hstep =>
      have hi := hphis i List.mem_cons_self
      rw [hblock, hsplit]
      exact .stuck hi (by rw [isPhi_resolveSources, hstep.isPhi_eq, hi]) rfl

end Place

/-- The blocks of both graphs are found by their labels, in the same places. -/
theorem exists_from? (hc : c.Closed) {t : Label} (ht : t ∈ c.labels) : ∃ pre d bs, c.blocks = pre ++ d :: bs ∧
    d.label = t ∧ from? t c.linear = some (linearize (d :: bs)) ∧
      from? t r.cfg.linear = some (linearize ((d :: bs).map r.block)) := by
  obtain ⟨d, hd, rfl⟩ := List.mem_map.1 ht
  obtain ⟨pre, bs, hbs⟩ := List.append_of_mem hd
  have hc' := r.closed_cfg hc
  have hbs' : r.cfg.blocks = pre.map r.block ++ r.block d :: bs.map r.block := by
    rw [cfg, Cfg.mapBlocks, hbs, List.map_append, List.map_cons]
  exact ⟨pre, d, bs, hbs, rfl, from?_linearize_of_nodup hc.endsOnce hc.unlabelled hc.nodup hbs,
    from?_linearize_of_nodup hc'.endsOnce hc'.unlabelled hc'.nodup hbs'⟩

/-- A procedure with the linear code of a graph, and one with that of its renaming, are at work. -/
structure Alongside (p : Procedure) (s s' : State) : Prop where
  proc_eq : s.frame.proc = p.withCode c
  proc_eq' : s'.frame.proc = p.withCode r.cfg
  previous?_eq : s'.frame.previous? = s.frame.previous?
  current?_eq : s'.frame.current? = s.frame.current?
  place : r.Place s.frame.rest s'.frame.rest s.frame.previous? s.frame.current? s.store s'.store

/-! ## Steps -/

namespace Alongside

variable {r} {p : Procedure} {s s' : State} {b d : Block} {pre bs : List Block} {i i' : Instr}
  {is is' js rest rest' : List Instr}

/-- The procedures go on in their code, with other stores. -/
theorem goesOn (h : r.Alongside p s s') {σ τ : Store}
    (hplace : r.Place rest rest' s.frame.previous? s.frame.current? σ τ) :
    r.Alongside p ((s.alone.withRest rest).withStore σ) ((s'.alone.withRest rest').withStore τ) :=
  ⟨h.proc_eq, h.proc_eq', h.previous?_eq, h.current?_eq, hplace⟩

/-- Both procedures go to a label. -/
theorem goTo (hc : c.Closed) (h : r.Alongside p s s') (hat : r.At b [] [] s.store s'.store)
    (hcur : s.frame.current? = some b.label) {t : Label} (ht : t ∈ b.targets) (is is' : List Instr) : ∃ u u',
    (s.alone.withRest is).goTo t = .ok u ∧ (s'.alone.withRest is').goTo t = .ok u' ∧ r.Alongside p u u' := by
  obtain ⟨pre, d, bs, hbs, rfl, hfrom, hfrom'⟩ := r.exists_from? hc (hc.target b hat.mem t ht)
  have hbody : s.frame.proc.body = c.linear := congrArg Procedure.body h.proc_eq
  have hbody' : s'.frame.proc.body = r.cfg.linear := congrArg Procedure.body h.proc_eq'
  rw [← hbody] at hfrom
  rw [← hbody'] at hfrom'
  have hplace := @Place.label _ _ r b d pre bs s.frame.previous? _ _ hbs ⟨b, hat.mem, rfl, ht⟩ hat
  rw [← hcur] at hplace
  exact ⟨_, _, State.goTo_eq_ok.2 ⟨_, hfrom, rfl⟩, State.goTo_eq_ok.2 ⟨_, hfrom', rfl⟩,
    h.proc_eq, h.proc_eq', h.previous?_eq, h.current?_eq, hplace⟩

theorem alike_settled (hc : c.Closed) (h : r.Alongside p s s') : s.settled.Alike (r.Alongside p) s'.settled := by
  obtain ⟨hne, hne'⟩ := h.place.rest_ne hc
  obtain ⟨i, is, hr⟩ := List.exists_cons_of_ne_nil hne
  obtain ⟨i', is', hr'⟩ := List.exists_cons_of_ne_nil hne'
  rw [State.settled_of_rest_cons hr, State.settled_of_rest_cons hr']
  exact .running h

/-- What reads one operand, under versions, and then goes on alike. -/
theorem matches_read {taken : List Temp} {vs : Versions} {pre pre₀ : List Instr} {R : State → State → Prop}
    (hagrees : Agrees taken vs s.store s'.store) (hvs : Renames ∅ pre pre₀ vs) {v : Operand}
    (hused : ∀ t, v = .temp t → t ∈ taken) {f f' : Int64 → Except Fault Progress}
    (hf : ∀ k, Matches IsVersion R (f k) (f' k)) :
    Matches IsVersion R (s.read v >>= f) (s'.read (rename vs v) >>= f') := by
  have hvalue : s'.store.value? (rename vs v) = s.store.value? v := hagrees.value? hvs hused
  have hundefined : Option.Rel IsVersion (s.store.undefined? [v]) (s'.store.undefined? [rename vs v]) :=
    hagrees.undefined? hvs fun t ht => hused t (List.mem_singleton.1 ht).symm
  cases he : s.read v with
  | ok k =>
    rw [State.read_eq_ok.2 (hvalue.trans (State.read_eq_ok.1 he))]
    exact hf k
  | error e =>
    cases he' : s'.read (rename vs v) with
    | ok k => cases he.symm.trans (State.read_eq_ok.2 (hvalue.symm.trans (State.read_eq_ok.1 he')))
    | error e' =>
      rw [State.undefined?_of_read he, State.undefined?_of_read he'] at hundefined
      exact .error hundefined

/-- At an instruction of a body that is no call. -/
theorem inStep_exec (hc : c.Closed) (h : r.Alongside p s s') {vs vs₁ : Versions} {before before₀ : List Instr}
    (hbefore : Renames ∅ before before₀ vs) (hstep : Step vs i i' vs₁)
    (hagrees : Agrees (taken params c) vs s.store s'.store) (hused : ∀ t ∈ i.usedTemps, t ∈ taken params c)
    (hnew : ∀ x, i'.localDest? = some x → x ∉ taken params c ∧ ∀ t, vs.get? t ≠ some x)
    (hi : i.isPhi = false) (ht : i.isTerminator = false) (hl : i.label? = none)
    (hcall : ∀ d target argc, i ≠ .call d target argc) (hr : s.frame.rest = i :: rest)
    (hr' : s'.frame.rest = i' :: rest') (hplace : ∀ {σ τ : Store}, Agrees (taken params c) vs₁ σ τ →
      r.Place rest rest' s.frame.previous? s.frame.current? σ τ) :
    InStep IsVersion (r.Alongside p) s s' := by
  have hcall' : ∀ d target argc, i' ≠ .call d target argc := by
    intro d target argc he
    have hcalled := hstep.called?_eq
    rw [he] at hcalled
    cases i <;> first | exact hcall _ _ _ rfl | cases hcalled
  have hi' := hstep.isPhi_eq.trans hi
  refine .of_execute hr hr' hi hi' hcall hcall' (.of_exec (fun _ _ _ _ _ => False) ⟨hi, ht, hl⟩
    ⟨hi', hstep.isTerminator_eq.trans ht, hstep.label?_eq.trans hl⟩ hcall hcall' (fun σ hσ => ?_) (fun τ hτ => ?_) ?_)
  · obtain ⟨τ, hτ, hagrees'⟩ := hagrees.exec hbefore hstep hused hnew hσ
    exact ⟨τ, hτ, (h.goesOn (hplace hagrees')).alike_settled hc⟩
  · obtain ⟨σ, hσ, -⟩ := hagrees.exec_old hbefore hstep hused hnew hτ
    exact ⟨σ, hσ⟩
  · intro _
    rw [hstep.uses_eq hi]
    exact hagrees.undefined? hbefore fun t ht => hused t (Instr.mem_usedTemps.2 ht)

/-- At an instruction behind the phis of a block. -/
theorem inStep_body (hc : c.Closed) (h : r.Alongside p s s') (hbs : c.blocks = pre ++ b :: bs)
    (hat : r.At b (i :: is) is' s.store s'.store) (hphi : ∀ j ∈ i :: is, j.isPhi = false) (hjs : js ≠ [])
    (hsuffix : js <:+ b.jumps) (hcur : s.frame.current? = some b.label)
    (hr : s.frame.rest = remains b.label (i :: is) js bs) (hr' : s'.frame.rest = r.codeOf b is' js bs) :
    InStep IsVersion (r.Alongside p) s s' := by
  cases is' with
  | nil => cases hat.eq_nil
  | cons i' is' =>
    obtain ⟨before, before₀, vs, vs₁, hbefore, hstep, hagrees, hused, hnew, hat'⟩ := hat.step
    have hbody := hat.subset i List.mem_cons_self
    have hplace : ∀ {σ τ : Store}, Agrees (taken params c) vs₁ σ τ →
        r.Place (remains b.label is js bs) (r.codeOf b is' js bs) s.frame.previous? s.frame.current? σ τ := by
      intro σ τ hagrees'
      rw [hcur]
      exact .within hbs (hat' hagrees') (fun j hj => hphi j (.tail _ hj)) hjs hsuffix
    by_cases hcall : ∃ d target argc, i = .call d target argc
    · obtain ⟨d, target, argc, rfl⟩ := hcall
      -- Both calls are of the same procedure, and what they bring goes to a local or to its version.
      have hreceive := fun m w => hagrees.receive hbefore hstep hnew m w
      obtain ⟨d', rfl⟩ : ∃ d', i' = .call d' target argc := by
        cases hstep with
        | keep => exact ⟨d, rfl⟩
        | @write t x hd =>
          cases (Instr.localDest?_eq_some.1 hd).1
          exact ⟨some x, rfl⟩
      refine .call hr hr' (congrArg Memory.staged hagrees.memory.symm) fun globals output v? => ?_
      rw [← State.withStore_receive, ← State.withStore_receive]
      exact h.goesOn (hplace (hreceive ⟨globals, output, ∅⟩ v?))
    · exact h.inStep_exec hc hbefore hstep hagrees hused hnew (hphi i List.mem_cons_self)
        (hc.body b hat.mem i hbody) (hc.unlabelled b hat.mem i hbody)
        (fun d target argc he => hcall ⟨d, target, argc, he⟩) hr hr' hplace

/-- Where control goes to a block. -/
theorem inStep_label (hc : c.Closed) (h : r.Alongside p s s') (hbs : c.blocks = pre ++ d :: bs)
    (hedge : c.Edge b.label d.label) (hat : r.At b [] [] s.store s'.store)
    (hcur : s.frame.current? = some b.label) (hr : s.frame.rest = linearize (d :: bs))
    (hr' : s'.frame.rest = linearize ((d :: bs).map r.block)) : InStep IsVersion (r.Alongside p) s s' := by
  rw [linearize_cons_eq] at hr
  rw [linearize_map_cons] at hr'
  have hplace := Place.head hbs hedge hat
  rw [← hcur] at hplace
  refine .of_execute hr hr' rfl rfl (by simp) (by simp) (.ok (alike_settled hc ?_))
  exact ⟨h.proc_eq, h.proc_eq', h.current?_eq, rfl, hplace⟩

/-- Where the procedures begin. -/
theorem inStep_start (hc : c.Closed) (hp : ∀ b ∈ c.blocks, b.PhisFirst) (h : r.Alongside p s s')
    (hcur : s.frame.current? = none) (hstore : s'.store = s.store)
    (hr : s.frame.rest = c.linear) (hr' : s'.frame.rest = r.cfg.linear) :
    InStep IsVersion (r.Alongside p) s s' := by
  obtain ⟨b, bs, hbs, hentry⟩ := hc.exists_entry
  rw [Cfg.linear, hbs, linearize_cons_eq] at hr
  rw [linear_cfg, hbs, linearize_map_cons] at hr'
  have hplace : r.Place _ _ _ _ s.store s.store := .entry hc (hp b (by simp [hbs])) hbs hentry s.store
  rw [← hcur] at hplace
  refine .of_execute hr hr' rfl rfl (by simp) (by simp) (.ok (alike_settled hc ?_))
  exact ⟨h.proc_eq, h.proc_eq', h.current?_eq, rfl, hstore ▸ hplace⟩

/-- At a conditional jump. -/
theorem inStep_branch (hc : c.Closed) (h : r.Alongside p s s') (hbs : c.blocks = pre ++ b :: bs)
    (hat : r.At b [] [] s.store s'.store) {cond : Condition} {v : Operand} {t : Label} (hjs : js ≠ [])
    (hsuffix : .branch cond v t :: js <:+ b.jumps) (hcur : s.frame.current? = some b.label)
    (hr : s.frame.rest = remains b.label [] (.branch cond v t :: js) bs)
    (hr' : s'.frame.rest = r.codeOf b [] (.branch cond v t :: js) bs) :
    InStep IsVersion (r.Alongside p) s s' := by
  have hmem : .branch cond v t ∈ b.jumps := hsuffix.subset List.mem_cons_self
  have hused : ∀ u, v = .temp u → u ∈ taken params c := fun u hu =>
    mem_taken_of_used (mem_instrs.2 ⟨b, hat.mem, .inr hmem⟩) (Instr.mem_usedTemps.2 (hu ▸ List.mem_cons_self))
  have hplace := @Place.within _ _ r b pre bs [] [] js s.frame.previous? _ _ hbs hat nofun hjs
    ((List.suffix_cons _ _).trans hsuffix)
  rw [← hcur] at hplace
  rw [remains_nil_cons _ _ hjs] at hr
  replace hr' : s'.frame.rest = .branch cond (rename (r.ends b) v) t :: r.codeOf b [] js bs :=
    hr'.trans (remains_nil_cons _ _ (by simpa using hjs) _)
  refine .of_execute hr hr' rfl rfl (by simp) (by simp) ?_
  refine matches_read hat.ends.2 (r.renames b hat.mem) hused fun k => ?_
  cases cond.holds k with
  | true =>
    obtain ⟨u, u', hu, hu', halong⟩ := h.goTo hc hat hcur (List.mem_filterMap.2 ⟨_, hmem, rfl⟩)
      (remains b.label [] js bs) (r.codeOf b [] js bs)
    simp only [hu, hu', if_true, bind, Except.bind, pure, Except.pure]
    exact .ok (halong.alike_settled hc)
  | false => exact .ok (alike_settled hc ⟨h.proc_eq, h.proc_eq', h.previous?_eq, h.current?_eq, hplace⟩)

/-- At the jump at the end of a block, which may fall through. -/
theorem inStep_jump (hc : c.Closed) (h : r.Alongside p s s') (hbs : c.blocks = pre ++ b :: bs)
    (hat : r.At b [] [] s.store s'.store) {t : Label} (ht : t ∈ b.targets)
    (hcur : s.frame.current? = some b.label) (hr : s.frame.rest = remains b.label [] [.jump t] bs)
    (hr' : s'.frame.rest = r.codeOf b [] [.jump t] bs) : InStep IsVersion (r.Alongside p) s s' := by
  rw [remains_last] at hr
  replace hr' : s'.frame.rest = if bs.head?.any fun d => Instr.jump t = .jump d.label then
      linearize (bs.map r.block) else .jump t :: linearize (bs.map r.block) := by
    refine hr'.trans ((remains_last _ _ _).trans ?_)
    cases bs <;> rfl
  split at hr
  · rename_i hfall
    rw [if_pos hfall] at hr'
    cases bs with
    | nil => cases hfall
    | cons d ds =>
      obtain rfl : t = d.label := by simpa using hfall
      have hbs : c.blocks = (pre ++ [b]) ++ d :: ds := by simp [hbs]
      exact h.inStep_label hc hbs ⟨b, hat.mem, rfl, ht⟩ hat hcur hr hr'
  · rename_i hwritten
    rw [if_neg hwritten] at hr'
    refine .of_execute hr hr' rfl rfl (by simp) (by simp) ?_
    obtain ⟨u, u', hu, hu', halong⟩ := h.goTo hc hat hcur ht (linearize bs) (linearize (bs.map r.block))
    simp only [State.execute, hu, hu', bind, Except.bind, pure, Except.pure]
    exact .ok (halong.alike_settled hc)

theorem inStep_ret (h : r.Alongside p s s') (hat : r.At b [] [] s.store s'.store) {v? : Option Operand}
    (hmem : .ret v? ∈ b.jumps) (hr : s.frame.rest = remains b.label [] [.ret v?] bs)
    (hr' : s'.frame.rest = r.codeOf b [] [.ret v?] bs) : InStep IsVersion (r.Alongside p) s s' := by
  have hmemory := h.place.memory_eq
  have hended : ∀ k? : Option Int64, (leave s.globals s.output k? []).Alike (r.Alongside p)
      (leave s'.globals s'.output k? []) := by
    intro k?
    rw [show s'.globals = s.globals from (congrArg Memory.globals hmemory).symm,
      show s'.output = s.output from (congrArg Memory.output hmemory).symm]
    exact .ended _
  replace hr : s.frame.rest = .ret v? :: linearize bs := by simpa [remains_last] using hr
  replace hr' : s'.frame.rest = .ret (v?.map (rename (r.ends b))) :: linearize (bs.map r.block) := by
    simpa [codeOf, remains_last, renameUses, Instr.isPhi, Instr.mapOperands] using hr'
  refine .of_execute hr hr' rfl rfl (by simp) (by simp) ?_
  cases v? with
  | none => exact .ok (hended none)
  | some v =>
    refine matches_read hat.ends.2 (r.renames b hat.mem) (fun u hu => ?_) fun k => .ok (hended (some k))
    exact mem_taken_of_used (mem_instrs.2 ⟨b, hat.mem, .inr hmem⟩)
      (Instr.mem_usedTemps.2 (hu ▸ List.mem_cons_self))

/-- Behind the phis of a block. -/
theorem inStep_within (hc : c.Closed) (h : r.Alongside p s s') (hbs : c.blocks = pre ++ b :: bs)
    (hat : r.At b is is' s.store s'.store) (hphi : ∀ i ∈ is, i.isPhi = false) (hjs : js ≠ [])
    (hsuffix : js <:+ b.jumps) (hcur : s.frame.current? = some b.label)
    (hr : s.frame.rest = remains b.label is js bs) (hr' : s'.frame.rest = r.codeOf b is' js bs) :
    InStep IsVersion (r.Alongside p) s s' := by
  cases is with
  | cons i is => exact h.inStep_body hc hbs hat hphi hjs hsuffix hcur hr hr'
  | nil =>
    obtain ⟨rfl, -⟩ := hat.ends
    obtain ⟨j, js, rfl⟩ := List.exists_cons_of_ne_nil hjs
    have hmem : j ∈ b.jumps := hsuffix.subset List.mem_cons_self
    rcases (hc.endsOnce b hat.mem).of_suffix hsuffix with ⟨rfl, hj⟩ | ⟨hne, cond, v, t, rfl⟩
    · cases j with
      | jump t => exact h.inStep_jump hc hbs hat (List.mem_filterMap.2 ⟨_, hmem, rfl⟩) hcur hr hr'
      | ret v? => exact h.inStep_ret hat hmem hr hr'
      | _ => cases hj
    · exact h.inStep_branch hc hbs hat hne hsuffix hcur hr hr'

/-- Behind the label of a block. -/
theorem inStep_head (hc : c.Closed) (hp : d.PhisFirst) (h : r.Alongside p s s') (hbs : c.blocks = pre ++ d :: bs)
    (hedge : c.Edge b.label d.label) (hat : r.At b [] [] s.store s'.store)
    (hprev : s.frame.previous? = some b.label) (hcur : s.frame.current? = some d.label)
    (hr : s.frame.rest = remains d.label d.body d.jumps bs)
    (hr' : s'.frame.rest = r.codeOf d (r.block d).body d.jumps bs) :
    InStep IsVersion (r.Alongside p) s s' ∨ ¬ s'.Calling ∧ ∃ s'', s'.alone.step [] = .ok (.running s'') ∧
      r.Alongside p s s'' ∧ InStep IsVersion (r.Alongside p) s s'' := by
  have hd : d ∈ c.blocks := by simp [hbs]
  have hjs := (hc.endsOnce d hd).jumps_ne_nil
  obtain ⟨phis, rest, hsplit, hphis, hrest⟩ := hp
  obtain ⟨group, rest', hblock, hgroup, hrest', hnil, hexists, hat'⟩ := hat.enter hedge hd hsplit hphis hrest
  rw [hsplit, remains_append] at hr
  rw [hblock, codeOf, remains_append, ← codeOf] at hr'
  have htake := takeWhile_remains (l := d.label) hrest (fun _ hj => hc.isPhi_of_mem_jumps hd hj) bs
  have htake' : (r.codeOf d rest' d.jumps bs).takeWhile Instr.isPhi = [] :=
    takeWhile_remains hrest' (fun _ hj => (r.closed_cfg hc).isPhi_of_mem_jumps (r.mem_cfg.2 ⟨d, hd, rfl⟩) hj) _
  have hplace : ∀ {σ₁ τ₁ : Store}, s.store.Phis b.label phis σ₁ → s'.store.Phis b.label group τ₁ →
      r.Place (remains d.label rest d.jumps bs) (r.codeOf d rest' d.jumps bs)
        s.frame.previous? s.frame.current? σ₁ τ₁ := by
    intro σ₁ τ₁ hσ hτ
    rw [hcur]
    exact .within hbs (hat' hσ hτ) hrest hjs (List.suffix_refl _)
  cases phis with
  | cons i phis =>
    obtain ⟨i', group, rfl⟩ := List.exists_cons_of_ne_nil fun hg => List.cons_ne_nil i phis (hnil hg)
    exact .inl (.of_phis hprev (h.previous?_eq.trans hprev) hr hr' hphis hgroup htake htake' hexists
      fun hσ hτ => (h.goesOn (hplace hσ hτ)).alike_settled hc)
  | nil =>
    have hσ : s.store.Phis b.label [] s.store := ⟨[], rfl, rfl⟩
    obtain ⟨τ₁, hτ⟩ := hexists.2 ⟨_, hσ⟩
    cases group with
    | nil =>
      obtain ⟨ws, hws, rfl⟩ := hτ
      cases hws
      exact .inl (h.inStep_within hc hbs (hat' hσ ⟨[], rfl, rfl⟩) hrest hjs (List.suffix_refl _) hcur hr hr')
    | cons i group =>
      -- The phis that are put in are a step of the renamed code alone.
      have halong : r.Alongside p s ((s'.alone.withRest (r.codeOf d rest' d.jumps bs)).withStore τ₁) :=
        ⟨h.proc_eq, h.proc_eq', h.previous?_eq, h.current?_eq, hr ▸ hplace hσ hτ⟩
      obtain ⟨k, ks, hk⟩ := List.exists_cons_of_ne_nil (halong.place.rest_ne hc).2
      have hphis := (@State.phis_eq_ok (s'.alone.withRest (r.codeOf d rest' d.jumps bs)) _ (i :: group)).2
        ⟨b.label, τ₁, h.previous?_eq.trans hprev, hτ, rfl⟩
      have hstep : s'.alone.step [] =
          .ok (.running ((s'.alone.withRest (r.codeOf d rest' d.jumps bs)).withStore τ₁)) := by
        rw [State.step_of_phis (s := s'.alone) hr' hgroup htake', hphis]
        exact congrArg Except.ok (State.settled_of_rest_cons hk)
      exact .inr ⟨State.not_calling hr' (by rintro _ _ _ rfl; cases hgroup _ List.mem_cons_self), _, hstep, halong,
        halong.inStep_within hc hbs (hat' hσ hτ) hrest hjs (List.suffix_refl _) hcur hr rfl⟩

/-- Wherever the two procedures stand, they take their next steps together, or the second after one step
more. -/
theorem step (hc : c.Closed) (hp : ∀ b ∈ c.blocks, b.PhisFirst) (h : r.Alongside p s s') :
    InStep IsVersion (r.Alongside p) s s' ∨ ¬ s'.Calling ∧ ∃ s'', s'.alone.step [] = .ok (.running s'') ∧
      r.Alongside p s s'' ∧ InStep IsVersion (r.Alongside p) s s'' := by
  have hplace := h.place
  generalize hr : s.frame.rest = rest, hr' : s'.frame.rest = rest', hprev : s.frame.previous? = prev?,
    hcur : s.frame.current? = cur?, hσ : s.store = σ, hτ : s'.store = τ at hplace
  cases hplace with
  | start => exact .inl (h.inStep_start hc hp hcur (hτ.trans hσ.symm) hr hr')
  | stuck hi hi' => exact .inl (.of_stuck hprev (h.previous?_eq.trans hprev) hr hr' hi hi')
  | label hbs hedge hat =>
    subst hσ hτ
    exact .inl (h.inStep_label hc hbs hedge hat hcur hr hr')
  | @head b d pre bs _ _ hbs hedge hat =>
    subst hσ hτ
    exact h.inStep_head hc (hp d (by simp [hbs])) hbs hedge hat hprev hcur hr hr'
  | within hbs hat hphi hjs hsuffix =>
    subst hσ hτ
    exact .inl (h.inStep_within hc hbs hat hphi hjs hsuffix hcur hr hr')

end Alongside

/-- The linear code of a graph runs in step with that of its renaming. -/
theorem lockstep (hc : c.Closed) (hp : ∀ b ∈ c.blocks, b.PhisFirst) (p : Procedure) :
    Lockstep IsVersion (p.withCode c) (p.withCode r.cfg) (r.Alongside p) where
  refl _ := .inl rfl
  name_eq := rfl
  params_eq := rfl
  start _ _ _ := ⟨rfl, rfl, rfl, rfl, .start _⟩
  under _ _ h := ⟨h.proc_eq, h.proc_eq', h.previous?_eq, h.current?_eq, h.place⟩
  shared h :=
    have hm := h.place.memory_eq
    ⟨(congrArg Memory.globals hm).symm, (congrArg Memory.output hm).symm⟩
  isEmpty_eq h := by
    obtain ⟨hne, hne'⟩ := h.place.rest_ne hc
    rw [List.isEmpty_eq_false_iff.2 hne, List.isEmpty_eq_false_iff.2 hne']
  step h := h.step hc hp

end Renaming

/-! ## Programs -/

/-- SSA construction, in whatever order the blocks are visited, changes no run of the programs around a
procedure: phis may stand in front of blocks, and locals may be undefined. A read of an undefined temporary
is at fault before where the read of its version is at fault behind. -/
theorem runsAlike_ssaVisiting {c : Cfg} (h : c.Closed) (hp : ∀ b ∈ c.blocks, b.PhisFirst) (p : Procedure)
    {visit : List Label} (hvisit : ∀ l ∈ c.labels, l ∈ visit) (before after : Program) :
    Program.RunsAlike IsVersion (before ++ .proc (p.withCode c) :: after)
      (before ++ .proc (p.withCode (c.ssaVisiting visit p.params)) :: after) := by
  obtain ⟨r, hr⟩ := exists_renaming h.toValid p.params hvisit
  rw [hr]
  have hto : c.Refines .unknown p.params r.cfg := fun _ _ _ _ _ hrun => (r.runs_iff h hp).2 hrun
  have hfrom : r.cfg.Refines .unknown p.params c := fun _ _ _ _ _ hrun => (r.runs_iff h hp).1 hrun
  obtain ⟨hfaults, hfaults'⟩ := (r.lockstep h hp p).faultsKeptBy before after
  exact ⟨hto.keptBy h (r.closed_cfg h) before after, hfrom.keptBy (r.closed_cfg h) h before after, hfaults, hfaults'⟩

/-- A loop that writes its counter again and again. -/
def counting : Cfg where
  proc := "@main"
  entry := ⟨"entry"⟩
  blocks := [
    ⟨⟨"entry"⟩, [.copy ⟨"%i"⟩ (.temp ⟨"%n"⟩)], [.jump ⟨"head"⟩]⟩,
    ⟨⟨"head"⟩, [.binary ⟨"%i"⟩ .sub (.temp ⟨"%i"⟩) (.imm 1)],
      [.branch .jnle (.temp ⟨"%i"⟩) ⟨"head"⟩, .jump ⟨"exit"⟩]⟩,
    ⟨⟨"exit"⟩, [], [.ret (some (.temp ⟨"%i"⟩))]⟩]

/-- A procedure around `counting`. -/
def countingProc : Procedure := ⟨"@main", [⟨"%n"⟩], []⟩

theorem runsAlike_ssa_counting :
    counting.Closed ∧ (∀ b ∈ counting.blocks, b.PhisFirst) ∧
      (∃ o, Program.run [.proc (countingProc.withCode counting)] "@main" [3] 100 = .ok o) ∧
      Program.RunsAlike IsVersion [.proc (countingProc.withCode counting)]
        [.proc (countingProc.withCode (counting.ssa countingProc.params))] := by
  have hvalid : Cfg.ofBlocks counting.proc counting.blocks = .ok counting := rfl
  have hclosed : counting.Closed := ⟨(Cfg.ofBlocks_eq_ok.1 hvalid).2.2, by decide, by decide⟩
  have hphis : ∀ b ∈ counting.blocks, b.PhisFirst := by decide
  exact ⟨hclosed, hphis, ⟨_, rfl⟩, runsAlike_ssaVisiting hclosed hphis countingProc (fun _ hl => hl) [] []⟩

/-- A block that holds the label of another one. Linear code passes it there, and the phi that is put in
behind takes the version of the other block. -/
def strayLabel : Cfg where
  proc := "@main"
  entry := ⟨"E"⟩
  blocks := [
    ⟨⟨"E"⟩, [], [.jump ⟨"Z"⟩]⟩,
    ⟨⟨"Z"⟩, [.const ⟨"%x"⟩ 2], [.branch .jz (.temp ⟨"%x"⟩) ⟨"B"⟩, .jump ⟨"A"⟩]⟩,
    ⟨⟨"A"⟩, [.const ⟨"%x"⟩ 3, .label ⟨"Z"⟩], [.jump ⟨"B"⟩]⟩,
    ⟨⟨"B"⟩, [], [.ret (some (.temp ⟨"%x"⟩))]⟩]

/-- A procedure around `strayLabel`. -/
def strayProc : Procedure := ⟨"@main", [], []⟩

/-- Labels in bodies have to be left out: the result changes from 3 to 2. -/
theorem not_keptBy_ssa_strayLabel :
    Cfg.ofBlocks strayLabel.proc strayLabel.blocks = .ok strayLabel ∧
      (∀ b ∈ strayLabel.blocks, b.EndsOnce) ∧ (∀ b ∈ strayLabel.blocks, b.PhisFirst) ∧
      ¬ Program.KeptBy [.proc (strayProc.withCode strayLabel)]
        [.proc (strayProc.withCode (strayLabel.ssa strayProc.params))] := by
  refine ⟨rfl, by decide, by decide, fun h => ?_⟩
  obtain ⟨o, ho, hr⟩ : ∃ o, Program.run [.proc (strayProc.withCode strayLabel)] "@main" [] 100 = .ok o ∧
    o.result? = some 3 := ⟨_, rfl, rfl⟩
  obtain ⟨o', ho', hr'⟩ : ∃ o, Program.run [.proc (strayProc.withCode (strayLabel.ssa strayProc.params))]
    "@main" [] 100 = .ok o ∧ o.result? = some 2 := ⟨_, rfl, rfl⟩
  have heq := h.result?_eq ho ho'
  rw [hr, hr'] at heq
  exact absurd heq (by decide)

end Ssa

end ThreeAddress

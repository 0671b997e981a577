import ThreeAddress.Proofs.Constants.Refolding
/-!
# What folding leaves is clean

Nothing that the analysis has ruled out is left in the folded graph (`clean_foldConstants`): its blocks are in reach
and closed, its edges are those that execute, its phis have sources for them only, and constants are neither tested
nor read nor written. That the edges agree rests on the analysis being at rest: jumps are resolved by what is known
in the end, while the edges were collected on the way, when less was known (`edge_folded`).
-/

namespace ThreeAddress.Constants

variable {f : Facts} {c : Cfg}

/-- An instruction of the block `l` of the graph `d`, and the one that it is left of. -/
structure Remains (d : Cfg) (l : Label) (i i' : Instr) : Prop where
  dest : i'.dest? = i.dest?
  phi : i'.isPhi = i.isPhi
  /-- A phi has its sources for the predecessors that are left. -/
  labels : i'.sources?.map PhiSources.labels =
    i.sources?.map fun sources => sources.labels.filter ((d.predecessors l).contains ·)

/-- Nothing is left in the graph `d`, made of `c`, that the facts `f` have ruled out. -/
structure Clean (f : Facts) (c d : Cfg) : Prop where
  validate : d.validate = .ok ()
  reachable : ∀ b ∈ d.blocks, d.Reachable b.label
  /-- Blocks end in a jump or a return. -/
  closed : ∀ b ∈ d.blocks, b.isClosed = true
  edge (k l : Label) : (k, l) ∈ d.edges ↔ (k, l) ∈ f.edges
  /-- A body holds what is left of some of the instructions of the old body, in their order. -/
  remains : ∀ b' ∈ d.blocks, ∃ b ∈ c.blocks, b.label = b'.label ∧
    ∃ kept, kept.Sublist b.body ∧ List.Forall₂ (Remains d b'.label) kept b'.body
  /-- Conditional jumps test temporaries that no constant is known for. -/
  branch : ∀ b ∈ d.blocks, ∀ cond o l, .branch cond o l ∈ b.jumps →
    ∃ t, o = .temp t ∧ (f.value t).constant? = none
  unread : ∀ b ∈ d.blocks, ∀ i ∈ b.instrs, ∀ t ∈ i.usedTemps, (f.value t).constant? = none
  unwritten : ∀ b ∈ d.blocks, ∀ i ∈ b.instrs, ∀ t, i.dest? = some t → (f.value t).constant? = none

/-! ## Jumps -/

theorem isFinal_getLast?_resolveJumps (f : Facts) (js : List Instr) :
    ∃ j, (resolveJumps f js).getLast? = some j ∧ j.isFinal = true := by
  unfold resolveJumps
  dsimp only
  split
  · exact ⟨.ret none, List.getLast?_concat, rfl⟩
  · rename_i hopen
    unfold isOpen at hopen
    split at hopen
    · exact ⟨_, ‹_›, by simpa using hopen⟩
    · exact absurd rfl hopen

theorem isClosed_foldBlock (f : Facts) (b : Block) : (foldBlock f b).isClosed = true := by
  obtain ⟨j, hj, hfinal⟩ := isFinal_getLast?_resolveJumps f b.jumps
  simp [Block.isClosed, foldBlock, List.getLast?_map, hj, hfinal]

/-- A conditional jump that is left was not decided. -/
theorem exists_of_branch_mem_foldBlock {b : Block} {cond : Condition} {o : Operand} {l : Label}
    (h : .branch cond o l ∈ (foldBlock f b).jumps) : ∃ t, o = .temp t ∧ f.value t = .varies := by
  obtain ⟨j, hj, hjo⟩ := List.mem_map.1 h
  rcases mem_resolveJumps hj with huses | ⟨-, hvaries, -⟩
  · have := congrArg Instr.uses hjo
    rw [Instr.uses_mapOperands, huses] at this
    cases this
  · cases j <;> cases hjo
    rename_i v
    have hv := hvaries _ _ _ rfl
    cases v with
    | imm k => cases hv
    | temp t => exact ⟨t, fold_of_varies hv, hv⟩

/-! ## What is read and written -/

/-- Where a constant is known, folding puts it in the place of the temporary. -/
theorem constant?_of_fold {o : Operand} {t : Temp} (h : fold f o = .temp t) : (f.value t).constant? = none := by
  refine fold_eq_self_iff.1 ?_ t rfl
  rw [← h]
  exact fold_fold f o

/-- Nothing but jumps remains of jumps. -/
theorem isTerminator_of_mem_decideJumps {js : List Instr} (h : ∀ j ∈ js, j.isTerminator = true) {j : Instr}
    (hj : j ∈ (decideJumps f js).kept) : j.isTerminator = true := by
  fun_induction decideJumps f js with
  | case1 => cases hj
  | case2 cond v target js i hv rest ih =>
    rcases List.mem_cons.1 hj with rfl | hj
    · rfl
    · exact ih (fun k hk => h k (.tail _ hk)) hj
  | case3 => exact List.mem_singleton.1 hj ▸ rfl
  | case4 cond v target js i k hv hk rest ih => exact ih (fun k hk => h k (.tail _ hk)) hj
  | case5 => cases hj
  | case6 => exact List.mem_singleton.1 hj ▸ rfl
  | case7 => exact List.mem_singleton.1 hj ▸ rfl
  | case8 i js => exact List.mem_singleton.1 hj ▸ h i List.mem_cons_self

theorem isTerminator_of_mem_resolveJumps {js : List Instr} (h : ∀ j ∈ js, j.isTerminator = true) {j : Instr}
    (hj : j ∈ resolveJumps f js) : j.isTerminator = true := by
  unfold resolveJumps at hj
  dsimp only at hj
  split at hj
  · rcases List.mem_append.1 hj with hj | hj
    · exact isTerminator_of_mem_decideJumps h hj
    · exact List.mem_singleton.1 hj ▸ rfl
  · exact isTerminator_of_mem_decideJumps h hj

/-- No constant is known for what a block writes after the folding. -/
theorem constant?_of_dest {b : Block} (h : ∀ j ∈ b.jumps, j.isTerminator = true) {i' : Instr}
    (hi' : i' ∈ (foldBlock f b).instrs) {t : Temp} (ht : i'.dest? = some t) : (f.value t).constant? = none := by
  rcases List.mem_append.1 hi' with hi' | hj'
  · obtain ⟨i, -, hkeeps, rfl⟩ := Rewriting.mem_body.1 hi'
    rw [Rewriting.dest?_instr] at ht
    simp only [rewriting, Bool.and_eq_true, Bool.not_eq_true', definesConstant, ht] at hkeeps
    simpa using hkeeps.2
  · obtain ⟨j, hj, rfl⟩ := List.mem_map.1 hj'
    rw [Instr.dest?_mapOperands, Instr.dest?_of_isTerminator (isTerminator_of_mem_resolveJumps h hj)] at ht
    cases ht

/-- No constant is known for what a block reads after the folding. -/
theorem constant?_of_read {b : Block} {i' : Instr} (hi' : i' ∈ (foldBlock f b).instrs) {t : Temp}
    (ht : t ∈ i'.usedTemps) : (f.value t).constant? = none := by
  obtain ⟨o, ho⟩ := exists_fold_of_mem_foldBlock hi' (Instr.mem_usedTemps.1 ht)
  exact constant?_of_fold ho

/-! ## Bodies -/

theorem remains_instr (l : Label) (i : Instr) :
    Remains (Folding.folded ⟨analyze c, c⟩) l i ((rewriting (analyze c)).instr l i) where
  dest := Rewriting.dest?_instr _ l i
  phi := Rewriting.isPhi_instr _ l i
  labels := by
    have hpreds : ∀ k, (analyze c).follows k l = ((Folding.folded ⟨analyze c, c⟩).predecessors l).contains k :=
      fun k => by
        rw [Bool.eq_iff_iff, ← edge_folded, List.contains_iff_mem, Cfg.mem_predecessors]
    cases i with
    | phi dest sources =>
      simp only [Rewriting.instr, Instr.sources?, rewriting, Option.map_some, PhiSources.labels_mapOperands,
        PhiSources.labels_filter, hpreds]
    | _ => rfl

/-! ## The folded graph -/

/-- The graph that folding leaves is clean, whether or not it leaves a violation of SSA form. -/
theorem clean_foldConstants (h : c.Valid) (hjumps : ∀ b ∈ c.blocks, ∀ j ∈ b.jumps, j.isTerminator = true) :
    Clean (analyze c) c (foldConstants c).1.cfg where
  validate := (valid_folded h).validate
  reachable b' hb' := by
    obtain ⟨b, -, hx, rfl⟩ := mem_folded.1 hb'
    exact reachable_of_executes hx
  closed b' hb' := by
    obtain ⟨b, -, -, rfl⟩ := mem_folded.1 hb'
    exact isClosed_foldBlock _ b
  edge _ _ := Cfg.mem_edges.trans (edge_folded.trans List.contains_iff_mem)
  remains b' hb' := by
    obtain ⟨b, hb, -, rfl⟩ := mem_folded.1 hb'
    refine ⟨b, hb, rfl, b.body.filter (rewriting (analyze c)).keeps, List.filter_sublist, ?_⟩
    exact List.forall₂_map_right_iff.2 (List.forall₂_same.2 fun i _ => remains_instr b.label i)
  branch b' hb' cond o l hj := by
    obtain ⟨b, -, -, rfl⟩ := mem_folded.1 hb'
    obtain ⟨t, rfl, ht⟩ := exists_of_branch_mem_foldBlock hj
    exact ⟨t, rfl, by rw [ht]; rfl⟩
  unread b' hb' i hi t ht := by
    obtain ⟨b, -, -, rfl⟩ := mem_folded.1 hb'
    exact constant?_of_read hi ht
  unwritten b' hb' i hi t ht := by
    obtain ⟨b, hb, -, rfl⟩ := mem_folded.1 hb'
    exact constant?_of_dest (hjumps b hb) hi ht

/-- A block is deleted and a constant disappears; the loop of `countdown` stays. -/
theorem clean_foldConstants_countdown : countdown.Valid ∧
    (∀ b ∈ countdown.blocks, ∀ j ∈ b.jumps, j.isTerminator = true) ∧ (foldConstants countdown).2 = none ∧
    Clean (analyze countdown) countdown (foldConstants countdown).1.cfg := by
  have hvalid : Cfg.ofBlocks countdown.proc countdown.blocks = .ok countdown := rfl
  have hjumps : ∀ b ∈ countdown.blocks, ∀ j ∈ b.jumps, j.isTerminator = true := by decide
  have hv := (Cfg.ofBlocks_eq_ok.1 hvalid).2.2
  exact ⟨hv, hjumps, rfl, clean_foldConstants hv hjumps⟩

end ThreeAddress.Constants

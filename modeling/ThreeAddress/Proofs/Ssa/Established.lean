import Mathlib.Algebra.BigOperators.Group.List.Basic
import Mathlib.Algebra.Group.Nat.Defs
import Mathlib.Data.List.Dedup
import ThreeAddress.Proofs.Ssa.Form
/-!
# What SSA construction establishes

The form of a graph after SSA construction, block by block and place by place (`Ssa.Established`): every local that is
written has a new version for a name, and every read names the latest definition before it in its block, where there is
one (`Ssa.latest?`). In a block that has predecessors there is one for every local, since phis are put in for all of
them; such a phi reads what is the latest name at the end of each predecessor. Which names are meant is told by the old
body with these phis in front of it, under the old names (`Ssa.opened`).
-/

namespace ThreeAddress

/-! ## Distinct locals -/

theorem Temp.lt_trans {t u v : Temp} (h : t < u) (h' : u < v) : t < v := String.lt_trans h h'

namespace Ssa

theorem nodup_locals (params : List Temp) (c : Cfg) : (locals params c).Nodup :=
  (pairwise_ascending (fun _ _ _ => Temp.lt_trans) _).imp fun {_ _} h => by
    rintro rfl
    exact String.lt_irrefl _ h

/-- The locals are the parameters and the other locals that are written, each counted once. -/
theorem length_locals (params : List Temp) (c : Cfg) :
    (locals params c).length = (params ++ c.instrs.filterMap Instr.localDest?).dedup.length := by
  refine List.Perm.length_eq ((List.perm_ext_iff_of_nodup (nodup_locals params c) (List.nodup_dedup _)).2 fun t => ?_)
  rw [List.mem_dedup, mem_locals, List.mem_append, List.mem_filterMap]

/-! ## The latest names -/

/-- The name that the last of the instructions `is` to write a local gives it, where `is'` are the same instructions
under new names. -/
def latest? : List Instr → List Instr → Temp → Option Temp
  | i :: is, i' :: is', t => (latest? is is' t).or (if i.localDest? = some t then i'.dest? else none)
  | _, _, _ => none

/-- An operand under the latest names; what has none is read under its own. -/
def reaching (is is' : List Instr) : Operand → Operand
  | .temp t => .temp ((latest? is is' t).getD t)
  | .imm value => .imm value

theorem latest?_map {f : Instr → Instr} (hf : ∀ i, (f i).dest? = i.dest?) (is is' : List Instr) (t : Temp) :
    latest? is (is'.map f) t = latest? is is' t := by
  induction is generalizing is' with
  | nil => cases is' <;> rfl
  | cons i is ih =>
    cases is' with
    | nil => rfl
    | cons i' is' => rw [List.map_cons, latest?, latest?, ih, hf]

theorem reaching_map {f : Instr → Instr} (hf : ∀ i, (f i).dest? = i.dest?) (is is' : List Instr) :
    reaching is (is'.map f) = reaching is is' := by
  funext o
  cases o with
  | imm value => rfl
  | temp t => rw [reaching, reaching, latest?_map hf]

theorem Step.get?_eq {vs vs' : Versions} {i i' : Instr} (h : Step vs i i' vs') (t : Temp) :
    vs'.get? t = (if i.localDest? = some t then i'.dest? else none).or (vs.get? t) := by
  cases h with
  | keep hd => simp [hd]
  | @write u x hd =>
    have hdest : ((renameUses vs i).withDest x).dest? = some x :=
      Instr.dest?_withDest (by simpa using (Instr.localDest?_eq_some.1 hd).1)
    rw [Table.get?_set, hd, hdest]
    by_cases ht : t = u <;> simp [ht, eq_comm]

namespace Renames

variable {vs vs' : Versions} {is is' : List Instr}

/-- The versions behind instructions are the latest names. -/
theorem get?_eq (h : Renames vs is is' vs') (t : Temp) : vs'.get? t = (latest? is is' t).or (vs.get? t) := by
  induction h with
  | nil => rfl
  | cons hstep _ ih => rw [ih, hstep.get?_eq, latest?, Option.or_assoc]

theorem rename_eq (h : Renames ∅ is is' vs') : rename vs' = reaching is is' := by
  funext o
  cases o with
  | imm value => rfl
  | temp t => simp [rename_temp, reaching, h.get?_eq t]

theorem length_eq (h : Renames vs is is' vs') : is'.length = is.length := by
  induction h with
  | nil => rfl
  | cons _ _ ih => exact congrArg (· + 1) ih

/-- The instructions at one place, and those before it. -/
theorem exists_step (h : Renames vs is is' vs') {k : Nat} {i i' : Instr} (hi : is[k]? = some i)
    (hi' : is'[k]? = some i') :
    ∃ vs₁ vs₂, Renames vs (is.take k) (is'.take k) vs₁ ∧ Step vs₁ i i' vs₂ := by
  induction h generalizing k with
  | nil => cases hi
  | @cons vs vs₁ _ _ _ _ _ hstep _ ih =>
    cases k with
    | zero =>
      cases hi
      cases hi'
      exact ⟨vs, vs₁, .nil vs, hstep⟩
    | succ k =>
      obtain ⟨vs₂, vs₃, hbefore, hstep'⟩ := ih hi hi'
      exact ⟨vs₂, vs₃, .cons hstep hbefore, hstep'⟩

end Renames

/-! ## The form -/

/-- The body of a block with the phis that are put in, under the old names. -/
def opened (params : List Temp) (c : Cfg) (b : Block) : List Instr := headPhis params c b ++ b.body

/-- The temporary occurs in a procedure: as a parameter, or where an instruction writes or reads it. -/
def Occurs (params : List Temp) (c : Cfg) (t : Temp) : Prop :=
  t ∈ params ∨ ∃ i ∈ c.instrs, i.dest? = some t ∨ t ∈ i.usedTemps

/-- The temporary is a parameter or is written, and it is no global. -/
def IsLocal (params : List Temp) (c : Cfg) (t : Temp) : Prop :=
  t.isGlobal = false ∧ (t ∈ params ∨ ∃ i ∈ c.instrs, i.dest? = some t)

/-- The instruction `i` reads, as `i'`, the latest names behind `is`, and in a block with predecessors there is such a
name for every local. -/
structure ReadsLatest (params : List Temp) (c : Cfg) (b : Block) (is is' : List Instr) (i i' : Instr) : Prop where
  uses_eq : i'.uses = i.uses.map (reaching is is')
  isSome : c.predecessors b.label ≠ [] → ∀ t, IsLocal params c t → (latest? is is' t).isSome = true

/-- The block `b'` of the graph `c'` is the block `b` of `c` in SSA form. -/
structure EstablishedAt (params : List Temp) (c c' : Cfg) (b b' : Block) : Prop where
  length_eq : b'.body.length = (opened params c b).length
  read {k : Nat} {i i' : Instr} : (opened params c b)[k]? = some i → b'.body[k]? = some i' → i.isPhi = false →
    ReadsLatest params c b ((opened params c b).take k) (b'.body.take k) i i'
  jump : List.Forall₂ (fun j j' => j.isPhi = false → ReadsLatest params c b (opened params c b) b'.body j j')
    b.jumps b'.jumps
  /-- The phi that is put in for a local has one source for each predecessor: the latest name at its end. -/
  phi {k : Nat} {t : Temp} : c.predecessors b.label ≠ [] → (locals params c)[k]? = some t →
    ∃ x sources, b'.body[k]? = some (.phi x sources) ∧ sources.labels.Perm (c.predecessors b.label) ∧
      ∀ {l : Label} {p p' : Block}, l ∈ sources.labels → c.block? l = some p → c'.block? l = some p' →
        sources.find? l = some (reaching (opened params c p) p'.body (.temp t))

/-- The graph `c'` is `c` in SSA form. -/
structure Established (params : List Temp) (c c' : Cfg) : Prop where
  labels_eq : c'.labels = c.labels
  single : c'.isSingleAssignment = true
  /-- The names of locals that are written are new versions. -/
  dest {i : Instr} {x : Temp} : i ∈ c'.instrs → i.localDest? = some x → x.isVersioned = true ∧ ¬ Occurs params c x
  block {l : Label} {b b' : Block} : c.block? l = some b → c'.block? l = some b' → EstablishedAt params c c' b b'

/-! ## Renaming establishes it -/

theorem nodup_predecessors {c : Cfg} (h : c.labels.Nodup) (l : Label) : (c.predecessors l).Nodup :=
  h.sublist (List.filter_sublist.map _)

theorem labels_ofList_perm {ls : List Label} (h : ls.Nodup) (o : Operand) :
    (PhiSources.ofList (ls.map fun l => (l, o))).labels.Perm ls := by
  refine (List.perm_ext_iff_of_nodup (PhiSources.nodup_labels _) h).2 fun l => ?_
  rw [PhiSources.mem_labels, find?_ofList]
  by_cases hl : l ∈ ls <;> simp [hl]

theorem isLocal_iff {params : List Temp} {c : Cfg} {t : Temp} :
    IsLocal params c t ↔ t.isGlobal = false ∧ t ∈ locals params c := by
  unfold IsLocal
  rw [mem_locals]
  refine and_congr_right fun ht => or_congr_right (exists_congr fun i => and_congr_right fun _ => ?_)
  simp [Instr.localDest?_eq_some, ht]

theorem mem_taken_of_occurs {params : List Temp} {c : Cfg} {t : Temp} (h : Occurs params c t) :
    t ∈ taken params c := by
  rcases h with h | ⟨i, hi, h | h⟩
  · exact List.mem_append_left _ (List.mem_append_left _ h)
  · exact mem_taken_of_written hi h
  · exact mem_taken_of_used hi h

/-- In front of everything but the phis that are put in, there is one of them for every local. -/
theorem exists_headPhi {params : List Temp} {c : Cfg} {b : Block} (hpred : c.predecessors b.label ≠ [])
    {is : List Instr} (his : headPhis params c b ⊆ is) {t : Temp} (ht : IsLocal params c t) :
    ∃ i ∈ is, i.localDest? = some t := by
  obtain ⟨hlocal, hmem⟩ := isLocal_iff.1 ht
  exact ⟨_, his (mem_headPhis.2 ⟨hpred, t, hmem, rfl⟩), Instr.localDest?_eq_some.2 ⟨rfl, hlocal⟩⟩

theorem headPhis_subset_take {params : List Temp} {c : Cfg} {b : Block} {k : Nat} {i : Instr}
    (hi : (opened params c b)[k]? = some i) (hphi : i.isPhi = false) :
    headPhis params c b ⊆ (opened params c b).take k := by
  have hk : (headPhis params c b).length ≤ k := by
    by_contra hk
    rw [opened, List.getElem?_append_left (by omega)] at hi
    simp [isPhi_headPhis i (List.mem_of_getElem? hi)] at hphi
  rw [opened, List.take_append, List.take_of_length_le hk]
  exact List.subset_append_left _ _

namespace Renaming

variable {params : List Temp} {c : Cfg} (r : Renaming params c) {b : Block}

theorem body_block (b : Block) : (r.block b).body = (r.body b).map (resolveSources r.exits) := rfl

/-- What is read under the versions behind instructions of a block reads the latest names in the new block. -/
theorem readsLatest {is is' : List Instr} {vs : Versions} (h : Renames ∅ is is' vs)
    (his : headPhis params c b ⊆ is) {i i' : Instr} (huses : i'.uses = i.uses.map (rename vs)) :
    ReadsLatest params c b is (is'.map (resolveSources r.exits)) i i' := by
  refine ⟨?_, fun hpred t ht => ?_⟩
  · rw [huses, h.rename_eq, reaching_map (dest?_resolveSources r.exits)]
  · have hsome := h.isSome_get? (.inr (exists_headPhi hpred his ht))
    rw [latest?_map (dest?_resolveSources r.exits)]
    simpa [h.get?_eq t] using hsome

/-- The versions at the end of a block are the latest names in the new block. -/
theorem rename_ends (hb : b ∈ c.blocks) :
    rename (r.ends b) = reaching (opened params c b) (r.block b).body := by
  rw [(r.renames b hb).rename_eq, body_block, reaching_map (dest?_resolveSources r.exits)]
  rfl

theorem length_block (hb : b ∈ c.blocks) : (r.block b).body.length = (opened params c b).length := by
  rw [body_block, List.length_map, (r.renames b hb).length_eq, opened]

/-- The instruction at a place of a new block, before the sources of phis are resolved. -/
theorem exists_step (hb : b ∈ c.blocks) {k : Nat} {i i' : Instr} (hi : (opened params c b)[k]? = some i)
    (hi' : (r.block b).body[k]? = some i') : ∃ i₀ vs vs', i' = resolveSources r.exits i₀ ∧ Step vs i i₀ vs' ∧
      Renames ∅ ((opened params c b).take k) ((r.body b).take k) vs := by
  rw [body_block, List.getElem?_map] at hi'
  obtain ⟨i₀, hi₀, rfl⟩ := Option.map_eq_some_iff.1 hi'
  obtain ⟨vs, vs', hbefore, hstep⟩ := (r.renames b hb).exists_step hi hi₀
  exact ⟨i₀, vs, vs', rfl, hstep, hbefore⟩

theorem read_block (hb : b ∈ c.blocks) {k : Nat} {i i' : Instr} (hi : (opened params c b)[k]? = some i)
    (hi' : (r.block b).body[k]? = some i') (hphi : i.isPhi = false) :
    ReadsLatest params c b ((opened params c b).take k) ((r.block b).body.take k) i i' := by
  obtain ⟨i₀, vs, vs', rfl, hstep, hbefore⟩ := r.exists_step hb hi hi'
  rw [resolveSources_of_not_phi (hstep.isPhi_eq.trans hphi), body_block, ← List.map_take]
  exact r.readsLatest hbefore (headPhis_subset_take hi hphi) (hstep.uses_eq hphi)

theorem jump_block (hb : b ∈ c.blocks) : List.Forall₂ (fun j j' => j.isPhi = false →
    ReadsLatest params c b (opened params c b) (r.block b).body j j') b.jumps (r.block b).jumps := by
  refine List.forall₂_map_right_iff.2 (List.forall₂_same.2 fun j _ hphi => ?_)
  refine r.readsLatest (r.renames b hb) (List.subset_append_left _ _) ?_
  rw [renameUses_of_not_phi _ hphi, Instr.uses_mapOperands]

/-- A phi that is put in has one source for each predecessor. -/
theorem phi_block (hnodup : c.labels.Nodup) (hb : b ∈ c.blocks) {k : Nat} {t : Temp}
    (hpred : c.predecessors b.label ≠ []) (ht : (locals params c)[k]? = some t) :
    ∃ x sources, (r.block b).body[k]? = some (.phi x sources) ∧
      sources.labels.Perm (c.predecessors b.label) ∧
      ∀ p ∈ c.blocks, p.label ∈ sources.labels →
        sources.find? p.label = some (reaching (opened params c p) (r.block p).body (.temp t)) := by
  have hi : (opened params c b)[k]? = some (phiFor (c.predecessors b.label) t) := by
    have hk : k < (headPhis params c b).length := by
      simpa [headPhis, hpred] using (List.getElem?_eq_some_iff.1 ht).1
    rw [opened, List.getElem?_append_left hk]
    simp [headPhis, hpred, ht]
  obtain ⟨i', hi'⟩ : ∃ i', (r.block b).body[k]? = some i' :=
    ⟨_, List.getElem?_eq_getElem (r.length_block hb ▸ (List.getElem?_eq_some_iff.1 hi).1)⟩
  obtain ⟨i₀, vs, vs', rfl, hstep, -⟩ := r.exists_step hb hi hi'
  obtain ⟨x, rfl⟩ := hstep.of_phi
  have hlabels := labels_ofList_perm (nodup_predecessors hnodup b.label) (.temp t)
  refine ⟨x, _, hi', by rwa [PhiSources.labels_mapOperands], fun p hp hl => ?_⟩
  rw [PhiSources.labels_mapOperands, hlabels.mem_iff] at hl
  rw [PhiSources.find?_mapOperands, find?_ofList, if_pos hl, Option.map_some, r.resolve_of_mem hp, r.rename_ends hp]

/-- The names of locals that are written are new versions. -/
theorem dest_cfg (hjumps : ∀ b ∈ c.blocks, ∀ j ∈ b.jumps, j.localDest? = none) {i' : Instr} {x : Temp}
    (hi' : i' ∈ r.cfg.instrs) (hx : i'.localDest? = some x) : x.isVersioned = true ∧ ¬ Occurs params c x := by
  obtain ⟨b', hb', hi'⟩ := mem_instrs.1 hi'
  obtain ⟨b, hb, rfl⟩ := r.mem_cfg.1 hb'
  rcases hi' with hi' | hi'
  · obtain ⟨i₀, hi₀, rfl⟩ := List.mem_map.1 hi'
    have hx : i₀.localDest? = some x := by simpa [Instr.localDest?] using hx
    obtain ⟨i, -, vs, vs', hstep⟩ := (r.renames b hb).exists_of_mem hi₀
    refine ⟨?_, fun h => r.notMem b hb x (List.mem_filterMap.2 ⟨i₀, hi₀, hx⟩) (mem_taken_of_occurs h)⟩
    rcases hstep.localDest?_cases with ⟨-, hnone⟩ | ⟨t, y, -, hy, hkind⟩
    · cases hnone.symm.trans hx
    · cases hy.symm.trans hx
      exact decide_eq_true hkind
  · obtain ⟨j, hj, rfl⟩ := List.mem_map.1 hi'
    have hnone : (renameUses (r.ends b) j).localDest? = none := by
      simpa [Instr.localDest?] using hjumps b hb j hj
    cases hnone.symm.trans hx

theorem established (h : c.Valid) (hjumps : ∀ b ∈ c.blocks, ∀ j ∈ b.jumps, j.localDest? = none) :
    Established params c r.cfg where
  labels_eq := Cfg.labels_mapBlocks r.label_block c
  single := by
    rw [Cfg.isSingleAssignment, decide_eq_true_iff, writtenLocals_eq]
    exact r.nodup
  dest := r.dest_cfg hjumps
  block {l b b'} hb hb' := by
    have hblock : ∀ {l p p'}, c.block? l = some p → r.cfg.block? l = some p' →
        p ∈ c.blocks ∧ p.label = l ∧ p' = r.block p := by
      intro l p p' hp hp'
      rw [cfg, Cfg.block?_mapBlocks r.label_block, hp] at hp'
      exact ⟨Cfg.mem_of_block? hp, Cfg.label_of_block? hp, (Option.some.inj hp').symm⟩
    obtain ⟨hmem, -, rfl⟩ := hblock hb hb'
    refine ⟨r.length_block hmem, r.read_block hmem, r.jump_block hmem, fun hpred ht => ?_⟩
    obtain ⟨x, sources, hi, hlabels, hfind⟩ := r.phi_block h.nodup hmem hpred ht
    refine ⟨x, sources, hi, hlabels, fun hl hp hp' => ?_⟩
    obtain ⟨hpmem, rfl, rfl⟩ := hblock hp hp'
    exact hfind _ hpmem hl

/-- As many phis are put in as there are locals, for every block that has predecessors. -/
theorem length_bodies : r.cfg.bodies.length = c.bodies.length +
    c.blocks.countP (fun b => c.predecessors b.label ≠ []) * (locals params c).length := by
  have hlength : ∀ b ∈ c.blocks, (r.block b).body.length =
      b.body.length + if c.predecessors b.label ≠ [] then (locals params c).length else 0 := by
    intro b hb
    rw [r.length_block hb, opened, List.length_append, Nat.add_comm]
    unfold headPhis
    by_cases hpred : c.predecessors b.label = [] <;> simp [hpred]
  simp only [Cfg.bodies, List.length_flatMap, cfg, Cfg.mapBlocks, List.map_map]
  rw [← sum_map_ite (fun b : Block => c.predecessors b.label ≠ []), ← List.sum_map_add]
  exact congrArg List.sum (List.map_congr_left hlength)

end Renaming

theorem phiCount_eq (params : List Temp) (c : Cfg) : phiCount params c =
    c.blocks.countP (fun b => c.predecessors b.label ≠ []) *
      (params ++ c.instrs.filterMap Instr.localDest?).dedup.length := by
  rw [phiCount, length_locals, ← List.countP_eq_length_filter]
  congr 2
  funext b
  cases c.predecessors b.label <;> rfl

end Ssa

/-- SSA construction, in whatever order the blocks are visited, puts a valid graph into SSA form, if nothing but the
bodies of its blocks writes locals. So many phis are put in as are reported: one for each block that has predecessors
and each parameter or other local that is written. -/
theorem established_ssaVisiting {c : Cfg} (h : c.Valid)
    (hjumps : ∀ b ∈ c.blocks, ∀ j ∈ b.jumps, j.localDest? = none) (params : List Temp) {visit : List Label}
    (hvisit : ∀ l ∈ c.labels, l ∈ visit) :
    Ssa.Established params c (c.ssaVisiting visit params) ∧
      (c.ssaVisiting visit params).bodies.length = c.bodies.length + Ssa.phiCount params c ∧
      Ssa.phiCount params c = c.blocks.countP (fun b => c.predecessors b.label ≠ []) *
        (params ++ c.instrs.filterMap Instr.localDest?).dedup.length := by
  obtain ⟨r, hssa⟩ := Ssa.exists_renaming h params hvisit
  have hcount := Ssa.phiCount_eq params c
  rw [hssa]
  refine ⟨r.established h hjumps, ?_, hcount⟩
  rw [hcount, ← Ssa.length_locals]
  exact r.length_bodies

/-- A local, another one that is spelled like a version of it, and a phi that is there already. -/
def entangled : Cfg where
  proc := "@main"
  entry := ⟨"E"⟩
  blocks := [
    ⟨⟨"E"⟩, [.binary ⟨"%x"⟩ .add (.temp ⟨"%x"⟩) (.imm 1), .copy ⟨"%x.0"⟩ (.temp ⟨"%x"⟩), .copy ⟨"@g"⟩ (.temp ⟨"%y"⟩)],
      [.branch .jz (.temp ⟨"%x"⟩) ⟨"L"⟩, .jump ⟨"L"⟩]⟩,
    ⟨⟨"L"⟩, [.phi ⟨"%.5"⟩ (.ofList [(⟨"E"⟩, .temp ⟨"%x.0"⟩)]),
        .binary ⟨"%x"⟩ .add (.temp ⟨"%.5"⟩) (.temp ⟨"%x"⟩)],
      [.branch .jz (.temp ⟨"%x"⟩) ⟨"L"⟩, .ret (some (.temp ⟨"%x.0"⟩))]⟩]

/-- The counters of both go by one base name, and `%y` keeps its name. -/
theorem established_ssa_entangled :
    entangled.Valid ∧ (∀ b ∈ entangled.blocks, ∀ j ∈ b.jumps, j.localDest? = none) ∧
      (∀ l ∈ entangled.labels, l ∈ entangled.labels) ∧
      (entangled.ssa [⟨"%x"⟩]).text = String.join [
        "cfg @main (entry E):\nE:\n  %x.1 = add %x, 1;\n  %x.2 = copy %x.1;\n  @g = copy %y;\n",
        "  jz %x.1, L;\n  jmp L;\nL:\n  %.5.0 = phi(E: %.5, L: %.5.1);\n  %x.3 = phi(E: %x.1, L: %x.5);\n",
        "  %x.4 = phi(E: %x.2, L: %x.4);\n  %.5.1 = phi(E: %x.2);\n  %x.5 = add %.5.1, %x.3;\n  jz %x.5, L;\n",
        "  ret %x.4;\n"] ∧
      Ssa.Established [⟨"%x"⟩] entangled (entangled.ssa [⟨"%x"⟩]) ∧
      (entangled.ssa [⟨"%x"⟩]).bodies.length = entangled.bodies.length + Ssa.phiCount [⟨"%x"⟩] entangled ∧
      Ssa.phiCount [⟨"%x"⟩] entangled = entangled.blocks.countP (fun b => entangled.predecessors b.label ≠ []) *
        (([⟨"%x"⟩] : List Temp) ++ entangled.instrs.filterMap Instr.localDest?).dedup.length := by
  have hvalid : Cfg.ofBlocks entangled.proc entangled.blocks = .ok entangled := rfl
  have hjumps : ∀ b ∈ entangled.blocks, ∀ j ∈ b.jumps, j.localDest? = none := by decide
  have hv := (Cfg.ofBlocks_eq_ok.1 hvalid).2.2
  exact ⟨hv, hjumps, fun _ hl => hl, by decide +kernel, established_ssaVisiting hv hjumps _ fun _ hl => hl⟩

/-- A block in which a local is written behind the body. -/
def writtenBehind : Cfg where
  proc := "@main"
  entry := ⟨"A"⟩
  blocks := [⟨⟨"A"⟩, [], [.const ⟨"%x"⟩ 1, .ret (some (.temp ⟨"%x"⟩))]⟩]

/-- What is written behind the body keeps its name. -/
theorem not_established_writtenBehind : writtenBehind.Valid ∧
    ¬ Ssa.Established [] writtenBehind (writtenBehind.ssa []) := by
  have hvalid : Cfg.ofBlocks writtenBehind.proc writtenBehind.blocks = .ok writtenBehind := rfl
  refine ⟨(Cfg.ofBlocks_eq_ok.1 hvalid).2.2, fun h => ?_⟩
  have hdest := h.dest (i := .const ⟨"%x"⟩ 1) (x := ⟨"%x"⟩) (by decide) (by decide)
  exact absurd hdest.1 (by decide)

end ThreeAddress

import ThreeAddress.Proofs.Improvement
import ThreeAddress.Proofs.MapBlocks
import ThreeAddress.Proofs.Ssa.Renaming
/-!
# SSA construction makes strict SSA form

A `Renaming` of a graph is what visiting its blocks makes of them, in whatever order
(`exists_renaming`). Every version that a block reads is written before in that block, since each block
that has predecessors begins with a phi for every local. This is what makes the form strict without
any regard to dominance (`Renaming.ssaForm`).
-/

namespace ThreeAddress.Ssa

/-- The phis that are put in front of a block. -/
def headPhis (params : List Temp) (c : Cfg) (b : Block) : List Instr :=
  if c.predecessors b.label = [] then []
  else (locals params c).map (phiFor (c.predecessors b.label))

/-- What renaming makes of the blocks of a graph. -/
structure Renaming (params : List Temp) (c : Cfg) where
  /-- The body of a block; its phis still have the old sources. -/
  body : Block → List Instr
  /-- The versions at the end of a block. -/
  ends : Block → Versions
  /-- The versions at the end of the block of a label. -/
  exits : Label → Option Versions
  exits_eq : ∀ b ∈ c.blocks, exits b.label = some (ends b)
  renames : ∀ b ∈ c.blocks, Renames ∅ (headPhis params c b ++ b.body) (body b) (ends b)
  nodup : (c.blocks.flatMap fun b => dests (body b)).Nodup
  notMem : ∀ b ∈ c.blocks, ∀ x ∈ dests (body b), x ∉ taken params c

namespace Renaming

variable {params : List Temp} {c : Cfg} (r : Renaming params c)

/-- A block after renaming. -/
def block (b : Block) : Block :=
  ⟨b.label, (r.body b).map (resolveSources r.exits), b.jumps.map (renameUses (r.ends b))⟩

def cfg : Cfg := c.mapBlocks r.block

end Renaming

/-! ## Renaming all blocks -/

theorem withPhis_eq (params : List Temp) (c : Cfg) :
    withPhis params c = c.mapBlocks fun b => { b with body := headPhis params c b ++ b.body } := by
  unfold withPhis
  refine congrArg c.mapBlocks (funext fun b => ?_)
  unfold headPhis
  split <;> simp_all

/-- Where every block is visited, what is found under the label of a block is its renaming. -/
theorem exists_renamed {c : Cfg} (h : c.Valid) {g : Block → Block} (hlabel : ∀ b, (g b).label = b.label)
    {visit : List Label} (hvisit : ∀ l ∈ c.labels, l ∈ visit) {rs : List Renamed}
    (hall : ∀ b ∈ visit.filterMap (c.mapBlocks g).block?, ∃ r ∈ rs, RenamesBlock b r)
    (honly : ∀ r ∈ rs, ∃ b ∈ visit.filterMap (c.mapBlocks g).block?, RenamesBlock b r) {b : Block}
    (hb : b ∈ c.blocks) :
    ∃ r ∈ rs, rs.find? (·.block.label == b.label) = some r ∧ RenamesBlock (g b) r := by
  have hblock : (c.mapBlocks g).block? b.label = some (g b) := by
    rw [Cfg.block?_mapBlocks hlabel, h.block?_of_mem hb]
    rfl
  obtain ⟨r₀, hr₀, hlabel₀, -⟩ := hall (g b)
    (List.mem_filterMap.2 ⟨b.label, hvisit _ (List.mem_map_of_mem hb), hblock⟩)
  obtain ⟨r, hr⟩ : ∃ r, rs.find? (·.block.label == b.label) = some r := by
    refine Option.isSome_iff_exists.1 (List.find?_isSome.2 ⟨r₀, hr₀, ?_⟩)
    rw [hlabel₀, hlabel, beq_self_eq_true]
  have hmem := List.mem_of_find?_eq_some hr
  obtain ⟨b₀, hb₀, hb₀r⟩ := honly r hmem
  obtain ⟨l, -, hl⟩ := List.mem_filterMap.1 hb₀
  have hrl : r.block.label = b.label := by simpa using List.find?_some hr
  rw [← Cfg.label_of_block? hl, ← hb₀r.1, hrl, hblock] at hl
  exact ⟨r, hmem, hr, Option.some.inj hl ▸ hb₀r⟩

/-- If every block is visited, all are renamed. -/
theorem exists_renaming {c : Cfg} (h : c.Valid) (params : List Temp) {visit : List Label}
    (hvisit : ∀ l ∈ c.labels, l ∈ visit) : ∃ r : Renaming params c, c.ssaVisiting visit params = r.cfg := by
  let g : Block → Block := fun b => { b with body := headPhis params c b ++ b.body }
  have hlabel : ∀ b, (g b).label = b.label := fun _ => rfl
  unfold Cfg.ssaVisiting
  rw [show withPhis params c = c.mapBlocks g from withPhis_eq params c]
  unfold renameAll
  obtain ⟨hall, honly, counters, hissued⟩ :=
    renameBlocks_spec (visit.filterMap (c.mapBlocks g).block?) (issued_nil (taken params c))
  generalize renameBlocks (taken params c) ∅ (visit.filterMap (c.mapBlocks g).block?) = rs at *
  rw [List.nil_append] at hissued
  -- What has been renamed is looked up by label, so that the order of visits does not matter.
  let find? (l : Label) : Option Renamed := rs.find? (·.block.label == l)
  have hfind : ∀ b ∈ c.blocks, ∃ r ∈ rs, find? b.label = some r ∧ RenamesBlock (g b) r :=
    fun b hb => exists_renamed h hlabel hvisit hall honly hb
  have hnodup := List.nodup_flatMap.1 hissued.nodup
  refine ⟨⟨fun b => ((find? b.label).map (·.block.body)).getD [],
    fun b => ((find? b.label).map Renamed.exits).getD ∅, fun l => (find? l).map Renamed.exits,
    ?_, ?_, ?_, ?_⟩, ?_⟩
  · intro b hb
    obtain ⟨r, -, hr, -⟩ := hfind b hb
    simp [hr]
  · intro b hb
    obtain ⟨r, -, hr, hbr⟩ := hfind b hb
    simpa [hr] using hbr.2.1
  · refine List.nodup_flatMap.2 ⟨fun b hb => ?_, ?_⟩
    · obtain ⟨r, hmem, hr, -⟩ := hfind b hb
      simpa [hr] using hnodup.1 r hmem
    · refine (List.pairwise_map.1 h.nodup).imp_of_mem fun {b b'} hb hb' hne => ?_
      obtain ⟨r, hmem, hr, hbr⟩ := hfind b hb
      obtain ⟨r', hmem', hr', hbr'⟩ := hfind b' hb'
      have hne : r ≠ r' := fun he => hne (by rw [← hlabel b, ← hbr.1, he, hbr'.1])
      have : Std.Symm (Function.onFun List.Disjoint fun r : Renamed => dests r.block.body) :=
        ⟨fun _ _ h _ h₁ h₂ => h h₂ h₁⟩
      simpa [Function.onFun, hr, hr'] using hnodup.2.forall hmem hmem' hne
  · intro b hb x hx
    obtain ⟨r, hmem, hr, -⟩ := hfind b hb
    exact hissued.notMem x (List.mem_flatMap.2 ⟨r, hmem, by simpa [hr] using hx⟩)
  · simp only [Renaming.cfg, Cfg.mapBlocks, List.map_map]
    congr 1
    refine List.map_congr_left fun b hb => ?_
    obtain ⟨r, -, hr, hbr⟩ := hfind b hb
    have hr' : rs.find? (fun r => r.block.label == (g b).label) = some r := hr
    simp only [Function.comp_apply, hr', Renaming.block, hr, hbr.1, hbr.2.2, Option.map_some,
      Option.getD_some]
    rfl

/-! ## Phis -/

theorem mem_locals {params : List Temp} {c : Cfg} {t : Temp} :
    t ∈ locals params c ↔ t ∈ params ∨ ∃ i ∈ c.instrs, i.localDest? = some t := by
  simp only [locals, mem_ascending fun _ _ => Temp.eq_of_not_lt, List.mem_append, List.mem_filterMap]

theorem mem_taken_of_mem_locals {params : List Temp} {c : Cfg} {t : Temp} (h : t ∈ locals params c) :
    t ∈ taken params c := by
  simp only [taken, List.mem_append, List.mem_filterMap]
  rcases mem_locals.1 h with h | ⟨i, hi, hd⟩
  · exact .inl (.inl h)
  · exact .inl (.inr ⟨i, hi, (Instr.localDest?_eq_some.1 hd).1⟩)

theorem mem_instrs {c : Cfg} {i : Instr} : i ∈ c.instrs ↔ ∃ b ∈ c.blocks, i ∈ b.body ∨ i ∈ b.jumps := by
  simp [Cfg.instrs, Block.instrs]

theorem mem_taken_of_written {params : List Temp} {c : Cfg} {i : Instr} {t : Temp} (hi : i ∈ c.instrs)
    (ht : i.dest? = some t) : t ∈ taken params c := by
  simp only [taken, List.mem_append, List.mem_filterMap]
  exact .inl (.inr ⟨i, hi, ht⟩)

theorem mem_taken_of_used {params : List Temp} {c : Cfg} {i : Instr} {t : Temp} (hi : i ∈ c.instrs)
    (ht : t ∈ i.usedTemps) : t ∈ taken params c := by
  simp only [taken, List.mem_append, List.mem_flatMap]
  exact .inr ⟨i, hi, ht⟩

theorem mem_headPhis {params : List Temp} {c : Cfg} {b : Block} {i : Instr} :
    i ∈ headPhis params c b ↔ c.predecessors b.label ≠ [] ∧
      ∃ t ∈ locals params c, phiFor (c.predecessors b.label) t = i := by
  unfold headPhis
  split <;> simp_all

theorem find?_ofList {ls : List Label} {o : Operand} {k : Label} :
    (PhiSources.ofList (ls.map fun l => (l, o))).find? k = if k ∈ ls then some o else none := by
  have key : ∀ (ls : List Label) (s : PhiSources),
      ((ls.map fun l => (l, o)).foldl (fun s e => s.insert e.1 e.2) s).find? k =
        if k ∈ ls then some o else s.find? k := by
    intro ls
    induction ls with
    | nil => simp
    | cons l ls ih =>
      intro s
      rw [List.map_cons, List.foldl_cons, ih, PhiSources.find?_insert]
      by_cases hk : k = l <;> simp [hk]
  simpa [PhiSources.ofList] using key ls ∅

@[simp] theorem dest?_resolveSources (exits : Label → Option Versions) (i : Instr) :
    (resolveSources exits i).dest? = i.dest? := by
  cases i <;> rfl

@[simp] theorem isPhi_resolveSources (exits : Label → Option Versions) (i : Instr) :
    (resolveSources exits i).isPhi = i.isPhi := by
  cases i <;> rfl

@[simp] theorem isTerminator_resolveSources (exits : Label → Option Versions) (i : Instr) :
    (resolveSources exits i).isTerminator = i.isTerminator := by
  cases i <;> rfl

@[simp] theorem label?_resolveSources (exits : Label → Option Versions) (i : Instr) :
    (resolveSources exits i).label? = i.label? := by
  cases i <;> rfl

theorem resolveSources_of_not_phi {exits : Label → Option Versions} {i : Instr} (h : i.isPhi = false) :
    resolveSources exits i = i := by
  cases i <;> first | rfl | simp [Instr.isPhi] at h

theorem isPhi_headPhis {params : List Temp} {c : Cfg} {b : Block} :
    ∀ i ∈ headPhis params c b, i.isPhi = true := by
  intro i hi
  obtain ⟨-, t, -, rfl⟩ := mem_headPhis.1 hi
  rfl

/-- No edge leads to the entry, so that it gets no phis. -/
theorem headPhis_entry {params : List Temp} {c : Cfg} {b : Block} (h : c.Valid) (hb : b.label = c.entry) :
    headPhis params c b = [] := by
  unfold headPhis
  rw [if_pos]
  refine List.eq_nil_iff_forall_not_mem.2 fun k hk => ?_
  rw [hb, Cfg.mem_predecessors] at hk
  exact h.not_edge_entry k hk

end Ssa

/-- No phi stands in the bodies of a graph. -/
def Cfg.PhiFree (c : Cfg) : Prop := ∀ b ∈ c.blocks, ∀ i ∈ b.body, i.isPhi = false

namespace Ssa.Renaming

variable {params : List Temp} {c : Cfg} (r : Renaming params c) {b : Block}

@[simp] theorem label_block (b : Block) : (r.block b).label = b.label := rfl

@[simp] theorem targets_block (b : Block) : (r.block b).targets = b.targets := by
  rw [Block.targets, block, List.filterMap_map]
  exact List.filterMap_congr fun j _ => target?_renameUses _ j

theorem mem_cfg {b' : Block} : b' ∈ r.cfg.blocks ↔ ∃ b ∈ c.blocks, r.block b = b' := Cfg.mem_mapBlocks

theorem edge_cfg {k l : Label} : r.cfg.Edge k l ↔ c.Edge k l :=
  Cfg.edge_mapBlocks r.label_block fun b _ => r.targets_block b

theorem dests_block (b : Block) : (r.block b).body.filterMap Instr.localDest? = dests (r.body b) := by
  rw [block, List.filterMap_map, dests]
  exact List.filterMap_congr fun i _ => by simp [Instr.localDest?]

theorem writtenLocals_eq : r.cfg.writtenLocals = c.blocks.flatMap fun b => dests (r.body b) := by
  rw [Cfg.writtenLocals_eq_flatMap, cfg, Cfg.mapBlocks, List.flatMap_map]
  exact List.flatMap_congr fun b _ => r.dests_block b

/-- What is written has a new name. -/
theorem notMem_taken {t : Temp} (ht : t ∈ r.cfg.writtenLocals) : t ∉ taken params c := by
  rw [writtenLocals_eq] at ht
  obtain ⟨b, hb, hmem⟩ := List.mem_flatMap.1 ht
  exact r.notMem b hb t hmem

/-- The phis of a renamed block, the added ones first, and what is behind them. -/
theorem exists_split (hb : b ∈ c.blocks) {phis rest : List Instr} (hsplit : b.body = phis ++ rest)
    (hrest : ∀ i ∈ rest, i.isPhi = false) : ∃ group rest' vs,
      r.body b = group ++ rest' ∧ (r.block b).body = group.map (resolveSources r.exits) ++ rest' ∧
        Renames ∅ (headPhis params c b ++ phis) group vs ∧ Renames vs rest rest' (r.ends b) := by
  have hrenames := r.renames b hb
  rw [hsplit, ← List.append_assoc] at hrenames
  obtain ⟨group, rest', vs, hbody, hgroup, hrest'⟩ := Renames.append_iff.1 hrenames
  refine ⟨group, rest', vs, hbody, ?_, hgroup, hrest'⟩
  have hid : rest'.map (resolveSources r.exits) = rest' := by
    conv => rhs; rw [← List.map_id rest']
    exact List.map_congr_left fun i hi => resolveSources_of_not_phi (hrest'.isPhi hrest i hi)
  rw [block, hbody, List.map_append, hid]

/-- A place of a renamed block that is no phi comes from one of the old block, behind the phis that were put in. -/
theorem exists_of_split {pre' post' : List Instr} {i' : Instr} (hb : b ∈ c.blocks)
    (hsplit : (r.block b).body = pre' ++ i' :: post') (hi' : i'.isPhi = false) :
    ∃ done rest pre i post vs vs', r.body b = done ++ rest ∧ pre' = done.map (resolveSources r.exits) ∧
      b.body = pre ++ i :: post ∧ Renames ∅ (headPhis params c b ++ pre) done vs ∧ Step vs i i' vs' := by
  obtain ⟨done, tail, hbody, rfl, htail⟩ := List.map_eq_append_iff.1 hsplit
  obtain ⟨i₀, rest, rfl, hi₀, rfl⟩ := List.map_eq_cons_iff.1 htail
  obtain ⟨before, i, post, vs, vs', hold, hdone, hstep, -⟩ := (r.renames b hb).exists_of_split hbody
  have hphi₀ : i₀.isPhi = false := by rw [← isPhi_resolveSources r.exits, hi₀, hi']
  rw [resolveSources_of_not_phi hphi₀] at hi₀
  subst hi₀
  have hphi : i ∉ headPhis params c b := fun hhead => by
    rw [hstep.isPhi_eq, isPhi_headPhis i hhead] at hphi₀
    cases hphi₀
  rcases List.append_eq_append_iff.1 hold with ⟨pre, rfl, hsplit'⟩ | ⟨between, hhead, hbody'⟩
  · exact ⟨done, _, pre, i, post, vs, vs', hbody, rfl, hsplit', hdone, hstep⟩
  · cases between with
    | nil =>
      rw [List.append_nil] at hhead
      exact ⟨done, _, [], i, post, vs, vs', hbody, rfl, hbody'.symm, by simpa [hhead] using hdone, hstep⟩
    | cons j between =>
      obtain ⟨rfl, -⟩ := List.cons.inj hbody'
      exact absurd (hhead ▸ by simp) hphi

/-- A phi of a renamed block comes from one that was put in or one of the old block. -/
theorem exists_phi (hb : b ∈ c.blocks) {dest : Temp} {sources' : PhiSources}
    (hi : .phi dest sources' ∈ (r.block b).body) : ∃ t sources,
      .phi t sources ∈ headPhis params c b ++ b.body ∧ sources' = sources.mapOperands (resolve r.exits) ∧
        t.isGlobal = dest.isGlobal ∧ (t.isGlobal = true → dest = t) := by
  obtain ⟨i₀, hi₀, heq⟩ := List.mem_map.1 hi
  cases i₀ with
  | phi d s =>
    cases heq
    obtain ⟨i, hmem, vs₁, vs₂, hstep⟩ := (r.renames b hb).exists_of_mem hi₀
    obtain ⟨t, rfl, ht, hglobal⟩ := hstep.phi
    exact ⟨t, s, hmem, rfl, ht, hglobal⟩
  | _ => cases heq

/-- Where there were no phis, a phi of a renamed block reads one local from each predecessor, under the
versions at its end. -/
theorem exists_phiFor (hphi : c.PhiFree) (hb : b ∈ c.blocks) {dest : Temp} {sources : PhiSources}
    (hi : .phi dest sources ∈ (r.block b).body) : ∃ t ∈ locals params c,
      t.isGlobal = dest.isGlobal ∧ (t.isGlobal = true → dest = t) ∧
      ∀ l, sources.find? l =
        if l ∈ c.predecessors b.label then some (resolve r.exits l (.temp t)) else none := by
  obtain ⟨t, s, hmem, rfl, ht, hglobal⟩ := r.exists_phi hb hi
  have hhead : .phi t s ∈ headPhis params c b := by
    refine (List.mem_append.1 hmem).resolve_right fun hbody => ?_
    cases hphi b hb _ hbody
  obtain ⟨-, u, hu, hphi⟩ := mem_headPhis.1 hhead
  cases hphi
  refine ⟨t, hu, ht, hglobal, fun l => ?_⟩
  rw [PhiSources.find?_mapOperands, find?_ofList]
  split <;> rfl

/-- An instruction of a renamed block comes from one of the old block. -/
theorem exists_of_mem (hb : b ∈ c.blocks) {i' : Instr} (hi' : i' ∈ (r.block b).body) :
    ∃ i ∈ headPhis params c b ++ b.body, i'.isPhi = i.isPhi ∧ i'.isTerminator = i.isTerminator ∧
      i'.label? = i.label? := by
  obtain ⟨i₀, hi₀, rfl⟩ := List.mem_map.1 hi'
  obtain ⟨i, hi, _, _, hstep⟩ := (r.renames b hb).exists_of_mem hi₀
  exact ⟨i, hi, by simp [hstep.isPhi_eq], by simp [hstep.isTerminator_eq], by simp [hstep.label?_eq]⟩

theorem jumps_block (h : c.Closed) (hb : b ∈ c.blocks) :
    (r.block b).jumps = b.jumps.map (·.mapOperands (rename (r.ends b))) :=
  List.map_congr_left fun _ hj => renameUses_of_not_phi _ (h.isPhi_of_mem_jumps hb hj)

/-! ## The shape of the blocks -/

theorem endsOnce_block (h : c.Closed) (hb : b ∈ c.blocks) : (r.block b).EndsOnce :=
  (h.endsOnce b hb).map (r.jumps_block h hb)

theorem unlabelled_block (h : c.Closed) (hb : b ∈ c.blocks) : (r.block b).Unlabelled := by
  intro i' hi'
  obtain ⟨i, hi, hold⟩ := r.exists_of_mem hb hi'
  rw [hold.2.2]
  rcases List.mem_append.1 hi with hi | hi
  · obtain ⟨-, t, -, rfl⟩ := mem_headPhis.1 hi
    rfl
  · exact h.unlabelled b hb i hi

theorem phisFirst_block (hb : b ∈ c.blocks) (hp : b.PhisFirst) : (r.block b).PhisFirst := by
  obtain ⟨phis, rest, hsplit, hphis, hrest⟩ := hp
  obtain ⟨group, rest', vs, -, hbody, hgroup, hrest'⟩ := r.exists_split hb hsplit hrest
  refine ⟨_, rest', hbody, fun i hi => ?_, hrest'.isPhi hrest⟩
  obtain ⟨i₀, hi₀, rfl⟩ := List.mem_map.1 hi
  rw [isPhi_resolveSources]
  refine hgroup.isPhi (fun j hj => ?_) i₀ hi₀
  exact (List.mem_append.1 hj).elim (isPhi_headPhis j) (hphis j)

theorem valid_cfg (h : c.Closed) : r.cfg.Valid := by
  refine h.mapBlocks r.label_block (fun b _ => r.targets_block b) ?_ ?_
  · intro b hb l hl
    obtain ⟨dest, sources', hi, hl⟩ := Cfg.mem_sourceLabels.1 hl
    obtain ⟨t, sources, hmem, rfl, -, -⟩ := r.exists_phi hb hi
    rw [PhiSources.labels_mapOperands] at hl
    rcases List.mem_append.1 hmem with hmem | hmem
    · obtain ⟨-, u, -, hu⟩ := mem_headPhis.1 hmem
      cases hu
      obtain ⟨o, ho⟩ := PhiSources.mem_labels.1 hl
      rw [find?_ofList] at ho
      split at ho
      · obtain ⟨p, hp, rfl, -⟩ := Cfg.mem_predecessors.1 ‹_›
        exact List.mem_map_of_mem hp
      · cases ho
    · exact h.source b hb l (Cfg.mem_sourceLabels.2 ⟨t, sources, hmem, hl⟩)
  · intro b hb i' hi'
    obtain ⟨i, hi, hold⟩ := r.exists_of_mem hb hi'
    rw [hold.2.1]
    rcases List.mem_append.1 hi with hi | hi
    · obtain ⟨-, t, -, rfl⟩ := mem_headPhis.1 hi
      rfl
    · exact h.body b hb i hi

/-- The renamed graph can be written as linear code. -/
theorem closed_cfg (h : c.Closed) : r.cfg.Closed where
  toValid := r.valid_cfg h
  endsOnce := by
    intro b' hb'
    obtain ⟨b, hb, rfl⟩ := r.mem_cfg.1 hb'
    exact r.endsOnce_block h hb
  unlabelled := by
    intro b' hb'
    obtain ⟨b, hb, rfl⟩ := r.mem_cfg.1 hb'
    exact r.unlabelled_block h hb

/-! ## Versions are written before they are read -/

/-- A version that is read is written before in the block: other names that are read are old. -/
theorem exists_dest_of_read {pre pre₀ : List Instr} {vs : Versions} (h : Renames ∅ pre pre₀ vs)
    {o : Operand} {t : Temp} (hot : rename vs o = .temp t) (ht : t ∈ r.cfg.writtenLocals)
    (ho : ∀ u, o = .temp u → u ∈ taken params c) :
    ∃ i ∈ pre₀.map (resolveSources r.exits), i.dest? = some t := by
  cases o with
  | imm k => cases hot
  | temp u =>
    rw [rename_temp] at hot
    cases hv : vs.get? u with
    | none =>
      rw [hv] at hot
      cases hot
      exact absurd (ho u rfl) (r.notMem_taken ht)
    | some x =>
      rw [hv] at hot
      cases hot
      obtain ⟨i, hi, hd⟩ := h.writes_of_get? hv
      exact ⟨_, List.mem_map_of_mem hi, by simpa using hd⟩

theorem resolve_of_mem {b : Block} (hb : b ∈ c.blocks) (o : Operand) :
    resolve r.exits b.label o = rename (r.ends b) o := by
  simp [resolve, r.exits_eq b hb]

/-- Every version that a block reads is written in the block, so that the graph is in strict SSA form. -/
theorem strict_cfg (h : c.Closed) (hphi : c.PhiFree) : r.cfg.Strict params where
  toValid := r.valid_cfg h
  single := r.writtenLocals_eq ▸ r.nodup
  params_notMem t ht hw := r.notMem_taken hw (by simp [taken, ht])
  read := by
    intro b' pre' post' i' t hb' hsplit hi' hread hw
    obtain ⟨b, hb, rfl⟩ := r.mem_cfg.1 hb'
    obtain ⟨done, rest, pre, i, post, vs, vs', -, rfl, hsplit', hdone, hstep⟩ := r.exists_of_split hb hsplit hi'
    have hi : i ∈ b.body := by simp [hsplit']
    rw [Instr.mem_usedTemps, hstep.uses_eq (hphi b hb i hi)] at hread
    obtain ⟨o, ho, hot⟩ := List.mem_map.1 hread
    refine .inl (r.exists_dest_of_read hdone hot hw fun u hu => ?_)
    exact mem_taken_of_used (mem_instrs.2 ⟨b, hb, .inl hi⟩) (Instr.mem_usedTemps.2 (hu ▸ ho))
  jump := by
    intro b' j' t hb' hj' hread hw
    obtain ⟨b, hb, rfl⟩ := r.mem_cfg.1 hb'
    rw [r.jumps_block h hb] at hj'
    obtain ⟨j, hj, rfl⟩ := List.mem_map.1 hj'
    obtain ⟨o, ho, hot⟩ := Instr.mem_usedTemps_mapOperands.1 hread
    refine .inl (r.exists_dest_of_read (r.renames b hb) hot hw fun u hu => ?_)
    exact mem_taken_of_used (mem_instrs.2 ⟨b, hb, .inr hj⟩) (Instr.mem_usedTemps.2 (hu ▸ ho))
  phiRead := by
    intro p' b' dest t sources hp' hb' _ hi' hfind hw
    obtain ⟨p, hp, rfl⟩ := r.mem_cfg.1 hp'
    obtain ⟨b, hb, rfl⟩ := r.mem_cfg.1 hb'
    obtain ⟨u, hu, -, -, hfind'⟩ := r.exists_phiFor hphi hb hi'
    rw [hfind', label_block, r.resolve_of_mem hp] at hfind
    split at hfind
    · refine .inl (r.exists_dest_of_read (r.renames p hp) (Option.some.inj hfind) hw ?_)
      rintro _ ⟨⟩
      exact mem_taken_of_mem_locals hu
    · cases hfind

theorem strictForm_cfg (h : c.Closed) (hphi : c.PhiFree) : r.cfg.StrictForm params where
  toStrict := r.strict_cfg h hphi
  endsOnce := (r.closed_cfg h).endsOnce
  unlabelled := (r.closed_cfg h).unlabelled
  phisFirst := by
    intro b' hb'
    obtain ⟨b, hb, rfl⟩ := r.mem_cfg.1 hb'
    exact r.phisFirst_block hb ⟨[], b.body, rfl, nofun, hphi b hb⟩

/-! ## The phis of the new graph -/

/-- The source of a phi is a local under the versions at the end of a block. -/
theorem exists_of_operand (hphi : c.PhiFree) (hb : b ∈ c.blocks) {dest : Temp} {sources : PhiSources}
    (hi : .phi dest sources ∈ (r.block b).body) {o : Operand} (ho : o ∈ sources.operands) :
    ∃ t, t.isGlobal = dest.isGlobal ∧ (t.isGlobal = true → dest = t) ∧
      ∃ p ∈ c.blocks, o = rename (r.ends p) (.temp t) := by
  obtain ⟨t, -, hg, hglobal, hfind⟩ := r.exists_phiFor hphi hb hi
  refine ⟨t, hg, hglobal, ?_⟩
  obtain ⟨l, hl⟩ := PhiSources.exists_of_mem_operands ho
  rw [hfind] at hl
  split at hl
  · obtain ⟨p, hp, rfl, -⟩ := Cfg.mem_predecessors.1 ‹_›
    cases hl
    exact ⟨p, hp, r.resolve_of_mem hp _⟩
  · cases hl

/-- A phi has sources for the predecessors of its block. -/
theorem mem_labels_iff (hphi : c.PhiFree) (hb : b ∈ c.blocks) {dest : Temp} {sources : PhiSources}
    (hi : .phi dest sources ∈ (r.block b).body) {l : Label} :
    l ∈ sources.labels ↔ r.cfg.Edge l b.label := by
  obtain ⟨u, -, -, -, hfind⟩ := r.exists_phiFor hphi hb hi
  rw [PhiSources.mem_labels, hfind, r.edge_cfg, ← Cfg.mem_predecessors]
  by_cases hl : l ∈ c.predecessors b.label <;> simp [hl]

theorem keyed_cfg (hphi : c.PhiFree) : r.cfg.Keyed := by
  intro b' dest sources l hb' hi hl
  obtain ⟨b, hb, rfl⟩ := r.mem_cfg.1 hb'
  exact (r.mem_labels_iff hphi hb hi).1 hl

/-- SSA construction makes the form that the passes work on. -/
theorem ssaForm_cfg (h : c.Closed) (hphi : c.PhiFree) : r.cfg.SsaForm params where
  toStrictForm := r.strictForm_cfg h hphi
  globalPhi := by
    intro b' dest sources hb' hi hg o ho
    obtain ⟨b, hb, rfl⟩ := r.mem_cfg.1 hb'
    obtain ⟨t, htg, heq, p, hp, rfl⟩ := r.exists_of_operand hphi hb hi ho
    have htg : t.isGlobal = true := htg.trans hg
    rw [heq htg, rename_temp, (r.renames p hp).get?_of_global htg]
    rfl
  localPhi := by
    intro b' dest sources hb' hi hg u hu
    obtain ⟨b, hb, rfl⟩ := r.mem_cfg.1 hb'
    obtain ⟨t, htg, -, p, hp, heq⟩ := r.exists_of_operand hphi hb hi hu
    rw [rename_temp] at heq
    rw [Operand.temp.inj heq, (r.renames p hp).isGlobal_getD, htg, hg]
  phiSource := by
    intro b' dest sources l hb' hi hedge
    obtain ⟨b, hb, rfl⟩ := r.mem_cfg.1 hb'
    exact (r.mem_labels_iff hphi hb hi).2 hedge
  entryPhi := by
    intro b' i' hb' hentry hi'
    obtain ⟨b, hb, rfl⟩ := r.mem_cfg.1 hb'
    obtain ⟨i, hi, hphi', -⟩ := r.exists_of_mem hb hi'
    rw [hphi']
    rcases List.mem_append.1 hi with hi | hi
    · have hnone : headPhis params c b = [] := headPhis_entry h.toValid hentry
      rw [hnone] at hi
      cases hi
    · exact hphi b hb i hi

end Ssa.Renaming

/-- SSA construction makes a graph that linear code can be written from of such a graph. -/
theorem Cfg.Closed.ssaVisiting {c : Cfg} (h : c.Closed) {visit : List Label} (hvisit : ∀ l ∈ c.labels, l ∈ visit)
    (params : List Temp) : (c.ssaVisiting visit params).Closed := by
  obtain ⟨r, hssa⟩ := Ssa.exists_renaming h.toValid params hvisit
  exact hssa ▸ r.closed_cfg h

end ThreeAddress

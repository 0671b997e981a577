import ThreeAddress.Proofs.Infer
import ThreeAddress.Proofs.Respelling.Passes
import ThreeAddress.Proofs.Ssa.Form
/-!
# The order of renaming

Versions are numbered in the order in which the blocks are visited. Two orders rename the same definitions, each to a
new name, so the names of the one can be exchanged with those of the other, definition by definition
(`Respelling.exists_of_pairs`). Under this exchange the versions that reach a place are the same (`Ssa.Matches`), and
so is all code (`Ssa.Renaming.cfg_respell`). Names that were there before are not touched, for no version is given a
name that is taken. As passes do not depend on how names are spelled, the order shows nowhere else in what becomes of a
procedure (`Procedure.exists_respelling`).
-/

namespace ThreeAddress

/-! ## Matching names -/

namespace Respelling

/-- The exchange of two names of one kind. -/
def swap (x y : Temp) (h : x.kind = y.kind) : Respelling where
  perm := Equiv.swap x y
  kind_eq t := by
    rw [Equiv.swap_apply_def]
    split
    · simp [*]
    · split <;> simp [*]

/-- One respelling after another. -/
def trans (σ τ : Respelling) : Respelling where
  perm := σ.perm.trans τ.perm
  kind_eq t := (τ.kind_eq (σ t)).trans (σ.kind_eq t)

/-- Names that are paired with names of the same kind, each once, can be exchanged for them. -/
theorem exists_of_pairs {pairs : List (Temp × Temp)} (hfst : (pairs.map Prod.fst).Nodup)
    (hsnd : (pairs.map Prod.snd).Nodup) (hkind : ∀ e ∈ pairs, e.1.kind = e.2.kind) :
    ∃ σ : Respelling, (∀ e ∈ pairs, σ e.1 = e.2) ∧
      ∀ t, t ∉ pairs.map Prod.fst → t ∉ pairs.map Prod.snd → σ t = t := by
  induction pairs with
  | nil => exact ⟨⟨Equiv.refl Temp, fun _ => rfl⟩, nofun, fun _ _ _ => rfl⟩
  | cons e pairs ih =>
    obtain ⟨x, y⟩ := e
    obtain ⟨hx, hfst⟩ := List.nodup_cons.1 hfst
    obtain ⟨hy, hsnd⟩ := List.nodup_cons.1 hsnd
    obtain ⟨hxy, hkind⟩ := List.forall_mem_cons.1 hkind
    obtain ⟨σ, hσ, hfixed⟩ := ih hfst hsnd hkind
    -- what stands for `x` so far makes room for `y`
    refine ⟨σ.trans (swap (σ x) y ((σ.kind_eq x).trans hxy)), ?_, ?_⟩
    · intro e he
      rcases List.mem_cons.1 he with rfl | he
      · exact Equiv.swap_apply_left _ _
      · have hne : σ e.1 ≠ σ x := σ.injective.ne fun h => hx (List.mem_map.2 ⟨e, he, h⟩)
        have hne' : σ e.1 ≠ y := fun h => hy (List.mem_map.2 ⟨e, he, (hσ e he).symm.trans h⟩)
        exact (Equiv.swap_apply_of_ne_of_ne hne hne').trans (hσ e he)
    · intro t ht ht'
      obtain ⟨htx, ht⟩ := not_or.1 (List.mem_cons.not.1 ht)
      obtain ⟨hty, ht'⟩ := not_or.1 (List.mem_cons.not.1 ht')
      have hσt := hfixed t ht ht'
      have hne : σ t ≠ σ x := σ.injective.ne htx
      exact (Equiv.swap_apply_of_ne_of_ne hne (hσt.symm ▸ hty)).trans hσt

end Respelling

variable {σ : Respelling}

/-! ## Names that stay -/

namespace Instr

/-- An instruction whose names stay is not changed. -/
theorem respell_eq_self {i : Instr} (hdest : ∀ t, i.dest? = some t → σ t = t) (huses : ∀ t ∈ i.usedTemps, σ t = t) :
    i.respell σ = i := by
  have hoperand : ∀ o ∈ i.uses, o.respell σ = o := by
    intro o ho
    cases o with
    | imm v => rfl
    | temp t => exact congrArg Operand.temp (huses t (List.mem_filterMap.2 ⟨_, ho, rfl⟩))
  cases i with
  | phi dest sources =>
    have hsources : sources.respell σ = sources := by
      refine PhiSources.ext ((List.map_congr_left fun e he => ?_).trans (List.map_id _))
      exact Prod.ext rfl (hoperand e.2 (List.mem_map_of_mem he))
    rw [respell, hdest dest rfl, hsources]
  | call dest? target argc => cases dest? <;> simp_all [respell, dest?]
  | ret value? => cases value? <;> simp_all [respell, uses]
  | _ => simp_all [respell, dest?, uses]

theorem withDest_respell (i : Instr) (t : Temp) : (i.withDest t).respell σ = (i.respell σ).withDest (σ t) := by
  cases i with
  | call dest? target argc => cases dest? <;> rfl
  | _ => rfl

end Instr

namespace Ssa

/-! ## Versions that match -/

/-- Two tables have versions for the same locals, and those of the one are respelled in the other. -/
def Matches (σ : Respelling) (vs ws : Versions) : Prop :=
  ∀ t, ws.get? (σ t) = (vs.get? t).map σ

variable {vs ws vs' ws' : Versions} {i i₁ i₂ : Instr} {is is₁ is₂ : List Instr}

theorem matches_empty : Matches σ ∅ ∅ := fun _ => rfl

namespace Matches

theorem set (h : Matches σ vs ws) {t : Temp} (ht : σ t = t) (x : Temp) :
    Matches σ (vs.set t x) (ws.set t (σ x)) := by
  intro u
  have hiff : σ u = t ↔ u = t := by
    conv => lhs; rw [← ht]
    exact σ.eq_iff
  rw [Table.get?_set, Table.get?_set, h u]
  by_cases hu : u = t
  · rw [if_pos hu, if_pos (hiff.2 hu), Option.map_some]
  · rw [if_neg hu, if_neg (hiff.not.2 hu)]

theorem rename (h : Matches σ vs ws) (o : Operand) : Ssa.rename ws (o.respell σ) = (Ssa.rename vs o).respell σ := by
  cases o with
  | imm v => rfl
  | temp t =>
    simp only [Operand.respell, Ssa.rename, h t]
    cases vs.get? t <;> rfl

theorem renameUses (h : Matches σ vs ws) (i : Instr) :
    Ssa.renameUses ws (i.respell σ) = (Ssa.renameUses vs i).respell σ := by
  rw [Ssa.renameUses, Ssa.renameUses, Instr.isPhi_respell]
  split
  · rfl
  · exact i.mapOperands_respell σ h.rename

end Matches

/-- The new names of two visits are exchanged, definition by definition. -/
def Exchanges (σ : Respelling) (xs ys : List Temp) : Prop := ∀ e ∈ xs.zip ys, σ e.1 = e.2

theorem dests_cons (i : Instr) (is : List Instr) : dests (i :: is) = i.localDest?.toList ++ dests is := by
  rw [dests, List.filterMap_cons]
  cases i.localDest? <;> rfl

namespace Step

theorem length_localDest? (h : Step vs i i₁ vs') : i₁.localDest?.toList.length = i.localDest?.toList.length := by
  rcases h.localDest?_cases with ⟨hnone, hnone'⟩ | ⟨t, x, hsome, hsome', -⟩
  · rw [hnone, hnone']
  · rw [hsome, hsome']
    rfl

/-- Two visits make the same of an instruction whose names stay, up to the name that is given. -/
theorem respell (h₁ : Step vs i i₁ vs') (h₂ : Step ws i i₂ ws') (hm : Matches σ vs ws) (hi : i.respell σ = i)
    (hdest : Exchanges σ i₁.localDest?.toList i₂.localDest?.toList) :
    i₂ = i₁.respell σ ∧ Matches σ vs' ws' := by
  have huses := hm.renameUses i
  rw [hi] at huses
  cases h₁ with
  | keep hnone =>
    cases h₂ with
    | keep => exact ⟨huses, hm⟩
    | write hsome => cases hnone.symm.trans hsome
  | @write t x hsome hx =>
    cases h₂ with
    | keep hnone => cases hnone.symm.trans hsome
    | @write _ y hsome' hy =>
      cases hsome.symm.trans hsome'
      obtain ⟨hd, -⟩ := Instr.localDest?_eq_some.1 hsome
      have hx' : ((renameUses vs i).withDest x).localDest? = some x :=
        Instr.localDest?_eq_some.2 ⟨Instr.dest?_withDest (by simpa using hd), hx⟩
      have hy' : ((renameUses ws i).withDest y).localDest? = some y :=
        Instr.localDest?_eq_some.2 ⟨Instr.dest?_withDest (by simpa using hd), hy⟩
      have hxy : σ x = y := hdest (x, y) (by simp [hx', hy'])
      have ht : σ t = t := by
        have hdest' := i.dest?_respell σ
        rw [hi, hd] at hdest'
        exact (Option.some.inj hdest').symm
      subst hxy
      exact ⟨by rw [huses, Instr.withDest_respell], hm.set ht x⟩

end Step

namespace Renames

/-- What is written are versions. -/
theorem kind_of_mem_dests (h : Renames vs is is₁ vs') {x : Temp} (hx : x ∈ dests is₁) : x.kind = .versioned := by
  obtain ⟨i₁, hi₁, hd⟩ := List.mem_filterMap.1 hx
  obtain ⟨i, -, _, _, hstep⟩ := h.exists_of_mem hi₁
  rcases hstep.localDest?_cases with ⟨-, hnone⟩ | ⟨t, y, -, hsome, hy⟩
  · cases hnone.symm.trans hd
  · cases hsome.symm.trans hd
    exact hy

/-- As much is written as before. -/
theorem length_dests (h : Renames vs is is₁ vs') : (dests is₁).length = (dests is).length := by
  induction h with
  | nil => rfl
  | cons hstep _ ih =>
    rw [dests_cons, dests_cons, List.length_append, List.length_append, hstep.length_localDest?, ih]

/-- Two visits make the same of instructions whose names stay, up to the names that are given. -/
theorem respell (h₁ : Renames vs is is₁ vs') (h₂ : Renames ws is is₂ ws') (hm : Matches σ vs ws)
    (his : ∀ i ∈ is, i.respell σ = i) (hdests : Exchanges σ (dests is₁) (dests is₂)) :
    is₂ = is₁.map (Instr.respell σ) ∧ Matches σ vs' ws' := by
  induction h₁ generalizing ws is₂ with
  | nil =>
    cases h₂
    exact ⟨rfl, hm⟩
  | cons hstep₁ _ ih =>
    cases h₂ with
    | cons hstep₂ h₂ =>
      obtain ⟨hi, his⟩ := List.forall_mem_cons.1 his
      have hlen := hstep₁.length_localDest?.trans hstep₂.length_localDest?.symm
      rw [Exchanges, dests_cons, dests_cons, List.zip_append hlen] at hdests
      obtain ⟨hhead, htail⟩ := List.forall_mem_append.1 hdests
      obtain ⟨rfl, hm'⟩ := hstep₁.respell hstep₂ hm hi hhead
      obtain ⟨rfl, hm''⟩ := ih h₂ hm' his htail
      exact ⟨rfl, hm''⟩

end Renames

/-! ## Blocks and graphs -/

/-- A phi that is put in reads its own local. -/
theorem eq_of_mem_usedTemps_phiFor {preds : List Label} {t u : Temp} (h : u ∈ (phiFor preds t).usedTemps) :
    u = t := by
  obtain ⟨o, ho, hu⟩ := List.mem_filterMap.1 h
  obtain ⟨l, hl⟩ := PhiSources.exists_of_mem_operands ho
  rw [find?_ofList] at hl
  split at hl
  · cases hl
    exact (Option.some.inj hu).symm
  · cases hl

/-- A phi is resolved to the same sources, if versions match at the ends of the blocks that it reads from. -/
theorem resolveSources_respell {exits₁ exits₂ : Label → Option Versions} {i : Instr}
    (h : ∀ sources, i.sources? = some sources → ∀ l ∈ sources.labels,
      ∃ vs ws, exits₁ l = some vs ∧ exits₂ l = some ws ∧ Matches σ vs ws) :
    resolveSources exits₂ (i.respell σ) = (resolveSources exits₁ i).respell σ := by
  cases i with
  | phi dest sources =>
    have hsource : ∀ e ∈ sources.entries,
        resolve exits₂ e.1 (e.2.respell σ) = (resolve exits₁ e.1 e.2).respell σ := by
      intro e he
      obtain ⟨vs, ws, hvs, hws, hm⟩ := h sources rfl e.1 (List.mem_map_of_mem he)
      simp only [resolve, hvs, hws]
      exact hm.rename e.2
    refine congrArg (Instr.phi (σ dest)) (PhiSources.ext ?_)
    simp only [PhiSources.respell, PhiSources.mapOperands, List.map_map]
    exact List.map_congr_left fun e he => Prod.ext rfl (hsource e he)
  | _ => rfl

namespace Renaming

variable {params : List Temp} {c : Cfg} (r₁ r₂ : Renaming params c)

/-- The names that two renamings give, definition by definition. -/
def pairs : List (Temp × Temp) := c.blocks.flatMap fun b => (dests (r₁.body b)).zip (dests (r₂.body b))

theorem length_dests_eq {b : Block} (hb : b ∈ c.blocks) : (dests (r₁.body b)).length = (dests (r₂.body b)).length :=
  (r₁.renames b hb).length_dests.trans (r₂.renames b hb).length_dests.symm

theorem map_fst_pairs : (r₁.pairs r₂).map Prod.fst = c.blocks.flatMap fun b => dests (r₁.body b) := by
  rw [pairs, List.map_flatMap]
  exact List.flatMap_congr fun b hb => List.map_fst_zip (r₁.length_dests_eq r₂ hb).le

theorem map_snd_pairs : (r₁.pairs r₂).map Prod.snd = c.blocks.flatMap fun b => dests (r₂.body b) := by
  rw [pairs, List.map_flatMap]
  exact List.flatMap_congr fun b hb => List.map_snd_zip (r₁.length_dests_eq r₂ hb).ge

/-- What is written is versioned and has a new name. -/
theorem spec_of_mem_dests {x : Temp} (hx : x ∈ c.blocks.flatMap fun b => dests (r₁.body b)) :
    x.kind = .versioned ∧ x ∉ taken params c := by
  obtain ⟨b, hb, hx⟩ := List.mem_flatMap.1 hx
  exact ⟨(r₁.renames b hb).kind_of_mem_dests hx, r₁.notMem b hb x hx⟩

/-- The names of two renamings can be exchanged, and what is global or taken stays. -/
theorem exists_exchange : ∃ σ : Respelling, (∀ b ∈ c.blocks, Exchanges σ (dests (r₁.body b)) (dests (r₂.body b))) ∧
    (∀ t, t.isGlobal = true → σ t = t) ∧ ∀ t ∈ taken params c, σ t = t := by
  have hmem : ∀ e ∈ r₁.pairs r₂, e.1 ∈ (c.blocks.flatMap fun b => dests (r₁.body b)) ∧
      e.2 ∈ c.blocks.flatMap fun b => dests (r₂.body b) := by
    intro e he
    rw [← r₁.map_fst_pairs r₂, ← r₁.map_snd_pairs r₂]
    exact ⟨List.mem_map_of_mem he, List.mem_map_of_mem he⟩
  have hkind : ∀ e ∈ r₁.pairs r₂, e.1.kind = e.2.kind := fun e he =>
    (r₁.spec_of_mem_dests (hmem e he).1).1.trans (r₂.spec_of_mem_dests (hmem e he).2).1.symm
  obtain ⟨σ, hσ, hfixed⟩ := Respelling.exists_of_pairs (r₁.map_fst_pairs r₂ ▸ r₁.nodup)
    (r₁.map_snd_pairs r₂ ▸ r₂.nodup) hkind
  rw [r₁.map_fst_pairs r₂, r₁.map_snd_pairs r₂] at hfixed
  refine ⟨σ, fun b hb e he => hσ e (List.mem_flatMap.2 ⟨b, hb, he⟩), fun t ht => ?_, fun t ht => ?_⟩
  · have hglobal : t.kind ≠ .versioned := by simp [Temp.kind, ht]
    exact hfixed t (fun h => hglobal (r₁.spec_of_mem_dests h).1) fun h => hglobal (r₂.spec_of_mem_dests h).1
  · exact hfixed t (fun h => (r₁.spec_of_mem_dests h).2 ht) fun h => (r₂.spec_of_mem_dests h).2 ht

/-- The phis of a renamed body read from blocks of the graph. -/
theorem mem_labels_of_mem_sources (hc : c.Closed) {b : Block} (hb : b ∈ c.blocks) {i : Instr}
    (hi : i ∈ r₁.body b) {sources : PhiSources} (hs : i.sources? = some sources) {l : Label}
    (hl : l ∈ sources.labels) : l ∈ c.labels := by
  obtain ⟨dest, rfl⟩ := Instr.exists_phi_of_sources? hs
  have hmem : .phi dest (sources.mapOperands (resolve r₁.exits)) ∈ (r₁.block b).body := List.mem_map_of_mem hi
  have hsource := (r₁.valid_cfg hc).source _ (r₁.mem_cfg.2 ⟨b, hb, rfl⟩) l
    (Cfg.mem_sourceLabels.2 ⟨dest, _, hmem, by rwa [PhiSources.labels_mapOperands]⟩)
  rwa [cfg, Cfg.labels_mapBlocks r₁.label_block] at hsource

/-- Where the names are exchanged, the two graphs are the same up to that. -/
theorem cfg_respell (hc : c.Closed)
    (hσ : ∀ b ∈ c.blocks, Exchanges σ (dests (r₁.body b)) (dests (r₂.body b)))
    (hfixed : ∀ t ∈ taken params c, σ t = t) : r₂.cfg = r₁.cfg.respell σ := by
  -- Only new names are exchanged: what the graph names already stays.
  have hinstr : ∀ i ∈ c.instrs, i.respell σ = i := fun i hi =>
    Instr.respell_eq_self (fun t ht => hfixed t (mem_taken_of_written hi ht)) fun t ht =>
      hfixed t (mem_taken_of_used hi ht)
  have hhead : ∀ b, ∀ i ∈ headPhis params c b, i.respell σ = i := by
    intro b i hi
    obtain ⟨-, t, ht, rfl⟩ := mem_headPhis.1 hi
    have ht := hfixed t (mem_taken_of_mem_locals ht)
    refine Instr.respell_eq_self (fun u hu => ?_) fun u hu => eq_of_mem_usedTemps_phiFor hu ▸ ht
    exact Option.some.inj hu ▸ ht
  have hbody : ∀ b ∈ c.blocks, r₂.body b = (r₁.body b).map (Instr.respell σ) ∧ Matches σ (r₁.ends b) (r₂.ends b) := by
    intro b hb
    refine (r₁.renames b hb).respell (r₂.renames b hb) matches_empty (List.forall_mem_append.2 ⟨hhead b, ?_⟩)
      (hσ b hb)
    exact fun i hi => hinstr i (mem_instrs.2 ⟨b, hb, .inl hi⟩)
  have hexits : ∀ l ∈ c.labels, ∃ vs ws, r₁.exits l = some vs ∧ r₂.exits l = some ws ∧ Matches σ vs ws := by
    intro l hl
    obtain ⟨b, hb, rfl⟩ := List.mem_map.1 hl
    exact ⟨_, _, r₁.exits_eq b hb, r₂.exits_eq b hb, (hbody b hb).2⟩
  have hblock : ∀ b ∈ c.blocks, r₂.block b = (r₁.block b).respell σ := by
    intro b hb
    obtain ⟨heq, hm⟩ := hbody b hb
    have hresolved : ∀ i ∈ r₁.body b, resolveSources r₂.exits (i.respell σ) = (resolveSources r₁.exits i).respell σ :=
      fun i hi => resolveSources_respell fun sources hs l hl =>
        hexits l (r₁.mem_labels_of_mem_sources hc hb hi hs hl)
    have hjumps : ∀ j ∈ b.jumps, renameUses (r₂.ends b) j = (renameUses (r₁.ends b) j).respell σ := by
      intro j hj
      have hj' := hm.renameUses j
      rwa [hinstr j (mem_instrs.2 ⟨b, hb, .inr hj⟩)] at hj'
    simp only [block, heq, Block.respell, Block.mapInstrs, List.map_map, Block.mk.injEq, true_and]
    exact ⟨List.map_congr_left hresolved, List.map_congr_left hjumps⟩
  have hblocks : c.blocks.map r₂.block = (c.blocks.map r₁.block).map (Block.respell σ) := by
    rw [List.map_map]
    exact List.map_congr_left hblock
  exact congrArg (fun bs => { c with blocks := bs }) hblocks

end Renaming

end Ssa

/-! ## Procedures -/

namespace Procedure

/-- The names that occur in a procedure. -/
def names (p : Procedure) : List Temp :=
  p.params ++ p.body.filterMap Instr.dest? ++ p.body.flatMap Instr.usedTemps

variable {p : Procedure} {c : Cfg}

theorem mem_taken_of_mem_names (h : p.cfg = .ok c) {t : Temp} (ht : t ∈ p.names) : t ∈ Ssa.taken p.params c := by
  have hinstr : ∀ i ∈ p.body, (i.dest? = some t ∨ t ∈ i.usedTemps) → i ∈ c.instrs := by
    intro i hi ht
    refine mem_instrs_cfg h hi ?_
    cases i <;> simp [Instr.label?, Instr.dest?, Instr.usedTemps, Instr.uses] at ht ⊢
  rcases List.mem_append.1 ht with ht | ht
  · rcases List.mem_append.1 ht with ht | ht
    · exact List.mem_append_left _ (List.mem_append_left _ ht)
    · obtain ⟨i, hi, ht⟩ := List.mem_filterMap.1 ht
      exact Ssa.mem_taken_of_written (hinstr i hi (.inl ht)) ht
  · obtain ⟨i, hi, ht⟩ := List.mem_flatMap.1 ht
    exact Ssa.mem_taken_of_used (hinstr i hi (.inr ht)) ht

/-- The order in which renaming visits the blocks of a procedure shows in the names of versions and nowhere else. There
is an exchange of names of the same kind, in which globals and the names of the procedure stay, that carries the graph
in SSA form under the one order to that under the other. Under any configuration either the passes fail on both, or the
bodies that they leave are the same up to this exchange. -/
theorem exists_respelling (h : p.cfg = .ok c) {visit₁ visit₂ : List Label} (h₁ : visit₁.Perm c.labels)
    (h₂ : visit₂.Perm c.labels) : ∃ σ : Respelling, (∀ t, t.isGlobal = true → σ t = t) ∧ (∀ t ∈ p.names, σ t = t) ∧
      c.ssaVisiting visit₂ p.params = (c.ssaVisiting visit₁ p.params).respell σ ∧
      ∀ config : Config,
        (∃ e e', runPasses config.passes (c.ssaVisiting visit₁ p.params) = .error e ∧
          runPasses config.passes (c.ssaVisiting visit₂ p.params) = .error e') ∨
        ∃ r r', runPasses config.passes (c.ssaVisiting visit₁ p.params) = .ok r ∧
          runPasses config.passes (c.ssaVisiting visit₂ p.params) = .ok r' ∧
          (p.withCode r'.cfg).body = (p.withCode r.cfg).body.map (Instr.respell σ) := by
  have hclosed := closed_cfg h
  obtain ⟨r₁, hr₁⟩ := Ssa.exists_renaming hclosed.toValid p.params fun l hl => h₁.mem_iff.2 hl
  obtain ⟨r₂, hr₂⟩ := Ssa.exists_renaming hclosed.toValid p.params fun l hl => h₂.mem_iff.2 hl
  obtain ⟨σ, hσ, hglobal, htaken⟩ := r₁.exists_exchange r₂
  have hgraph : c.ssaVisiting visit₂ p.params = (c.ssaVisiting visit₁ p.params).respell σ := by
    rw [hr₁, hr₂]
    exact r₁.cfg_respell r₂ hclosed hσ htaken
  refine ⟨σ, hglobal, fun t ht => htaken t (mem_taken_of_mem_names h ht), hgraph, fun config => ?_⟩
  rw [hgraph]
  refine (runPasses_respell σ config.passes (c.ssaVisiting visit₁ p.params)).imp_right ?_
  rintro ⟨r, r', hr, hr', hcfg⟩
  exact ⟨r, r', hr, hr', by rw [hcfg]; exact Cfg.linear_respell σ r.cfg⟩

/-- The two orders of the blocks of `printing` give different graphs. -/
theorem exists_respelling_printing : printing.cfg = .ok printingGraph ∧
    printingGraph.labels.Perm printingGraph.labels ∧ printingGraph.labels.reverse.Perm printingGraph.labels ∧
    printingGraph.ssaVisiting printingGraph.labels.reverse printing.params ≠
      printingGraph.ssaVisiting printingGraph.labels printing.params ∧
    ∃ σ : Respelling, (∀ t, t.isGlobal = true → σ t = t) ∧ (∀ t ∈ printing.names, σ t = t) ∧
      printingGraph.ssaVisiting printingGraph.labels.reverse printing.params =
        (printingGraph.ssaVisiting printingGraph.labels printing.params).respell σ ∧
      ∀ config : Config,
        (∃ e e', runPasses config.passes (printingGraph.ssaVisiting printingGraph.labels printing.params) = .error e ∧
          runPasses config.passes (printingGraph.ssaVisiting printingGraph.labels.reverse printing.params) =
            .error e') ∨
        ∃ r r', runPasses config.passes (printingGraph.ssaVisiting printingGraph.labels printing.params) = .ok r ∧
          runPasses config.passes (printingGraph.ssaVisiting printingGraph.labels.reverse printing.params) = .ok r' ∧
          (printing.withCode r'.cfg).body = (printing.withCode r.cfg).body.map (Instr.respell σ) :=
  ⟨cfg_printing, .refl _, List.reverse_perm _, by decide +kernel,
    exists_respelling cfg_printing (.refl _) (List.reverse_perm _)⟩

end Procedure

end ThreeAddress

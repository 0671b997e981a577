import ThreeAddress.Proofs.Simulation
import ThreeAddress.Proofs.Ssa.Form
/-!
# SSA construction preserves behaviour

The version that reaches a point holds what its local holds in the old graph, or neither holds anything
(`Agrees`). An instruction gives the new version what it gives the old local; no other local changes its
version there, and none has the new name. At the head of a block the phis bring the versions at the end
of each predecessor together. As undefined temporaries stay undefined, each graph simulates the other
(`Renaming.runs_iff`).
-/

namespace ThreeAddress.Ssa

/-- The new store holds under the versions what the old one holds under the old names. -/
structure Agrees (taken : List Temp) (vs : Versions) (σ τ : Store) : Prop where
  memory : σ.toMemory = τ.toMemory
  temp? {t : Temp} : t ∈ taken → t.isGlobal = false → τ.temp? ((vs.get? t).getD t) = σ.temp? t

namespace Agrees

variable {taken : List Temp} {vs vs' : Versions} {σ τ : Store} {pre pre₀ : List Instr} {i i' : Instr}

theorem refl (taken : List Temp) (σ : Store) : Agrees taken ∅ σ σ := ⟨rfl, fun _ _ => rfl⟩

theorem value? (h : Agrees taken vs σ τ) (hvs : Renames ∅ pre pre₀ vs) {o : Operand}
    (ho : ∀ t, o = .temp t → t ∈ taken) : τ.value? (rename vs o) = σ.value? o := by
  cases o with
  | imm k => rfl
  | temp t =>
    rw [rename_temp, Store.value?_temp, Store.value?_temp]
    cases hg : t.isGlobal with
    | true =>
      rw [hvs.get?_of_global hg]
      exact (Store.temp?_congr_of_global h.memory hg).symm
    | false => exact h.temp? (ho t rfl) hg

/-- An instruction under versions reads the same values. -/
theorem uses (h : Agrees taken vs σ τ) (hvs : Renames ∅ pre pre₀ vs) (hstep : Step vs i i' vs')
    (hphi : i.isPhi = false) (hused : ∀ t ∈ i.usedTemps, t ∈ taken) :
    i'.uses.map τ.value? = i.uses.map σ.value? := by
  rw [hstep.uses_eq hphi, List.map_map]
  refine List.map_congr_left fun o ho => h.value? hvs fun t ht => hused t ?_
  exact Instr.mem_usedTemps.2 (ht ▸ ho)

/-- What is written to a local and to its new version agrees. -/
theorem receive (h : Agrees taken vs σ τ) (hvs : Renames ∅ pre pre₀ vs) (hstep : Step vs i i' vs')
    (hnew : ∀ x, i'.localDest? = some x → x ∉ taken ∧ ∀ t, vs.get? t ≠ some x) (m : Memory)
    (w : Option Int64) : Agrees taken vs' ((Store.mk m σ.locals).receive i.dest? w)
      ((Store.mk m τ.locals).receive i'.dest? w) := by
  have hlocal : ∀ t, t.isGlobal = false → ((vs.get? t).getD t).isGlobal = false :=
    fun t ht => (hvs.isGlobal_getD t).trans ht
  cases hstep with
  | keep hd =>
    have hne : ∀ u : Temp, u.isGlobal = false → i.dest? ≠ some u := by
      intro u hu he
      rw [Instr.localDest?_eq_some.2 ⟨he, hu⟩] at hd
      cases hd
    refine ⟨?_, fun {t} ht hg => ?_⟩
    · rw [dest?_renameUses]
      exact Store.toMemory_receive m _ _ _ w
    · rw [dest?_renameUses, Store.temp?_receive_local hg, Store.temp?_receive_local (hlocal t hg),
        if_neg (hne _ hg), if_neg (hne _ (hlocal t hg)), Store.temp?_mk hg, Store.temp?_mk (hlocal t hg)]
      exact h.temp? ht hg
  | @write t x hd hx =>
    obtain ⟨hdest, ht⟩ := Instr.localDest?_eq_some.1 hd
    have hdest' : ((renameUses vs i).withDest x).dest? = some x :=
      Instr.dest?_withDest (by simpa using hdest)
    obtain ⟨hfree, hother⟩ := hnew x (Instr.localDest?_eq_some.2 ⟨hdest', hx⟩)
    refine ⟨?_, fun {u} hu hg => ?_⟩
    · rw [hdest, hdest', Store.toMemory_receive_local _ ht, Store.toMemory_receive_local _ hx]
    · rw [hdest, hdest', Table.get?_set, Store.temp?_receive_local hg]
      -- Any other local keeps its version, and that is not the new one.
      by_cases hut : u = t
      · rw [if_pos hut, Option.getD_some, Store.temp?_receive_local hx, if_pos rfl, hut, if_pos rfl]
      · have hne : x ≠ (vs.get? u).getD u := by
          cases hv : vs.get? u with
          | none => exact fun he => hfree (he ▸ hu)
          | some y => exact fun he => hother u (he ▸ hv)
        rw [if_neg hut, Store.temp?_receive_local (hlocal u hg), if_neg fun he => hut (Option.some.inj he).symm,
          if_neg fun he => hne (Option.some.inj he), Store.temp?_mk hg, Store.temp?_mk (hlocal u hg)]
        exact h.temp? hu hg

/-- An instruction under versions has the same effect. -/
theorem exec (h : Agrees taken vs σ τ) (hvs : Renames ∅ pre pre₀ vs) (hstep : Step vs i i' vs')
    (hused : ∀ t ∈ i.usedTemps, t ∈ taken)
    (hnew : ∀ x, i'.localDest? = some x → x ∉ taken ∧ ∀ t, vs.get? t ≠ some x) {calls : Calls}
    {σ' : Store} (hexec : σ.Exec calls i σ') : ∃ τ', τ.Exec calls i' τ' ∧ Agrees taken vs' σ' τ' := by
  have hphi := hexec.plain.1
  obtain ⟨vals, m, w, hvals, hacts, rfl⟩ := hexec
  rw [h.memory, ← hstep.acts_eq hphi calls] at hacts
  rw [← h.uses hvs hstep hphi hused] at hvals
  exact ⟨_, ⟨vals, m, w, hvals, hacts, rfl⟩, h.receive hvs hstep hnew m w⟩

/-- An instruction has the effect that it has under versions. -/
theorem exec_old (h : Agrees taken vs σ τ) (hvs : Renames ∅ pre pre₀ vs) (hstep : Step vs i i' vs')
    (hused : ∀ t ∈ i.usedTemps, t ∈ taken)
    (hnew : ∀ x, i'.localDest? = some x → x ∉ taken ∧ ∀ t, vs.get? t ≠ some x) {calls : Calls}
    {τ' : Store} (hexec : τ.Exec calls i' τ') : ∃ σ', σ.Exec calls i σ' ∧ Agrees taken vs' σ' τ' := by
  have hphi : i.isPhi = false := hstep.isPhi_eq.symm.trans hexec.plain.1
  obtain ⟨vals, m, w, hvals, hacts, rfl⟩ := hexec
  rw [← h.memory, hstep.acts_eq hphi calls] at hacts
  rw [h.uses hvs hstep hphi hused] at hvals
  exact ⟨_, ⟨vals, m, w, hvals, hacts, rfl⟩, h.receive hvs hstep hnew m w⟩

end Agrees

namespace Renaming

variable {params : List Temp} {c : Cfg} (r : Renaming params c) {b : Block}

/-! ## The names in a block -/

theorem nodup_dests (hb : b ∈ c.blocks) : (dests (r.body b)).Nodup :=
  (List.nodup_flatMap.1 r.nodup).1 b hb

/-- A version is written once in its block, under a name that is not taken. -/
theorem new_dest (hb : b ∈ c.blocks) {before after : List Instr} {i : Instr}
    (hsplit : r.body b = before ++ i :: after) {x : Temp} (hx : i.localDest? = some x) :
    x ∉ taken params c ∧ (∀ j ∈ before, j.localDest? ≠ some x) ∧ ∀ j ∈ after, j.localDest? ≠ some x := by
  have hnodup := r.nodup_dests hb
  have hmem : x ∈ dests (r.body b) := List.mem_filterMap.2 ⟨i, by simp [hsplit], hx⟩
  rw [hsplit, dests, List.filterMap_append, List.filterMap_cons, hx, List.nodup_append] at hnodup
  obtain ⟨-, hcons, hdisjoint⟩ := hnodup
  refine ⟨r.notMem b hb x hmem, fun j hj hjx => ?_, fun j hj hjx => ?_⟩
  · exact hdisjoint x (List.mem_filterMap.2 ⟨j, hj, hjx⟩) x List.mem_cons_self rfl
  · exact (List.nodup_cons.1 hcons).1 (List.mem_filterMap.2 ⟨j, hj, hjx⟩)

/-- What is written in a block, or has a phi there, is among the locals. -/
theorem mem_locals_of_mem (hb : b ∈ c.blocks) {i : Instr} {t : Temp}
    (hi : i ∈ headPhis params c b ++ b.body) (ht : i.localDest? = some t) : t ∈ locals params c := by
  rcases List.mem_append.1 hi with hi | hi
  · obtain ⟨-, u, hu, rfl⟩ := mem_headPhis.1 hi
    cases (Instr.localDest?_eq_some.1 ht).1
    exact hu
  · exact mem_locals.2 (.inr ⟨i, mem_instrs.2 ⟨b, hb, .inl hi⟩, ht⟩)

/-- What the phis of a block read, the added ones included, has an old name. -/
theorem mem_taken_of_phi (hb : b ∈ c.blocks) {dest : Temp} {sources : PhiSources}
    (hi : .phi dest sources ∈ headPhis params c b ++ b.body) {l : Label} {t : Temp}
    (ho : sources.find? l = some (.temp t)) : t ∈ taken params c := by
  rcases List.mem_append.1 hi with hi | hi
  · obtain ⟨-, u, hu, heq⟩ := mem_headPhis.1 hi
    cases heq
    rw [find?_ofList] at ho
    split at ho
    · cases ho
      exact mem_taken_of_mem_locals hu
    · cases ho
  · exact mem_taken_of_used (mem_instrs.2 ⟨b, hb, .inl hi⟩)
      (Instr.mem_usedTemps.2 (PhiSources.mem_operands ho))

/-! ## Entering a block -/

section

variable {r} {p : Block} {phis rest group rest' : List Instr} {vs : Versions} {σ σ₁ τ τ₁ : Store}

/-- The phis that are put in have a source for each predecessor: it is what they write. -/
theorem find?_headPhis (hedge : c.Edge p.label b.label) {dest : Temp} {sources : PhiSources}
    (hi : .phi dest sources ∈ headPhis params c b) : sources.find? p.label = some (.temp dest) := by
  obtain ⟨-, t, -, heq⟩ := mem_headPhis.1 hi
  cases heq
  rw [find?_ofList, if_pos (Cfg.mem_predecessors.2 hedge)]

/-- The phis of a renamed block can be executed where those of the old one can. -/
theorem exists_phis_iff (hedge : c.Edge p.label b.label)
    (hgroup : Renames ∅ (headPhis params c b ++ phis) group vs) :
    (∃ τ₁, τ.Phis p.label (group.map (resolveSources r.exits)) τ₁) ↔ ∃ σ₁, σ.Phis p.label phis σ₁ := by
  rw [Store.exists_phis_iff, Store.exists_phis_iff]
  constructor
  · intro h t sources hi
    obtain ⟨i', hi', vs₁, vs₂, hstep⟩ := hgroup.exists_of_mem_left (List.mem_append_right _ hi)
    obtain ⟨x, rfl⟩ := hstep.of_phi
    have hlabel := h x _ (List.mem_map_of_mem hi')
    rwa [PhiSources.labels_mapOperands] at hlabel
  · intro h dest sources' hi
    obtain ⟨i₀, hi₀, heq⟩ := List.mem_map.1 hi
    cases i₀ with
    | phi d sources =>
      cases heq
      obtain ⟨i, hmem, vs₁, vs₂, hstep⟩ := hgroup.exists_of_mem hi₀
      obtain ⟨t, rfl, -, -⟩ := hstep.phi
      rw [PhiSources.labels_mapOperands]
      rcases List.mem_append.1 hmem with hhead | hphi
      · exact PhiSources.mem_labels.2 ⟨_, find?_headPhis hedge hhead⟩
      · exact h t sources hphi
    | _ => cases heq

/-- What a local holds after the phis of the old block does not change if those that are put in are
executed with them. -/
theorem exists_headPhis (hedge : c.Edge p.label b.label) (hσ : σ.Phis p.label phis σ₁) :
    ∃ σ₂, σ.Phis p.label (headPhis params c b ++ phis) σ₂ ∧
      ∀ t, t.isGlobal = false → σ₂.temp? t = σ₁.temp? t := by
  obtain ⟨σ₂, hσ₂⟩ : ∃ σ₂, σ.Phis p.label (headPhis params c b ++ phis) σ₂ := by
    refine Store.exists_phis_iff.2 fun dest sources hi => ?_
    rcases List.mem_append.1 hi with hi | hi
    · exact PhiSources.mem_labels.2 ⟨_, find?_headPhis hedge hi⟩
    · exact Store.exists_phis_iff.1 ⟨σ₁, hσ⟩ dest sources hi
  refine ⟨σ₂, hσ₂, fun t ht => hσ₂.temp?_of_append hσ (fun dest sources o hi ho => ?_) ht⟩
  rw [find?_headPhis hedge hi] at ho
  exact (Option.some.inj ho).symm

/-- The last phi that writes a local, and the one that writes its version, take the same value. -/
theorem temp?_version (hp : p ∈ c.blocks) (hb : b ∈ c.blocks) (hsplit : b.body = phis ++ rest)
    (hphis : ∀ i ∈ phis, i.isPhi = true) (hbody : r.body b = group ++ rest')
    (hgroup : Renames ∅ (headPhis params c b ++ phis) group vs) (h : Agrees (taken params c) (r.ends p) σ τ)
    (hσ : σ.Phis p.label (headPhis params c b ++ phis) σ₁)
    (hτ : τ.Phis p.label (group.map (resolveSources r.exits)) τ₁) {t x : Temp} (hg : t.isGlobal = false)
    (hv : vs.get? t = some x) : τ₁.temp? x = σ₁.temp? t := by
  rcases hgroup.get? hv with ⟨hnone, -⟩ |
    ⟨before, i, after, before', i', after', hold, hnew, hit, hix, hx, hlast, vs₁, vs₂, hstep⟩
  · simp at hnone
  have hi : i ∈ headPhis params c b ++ phis := by simp [hold]
  have hphi : i.isPhi = true := (List.mem_append.1 hi).elim (isPhi_headPhis i) (hphis i)
  obtain ⟨sources, rfl⟩ : ∃ sources, i = .phi t sources := by
    cases i <;> cases hphi
    cases (Instr.localDest?_eq_some.1 hit).1
    exact ⟨_, rfl⟩
  obtain ⟨x', rfl⟩ := hstep.of_phi
  cases hix
  obtain ⟨o, ho, hvalue⟩ := (hold ▸ hσ).temp?_of_phi hg fun j hj hjt =>
    hlast j hj (Instr.localDest?_eq_some.2 ⟨hjt, hg⟩)
  -- Nothing behind the new phi writes the version again, as it is given once.
  have hafter : ∀ j ∈ after'.map (resolveSources r.exits), j.dest? ≠ some x := by
    intro j hj hjx
    obtain ⟨j₀, hj₀, rfl⟩ := List.mem_map.1 hj
    rw [dest?_resolveSources] at hjx
    have hplace : r.body b = before' ++ .phi x sources :: (after' ++ rest') := by simp [hbody, hnew]
    exact (r.new_dest hb hplace (Instr.localDest?_eq_some.2 ⟨rfl, hx⟩)).2.2 j₀ (by simp [hj₀])
      (Instr.localDest?_eq_some.2 ⟨hjx, hx⟩)
  rw [hnew, List.map_append, List.map_cons] at hτ
  obtain ⟨o', ho', hvalue'⟩ := hτ.temp?_of_phi hx hafter
  rw [PhiSources.find?_mapOperands, ho, Option.map_some, r.resolve_of_mem hp] at ho'
  cases ho'
  have hmem : .phi t sources ∈ headPhis params c b ++ b.body := by
    rw [hsplit, ← List.append_assoc]
    exact List.mem_append_left _ hi
  rw [hvalue, hvalue']
  exact h.value? (r.renames p hp) fun u hu => mem_taken_of_phi hb hmem (hu ▸ ho)

/-- A local that no phi writes has no version at the end of the predecessor either, and keeps its value. -/
theorem temp?_unversioned (hp : p ∈ c.blocks) (hb : b ∈ c.blocks) (hedge : c.Edge p.label b.label)
    (hbody : r.body b = group ++ rest') (hgroup : Renames ∅ (headPhis params c b ++ phis) group vs)
    (h : Agrees (taken params c) (r.ends p) σ τ) (hσ : σ.Phis p.label (headPhis params c b ++ phis) σ₁)
    (hτ : τ.Phis p.label (group.map (resolveSources r.exits)) τ₁) {t : Temp} (ht : t ∈ taken params c)
    (hg : t.isGlobal = false) (hv : vs.get? t = none) : τ₁.temp? t = σ₁.temp? t := by
  have hnone : ∀ i ∈ headPhis params c b ++ phis, i.localDest? ≠ some t := by
    intro i hi hit
    have hsome := hgroup.isSome_get? (.inr ⟨i, hi, hit⟩)
    rw [hv] at hsome
    cases hsome
  have hnot : ∀ i ∈ group.map (resolveSources r.exits), i.dest? ≠ some t := by
    intro i hi hit
    obtain ⟨i₀, hi₀, rfl⟩ := List.mem_map.1 hi
    rw [dest?_resolveSources] at hit
    refine r.notMem b hb t (List.mem_filterMap.2 ⟨i₀, ?_, Instr.localDest?_eq_some.2 ⟨hit, hg⟩⟩) ht
    simp [hbody, hi₀]
  -- A local with a version at the end of the predecessor would have a phi.
  have hends : (r.ends p).get? t = none := by
    cases hx : (r.ends p).get? t with
    | none => rfl
    | some x =>
      obtain ⟨⟨i, hi, hit⟩, -⟩ := (r.renames p hp).isLocal_of_get? hx
      have hmem : phiFor (c.predecessors b.label) t ∈ headPhis params c b :=
        mem_headPhis.2 ⟨List.ne_nil_of_mem (Cfg.mem_predecessors.2 hedge), t, mem_locals_of_mem hp hi hit, rfl⟩
      exact absurd (Instr.localDest?_eq_some.2 ⟨rfl, hg⟩) (hnone _ (List.mem_append_left _ hmem))
  rw [hτ.temp?_of_notMem hg hnot, hσ.temp?_of_notMem hg fun i hi hit =>
    hnone i hi (Instr.localDest?_eq_some.2 ⟨hit, hg⟩)]
  simpa [hends] using h.temp? ht hg

/-- The phis of a block give the versions behind them what the versions at the end of the predecessor
hold. -/
theorem agrees_phis (hp : p ∈ c.blocks) (hb : b ∈ c.blocks) (hedge : c.Edge p.label b.label)
    (hsplit : b.body = phis ++ rest) (hphis : ∀ i ∈ phis, i.isPhi = true)
    (hbody : r.body b = group ++ rest') (hgroup : Renames ∅ (headPhis params c b ++ phis) group vs)
    (h : Agrees (taken params c) (r.ends p) σ τ) (hσ : σ.Phis p.label phis σ₁)
    (hτ : τ.Phis p.label (group.map (resolveSources r.exits)) τ₁) :
    Agrees (taken params c) vs σ₁ τ₁ := by
  obtain ⟨σ₂, hσ₂, hsame⟩ : ∃ σ₂, σ.Phis p.label (headPhis params c b ++ phis) σ₂ ∧
      ∀ t, t.isGlobal = false → σ₂.temp? t = σ₁.temp? t := exists_headPhis hedge hσ
  refine ⟨hσ.toMemory.trans (h.memory.trans hτ.toMemory.symm), fun {t} ht hg => ?_⟩
  rw [← hsame t hg]
  cases hv : vs.get? t with
  | some x => exact temp?_version hp hb hsplit hphis hbody hgroup h hσ₂ hτ hg hv
  | none => exact temp?_unversioned hp hb hedge hbody hgroup h hσ₂ hτ ht hg hv

end

/-! ## Simulations -/

/-- Where the runs of both graphs are in a block. -/
structure At (b : Block) (rest rest' : List Instr) (σ τ : Store) : Prop where
  mem : b ∈ c.blocks
  subset : ∀ i ∈ rest, i ∈ b.body
  exists_versions : ∃ pre pre₀ vs, r.body b = pre₀ ++ rest' ∧ Renames ∅ pre pre₀ vs ∧
    Renames vs rest rest' (r.ends b) ∧ Agrees (taken params c) vs σ τ

namespace At

variable {r} {σ τ : Store} {rest rest' : List Instr} {i i' : Instr}

theorem ends (h : r.At b [] rest' σ τ) : rest' = [] ∧ Agrees (taken params c) (r.ends b) σ τ := by
  obtain ⟨pre, pre₀, vs, -, -, hrest, hagrees⟩ := h.exists_versions
  generalize r.ends b = ends at hrest ⊢
  cases hrest
  exact ⟨rfl, hagrees⟩

theorem eq_nil (h : r.At b rest [] σ τ) : rest = [] := by
  obtain ⟨pre, pre₀, vs, -, -, hrest, -⟩ := h.exists_versions
  cases hrest
  rfl

/-- The next instruction, under the versions that reach it, and the point behind it. -/
theorem step (h : r.At b (i :: rest) (i' :: rest') σ τ) : ∃ pre pre₀ vs vs₁, Renames ∅ pre pre₀ vs ∧
    Step vs i i' vs₁ ∧ Agrees (taken params c) vs σ τ ∧ (∀ t ∈ i.usedTemps, t ∈ taken params c) ∧
    (∀ x, i'.localDest? = some x → x ∉ taken params c ∧ ∀ t, vs.get? t ≠ some x) ∧
    ∀ {σ₁ τ₁}, Agrees (taken params c) vs₁ σ₁ τ₁ → r.At b rest rest' σ₁ τ₁ := by
  obtain ⟨pre, pre₀, vs, hbody, hpre, hrest, hagrees⟩ := h.exists_versions
  cases hrest with
  | @cons _ vs₁ _ _ _ _ _ hstep hrest =>
    refine ⟨pre, pre₀, vs, vs₁, hpre, hstep, hagrees, fun t ht => ?_, fun x hx => ?_, fun hagrees' => ?_⟩
    · exact mem_taken_of_used (mem_instrs.2 ⟨b, h.mem, .inl (h.subset i List.mem_cons_self)⟩) ht
    · obtain ⟨hfree, hbefore, -⟩ := r.new_dest h.mem hbody hx
      refine ⟨hfree, fun t ht => ?_⟩
      obtain ⟨j, hj, hjx⟩ := hpre.writes_of_get? ht
      exact hbefore j hj (Instr.localDest?_eq_some.2 ⟨hjx, (Instr.localDest?_eq_some.1 hx).2⟩)
    · refine ⟨h.mem, fun j hj => h.subset j (.tail _ hj), pre ++ [i], pre₀ ++ [i'], vs₁, by simp [hbody],
        ?_, hrest, hagrees'⟩
      exact Renames.append_iff.2 ⟨pre₀, [i'], vs, rfl, hpre, .cons hstep (.nil vs₁)⟩

/-- The jumps at the end of a block lead to the same place, or nowhere. -/
theorem exit?_eq (h : c.Closed) (hat : r.At b [] rest' σ τ) :
    τ.exit? (r.block b).jumps = σ.exit? b.jumps := by
  rw [r.jumps_block h hat.mem]
  refine Store.exit?_mapOperands_eq fun j hj o ho => hat.ends.2.value? (r.renames b hat.mem) fun t ht => ?_
  exact mem_taken_of_used (mem_instrs.2 ⟨b, hat.mem, .inr hj⟩) (Instr.mem_usedTemps.2 (ht ▸ ho))

/-- Behind the phis of a block to which control comes. -/
theorem enter {p : Block} {rest' : List Instr} (hat : r.At p [] rest' σ τ)
    (hedge : c.Edge p.label b.label) (hb : b ∈ c.blocks) {phis rest : List Instr}
    (hsplit : b.body = phis ++ rest) (hphis : ∀ i ∈ phis, i.isPhi = true)
    (hrest : ∀ i ∈ rest, i.isPhi = false) : ∃ group rest',
      (r.block b).body = group ++ rest' ∧ (∀ i ∈ group, i.isPhi = true) ∧
      (∀ i ∈ rest', i.isPhi = false) ∧ (group = [] → phis = []) ∧
      ((∃ τ₁, τ.Phis p.label group τ₁) ↔ ∃ σ₁, σ.Phis p.label phis σ₁) ∧
      ∀ {σ₁ τ₁}, σ.Phis p.label phis σ₁ → τ.Phis p.label group τ₁ → r.At b rest rest' σ₁ τ₁ := by
  obtain ⟨group, rest', vs, hbody, hblock, hgroup, hrest'⟩ := r.exists_split hb hsplit hrest
  refine ⟨_, rest', hblock, fun i hi => ?_, hrest'.isPhi hrest, fun hnil => ?_, exists_phis_iff hedge hgroup,
    fun hσ hτ => ⟨hb, fun i hi => hsplit ▸ List.mem_append_right _ hi, _, group, vs, hbody, hgroup, hrest', ?_⟩⟩
  · obtain ⟨i₀, hi₀, rfl⟩ := List.mem_map.1 hi
    rw [isPhi_resolveSources]
    refine hgroup.isPhi (fun j hj => ?_) i₀ hi₀
    exact (List.mem_append.1 hj).elim (isPhi_headPhis j) (hphis j)
  · refine List.eq_nil_iff_forall_not_mem.2 fun i hi => ?_
    obtain ⟨i', hi', -⟩ := hgroup.exists_of_mem_left (List.mem_append_right _ hi)
    exact List.not_mem_nil (hnil ▸ List.mem_map_of_mem hi')
  · exact agrees_phis hat.mem hb hedge hsplit hphis hbody hgroup hat.ends.2 hσ hτ

/-- At the entry, which has no phis, the graphs begin with the same store. -/
theorem start (h : c.Valid) (hb : b ∈ c.blocks) (hl : b.label = c.entry)
    (hphi : ∀ i ∈ b.body, i.isPhi = false) (σ : Store) : r.At b b.body (r.block b).body σ σ := by
  obtain ⟨group, rest', vs, hbody, hblock, hgroup, hrest⟩ := r.exists_split hb (List.nil_append b.body).symm hphi
  have hnone : headPhis params c b = [] := headPhis_entry h hl
  rw [hnone] at hgroup
  cases hgroup
  refine ⟨hb, fun _ hi => hi, [], [], ∅, ?_, .nil ∅, ?_, .refl _ σ⟩
  · rw [hblock, hbody]
    rfl
  · rwa [hblock]

end At

theorem block?_cfg (h : c.Valid) (hb : b ∈ c.blocks) : r.cfg.block? b.label = some (r.block b) := by
  rw [cfg, Cfg.block?_mapBlocks r.label_block, h.block?_of_mem hb]
  rfl

/-- A block of the renamed graph is found where the old one is. -/
theorem exists_of_block?_cfg {l : Label} {b' : Block} (h : r.cfg.block? l = some b') :
    ∃ b, c.block? l = some b ∧ r.block b = b' := by
  rw [cfg, Cfg.block?_mapBlocks r.label_block] at h
  exact Option.map_eq_some_iff.1 h

/-- The renamed graph simulates the old one. -/
theorem simulation (h : c.Closed) (calls : Calls) : c.Simulation calls r.cfg r.At where
  enter := by
    intro p b phis rest σ σ₁ τ hat he hb hsplit hphis hrest hσ
    have hmem := Cfg.mem_of_block? hb
    have hedge : c.Edge p.label b.label := ⟨p, hat.mem, rfl, Store.mem_targets_of_exit? he⟩
    obtain ⟨group, rest', hblock, hgroup, hrest', -, hexists, hat'⟩ := hat.enter hedge hmem hsplit hphis hrest
    obtain ⟨τ₁, hτ⟩ := hexists.2 ⟨σ₁, hσ⟩
    exact ⟨r.block b, group, rest', τ₁, r.block?_cfg h.toValid hmem, hblock, hgroup, hrest', hτ, hat' hσ hτ⟩
  exec := by
    intro b i rest rest' σ σ₁ τ hat hexec
    cases rest' with
    | nil => cases hat.eq_nil
    | cons i' rest' =>
      obtain ⟨pre, pre₀, vs, vs₁, hpre, hstep, hagrees, hused, hnew, hat'⟩ := hat.step
      obtain ⟨τ₁, hexec', hagrees'⟩ := hagrees.exec hpre hstep hused hnew hexec
      exact .inr ⟨i', rest', τ₁, rfl, hexec', hat' hagrees'⟩
  nil hat := hat.ends.1
  exit := by
    intro b σ τ e hat he
    refine ⟨r.block b, r.block?_cfg h.toValid hat.mem, ?_, hat.ends.2.memory.symm⟩
    rwa [hat.exit?_eq h]

/-- The old graph simulates the renamed one. -/
theorem simulation_old (h : c.Closed) (hp : ∀ b ∈ c.blocks, b.PhisFirst) (calls : Calls) :
    r.cfg.Simulation calls c fun b' rest' rest τ σ => ∃ b, r.block b = b' ∧ r.At b rest rest' σ τ where
  enter := by
    rintro _ b' phis' rest' τ τ₁ σ ⟨p, rfl, hat⟩ he hb' hsplit' hphis' hrest' hτ
    obtain ⟨b, hb, rfl⟩ := r.exists_of_block?_cfg hb'
    have hmem := Cfg.mem_of_block? hb
    obtain ⟨phis, rest, hsplit, hphis, hrest⟩ := hp b hmem
    have hedge : c.Edge p.label b.label :=
      ⟨p, hat.mem, rfl, Store.mem_targets_of_exit? ((hat.exit?_eq h).symm.trans he)⟩
    obtain ⟨group, rest'', hblock, hgroup, hrest'', -, hexists, hat'⟩ := hat.enter hedge hmem hsplit hphis hrest
    obtain ⟨rfl, rfl⟩ := Block.eq_of_phisFirst (hsplit'.symm.trans hblock) hphis' hrest' hgroup hrest''
    obtain ⟨σ₁, hσ⟩ := hexists.1 ⟨τ₁, hτ⟩
    exact ⟨b, phis, rest, σ₁, hb, hsplit, hphis, hrest, hσ, b, rfl, hat' hσ hτ⟩
  exec := by
    rintro _ i' rest' rest τ τ₁ σ ⟨b, rfl, hat⟩ hexec
    cases rest with
    | nil => cases hat.ends.1
    | cons i rest =>
      obtain ⟨pre, pre₀, vs, vs₁, hpre, hstep, hagrees, hused, hnew, hat'⟩ := hat.step
      obtain ⟨σ₁, hexec', hagrees'⟩ := hagrees.exec_old hpre hstep hused hnew hexec
      exact .inr ⟨i, rest, σ₁, rfl, hexec', b, rfl, hat' hagrees'⟩
  nil := by
    rintro _ rest τ σ ⟨b, rfl, hat⟩
    exact hat.eq_nil
  exit := by
    rintro _ τ σ e ⟨b, rfl, hat⟩ he
    refine ⟨b, h.block?_of_mem hat.mem, ?_, hat.ends.2.memory⟩
    rwa [← hat.exit?_eq h]

/-- The graphs return the same, or neither returns. -/
theorem runs_iff (h : c.Closed) (hp : ∀ b ∈ c.blocks, b.PhisFirst) {calls : Calls} {σ : Store} {f : Final} :
    r.cfg.Runs calls none r.cfg.entry σ f ↔ c.Runs calls none c.entry σ f := by
  constructor
  · refine (r.simulation_old h hp calls).runs (fun b' hb' => ?_) fun b' hb' hphi => ?_
    · obtain ⟨b, hb, rfl⟩ := r.mem_cfg.1 hb'
      exact r.phisFirst_block hb (hp b hb)
    · obtain ⟨b, hb, rfl⟩ := r.exists_of_block?_cfg hb'
      have hmem := Cfg.mem_of_block? hb
      refine ⟨b, hb, b, rfl, .start h.toValid hmem (Cfg.label_of_block? hb) (fun i hi => ?_) σ⟩
      obtain ⟨i', hi', vs₁, vs₂, hstep⟩ := (r.renames b hmem).exists_of_mem_left (List.mem_append_right _ hi)
      rw [← hstep.isPhi_eq, ← isPhi_resolveSources r.exits]
      exact hphi _ (List.mem_map_of_mem hi')
  · refine (r.simulation h calls).runs hp fun b hb hphi => ?_
    have hmem := Cfg.mem_of_block? hb
    have hlabel := Cfg.label_of_block? hb
    exact ⟨r.block b, hlabel ▸ r.block?_cfg h.toValid hmem, .start h.toValid hmem hlabel hphi σ⟩

theorem keeps {env : Surroundings} (hphi : c.PhiFree) (hk : env.Keeps c.bodies) :
    env.Keeps r.cfg.bodies := by
  have hbody : ∀ {i'}, i' ∈ r.cfg.bodies → i'.isPhi = false →
      ∃ pre₀ pre i vs vs', i ∈ c.bodies ∧ Renames ∅ pre pre₀ vs ∧ Step vs i i' vs' := by
    intro i' hi' hphi'
    obtain ⟨b', hb', hi'⟩ := Cfg.mem_bodies.1 hi'
    obtain ⟨b, hb, rfl⟩ := r.mem_cfg.1 hb'
    obtain ⟨before, after, hsplit⟩ := List.append_of_mem hi'
    obtain ⟨pre₀, -, pre, i, post, vs, vs', -, -, hbody, hpre, hstep⟩ := r.exists_of_split hb hsplit hphi'
    exact ⟨pre₀, _, i, vs, vs', Cfg.mem_bodies.2 ⟨b, hb, by simp [hbody]⟩, hpre, hstep⟩
  refine hk.transfer (fun i' hi' e t he ht hg => ?_) fun i' hi' target ht => ?_
  · -- A global gets no version, so that the old computation writes it as well.
    obtain ⟨pre₀, pre, i, vs, vs', hi, hpre, hstep⟩ := hbody hi' (Expr.plain_of_of? he).1
    cases hstep with
    | keep hd =>
      obtain ⟨b, hb, hmem⟩ := Cfg.mem_bodies.1 hi
      rw [renameUses_of_not_phi vs (hphi b hb i hmem)] at he
      obtain ⟨e', he'⟩ := Expr.exists_of?_of_mapOperands (fun u hu => by
        rw [rename_temp, hpre.get?_of_global hu]
        rfl) he
      exact ⟨i, hi, e', he', by simpa using ht⟩
    | @write u x hd hx =>
      rw [Instr.dest?_withDest (by simpa using (Instr.localDest?_eq_some.1 hd).1)] at ht
      rw [← Option.some.inj ht, hx] at hg
      cases hg
  · have hphi' : i'.isPhi = false := by cases i' <;> first | rfl | cases ht
    obtain ⟨pre₀, pre, i, vs, vs', hi, -, hstep⟩ := hbody hi' hphi'
    exact ⟨i, hi, hstep.called?_eq ▸ ht⟩

/-- SSA construction makes the form and keeps all that the graph does. -/
theorem improves {env : Surroundings} (h : c.Closed) (hphi : c.PhiFree) :
    c.Improves env params r.cfg where
  ssaForm := r.ssaForm_cfg h hphi
  refines _ _ _ _ _ hrun := (r.runs_iff h fun b hb => ⟨[], b.body, rfl, nofun, hphi b hb⟩).2 hrun
  keeps := r.keeps hphi
  keyed _ := r.keyed_cfg hphi

end Renaming

end ThreeAddress.Ssa

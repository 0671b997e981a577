import ThreeAddress.Proofs.Improvement
import ThreeAddress.Proofs.MapBlocks
/-!
# Rewriting in place

Rewritings that keep every block, every source and every jump. On graphs in SSA form all that is asked
of them is that what is read instead of an operand is defined where the operand is and has its value
there: an instruction, a jump and the source of a phi all read at some point of a block.
-/

namespace ThreeAddress

namespace Rewriting

/-- A block after the rewriting. -/
def block (r : Rewriting) (b : Block) : Block :=
  ⟨b.label, r.body b.label b.body, b.jumps.map (·.mapOperands r.operand)⟩

/-- Where no source is taken away, phis are rewritten like other instructions. -/
theorem instr_of_source {r : Rewriting} (h : ∀ l k, r.source l k = true) (l : Label) (i : Instr) :
    r.instr l i = i.mapOperands r.operand := by
  cases i with
  | phi dest sources =>
    have : sources.filter (r.source l) = sources := by
      simp [PhiSources.filter, h]
    simp [instr, Instr.mapOperands, this]
  | _ => rfl

@[simp] theorem label_block (r : Rewriting) (b : Block) : (r.block b).label = b.label := rfl

@[simp] theorem targets_block (r : Rewriting) (b : Block) : (r.block b).targets = b.targets := by
  rw [Block.targets, block, List.filterMap_map]
  exact List.filterMap_congr fun j _ => Instr.target?_mapOperands _ j

/-- What is read instead of an operand is defined where the operand is, and globals are left alone. -/
structure InPlace (r : Rewriting) (c : Cfg) : Prop where
  source : ∀ l k, r.source l k = true
  operand : ∀ o t, r.operand o = .temp t → t ∈ c.writtenLocals → o = .temp t ∨
    ∃ x ∈ c.writtenLocals, o = .temp x ∧ ∀ b ∈ c.blocks, ∀ pre post, b.body = pre ++ post →
      c.DefinedAt b.label pre x → c.DefinedAt b.label pre t
  operand_global : ∀ t, t.isGlobal = true → r.operand (.temp t) = .temp t
  eq_of_operand_global : ∀ o t, r.operand o = .temp t → t.isGlobal = true → o = .temp t

variable {r : Rewriting} {c : Cfg} {params : List Temp}

theorem valid_block (h : c.Valid) : (c.mapBlocks r.block).Valid := by
  refine h.mapBlocks r.label_block (fun b _ => r.targets_block b) ?_ ?_
  · intro b hb l hl
    obtain ⟨dest, sources', hi', hl⟩ := Cfg.mem_sourceLabels.1 hl
    obtain ⟨sources, hi, -, rfl⟩ := phi_of_mem_body hi'
    rw [PhiSources.labels_mapOperands, PhiSources.mem_labels] at hl
    obtain ⟨o, ho⟩ := hl
    rw [PhiSources.find?_filter] at ho
    split at ho
    · exact h.source b hb l
        (Cfg.mem_sourceLabels.2 ⟨dest, sources, hi, PhiSources.mem_labels.2 ⟨o, ho⟩⟩)
    · simp at ho
  · intro b hb i' hi'
    obtain ⟨i, hi, -, rfl⟩ := mem_body.1 hi'
    rw [isTerminator_instr]
    exact h.body b hb i hi

theorem InPlace.tidy (hr : r.InPlace c) :
    r.Tidy (fun _ => true) (fun b => b.jumps.map (·.mapOperands r.operand)) c (c.mapBlocks r.block) := by
  refine ⟨rfl, ?_, ?_, ?_, hr.operand, hr.operand_global, hr.eq_of_operand_global, ?_⟩
  · rw [List.filter_true]
    rfl
  · intro b _ t ht
    exact targets_block r b ▸ ht
  · intro b _ j' hj' o' ho'
    obtain ⟨j, hj, rfl⟩ := List.mem_map.1 hj'
    obtain ⟨o, ho, rfl⟩ := Instr.mem_uses_mapOperands.1 ho'
    exact ⟨j, hj, o, ho, rfl⟩
  · intro b hb _ l hedge
    rw [Cfg.edge_mapBlocks r.label_block fun b _ => r.targets_block b]
    exact iff_of_true (hr.source _ _) hedge

theorem endsOnce_block (h : ∀ b ∈ c.blocks, b.EndsOnce) : ∀ b' ∈ (c.mapBlocks r.block).blocks, b'.EndsOnce := by
  intro b' hb'
  obtain ⟨b, hb, rfl⟩ := List.mem_map.1 hb'
  exact (h b hb).map rfl

/-- What linear code can be written from before a rewriting in place it can be written from behind it. -/
theorem closed_block (h : c.Closed) : (c.mapBlocks r.block).Closed := by
  refine ⟨valid_block h.toValid, endsOnce_block h.endsOnce, fun b' hb' i' hi' => ?_⟩
  obtain ⟨b, hb, rfl⟩ := List.mem_map.1 hb'
  obtain ⟨i, hi, -, rfl⟩ := mem_body.1 hi'
  rw [label?_instr]
  exact h.unlabelled b hb i hi

/-- A rewriting in place restores the form. -/
theorem InPlace.ssaForm (hr : r.InPlace c) (h : c.SsaForm params) :
    (c.mapBlocks r.block).SsaForm params :=
  hr.tidy.ssaForm h (valid_block h.toValid) (endsOnce_block h.endsOnce)

/-- A rewriting in place is sound if at every point the new operands have the values of the old ones
that can be read there. -/
theorem sound_block (h : c.Strict params) (hsource : ∀ l k, r.source l k = true) {calls : Calls}
    {At : Block → List Instr → Store → Prop} (hinv : c.Invariant calls At) {hidden : Temp → Prop}
    (hshows : ∀ {b pre post o σ v}, b ∈ c.blocks → b.body = pre ++ post → At b pre σ →
      (∀ u ∈ c.writtenLocals, o = .temp u → c.DefinedAt b.label pre u) → σ.value? o = some v →
      Shows hidden σ (r.operand o) v)
    (hdrop : ∀ b ∈ c.blocks, ∀ i ∈ b.body, r.keeps i = false → i.isPhi = false →
      (∀ k v, i ≠ .param k v) ∧ (∀ d t n, i ≠ .call d t n) ∧
        ∀ t, i.dest? = some t → t.isGlobal = false ∧ hidden t)
    (hdropPhi : ∀ {p b dest sources σ}, p ∈ c.blocks → b ∈ c.blocks → At p p.body σ →
      c.Edge p.label b.label → .phi dest sources ∈ b.body → r.keeps (.phi dest sources) = false →
      dest.isGlobal = false → hidden dest) :
    r.Sound calls c (c.mapBlocks r.block) At hidden where
  toInvariant := hinv
  found hb _ := ⟨r.block _, by rw [Cfg.block?_mapBlocks r.label_block, h.block?_of_mem hb]; rfl, rfl⟩
  read hb hsplit hphi _ hat ho hv :=
    hshows hb hsplit hat (fun u hu hou => h.read hb hsplit hphi
      (Instr.mem_usedTemps.2 (hou ▸ ho)) hu) hv
  drop hb hsplit hk _ he := hdrop _ hb _ (by simp [hsplit]) hk he.plain.1
  source hp hb hat he hi _ ho :=
    ⟨hsource _ _, fun _ _ _ hv => hshows hp (List.append_nil _).symm hat (fun _ hu hou =>
      h.phiRead hp hb ⟨_, hp, rfl, Store.mem_targets_of_exit? he⟩ hi (hou ▸ ho) hu) hv⟩
  dropPhi hp hb hat he hi hk hg :=
    hdropPhi hp hb hat ⟨_, hp, rfl, Store.mem_targets_of_exit? he⟩ hi hk hg
  exit {b b' σ τ e} hb hat he hs hb' := by
    rw [Cfg.block?_mapBlocks r.label_block, h.block?_of_mem hb] at hb'
    cases hb'
    refine hs.exit? (fun j hj o ho v hv => ?_) he
    exact hshows hb (List.append_nil _).symm hat (fun u hu hou => h.jump hb hj
      (Instr.mem_usedTemps.2 (hou ▸ ho)) hu) hv

end Rewriting

end ThreeAddress

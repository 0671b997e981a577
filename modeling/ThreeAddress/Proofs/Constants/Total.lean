import ThreeAddress.Proofs.Constants.Changes
import ThreeAddress.Proofs.Constants.Undefined
import ThreeAddress.Proofs.FormCheck
/-!
# Folding mends nothing where reads follow writes

A graph is grounded if every versioned name that blocks in reach read is written on every path to the place that
reads it. Then whatever executes has risen: what it writes and what it reads (`value_ne_unused_of_dest`,
`value_ne_unused_of_read`), and what its jumps test (`operand_ne_unused_of_jump`). So folding leaves no violation,
deletes nothing for being undefined and does not have to close a block (`foldConstants_total`).
-/

namespace ThreeAddress

/-- Every versioned name that blocks in reach read is written on every path to the place that reads it, phis have a
source for each predecessor, and blocks end with one jump or return. Names may be written more than once. -/
structure Cfg.Grounded (c : Cfg) : Prop extends c.Valid where
  endsOnce : ∀ b ∈ c.blocks, b.EndsOnce
  entryPhi {b : Block} {i : Instr} : b ∈ c.blocks → b.label = c.entry → i ∈ b.body → i.isPhi = false
  phiSource {b : Block} {dest : Temp} {sources : PhiSources} {l : Label} : b ∈ c.blocks →
    .phi dest sources ∈ b.body → c.Edge l b.label → l ∈ sources.labels
  read {b : Block} {pre post : List Instr} {i : Instr} {t : Temp} : b ∈ c.blocks → c.Reachable b.label →
    b.body = pre ++ i :: post → i.isPhi = false → t ∈ i.usedTemps → t.isVersioned = true →
    c.DefinedAt b.label pre t
  jump {b : Block} {j : Instr} {t : Temp} : b ∈ c.blocks → c.Reachable b.label → j ∈ b.jumps →
    t ∈ j.usedTemps → t.isVersioned = true → c.DefinedAt b.label b.body t
  /-- A phi reads the source for a predecessor at the end of that block. -/
  phiRead {p b : Block} {dest t : Temp} {sources : PhiSources} : p ∈ c.blocks → b ∈ c.blocks →
    c.Reachable p.label → c.Edge p.label b.label → .phi dest sources ∈ b.body →
    sources.find? p.label = some (.temp t) → t.isVersioned = true → c.DefinedAt p.label p.body t

variable {c : Cfg}

theorem Cfg.Grounded.defines (h : c.Grounded) : c.Defines fun _ => True where
  toValid := h.toValid
  entryPhi := h.entryPhi
  phiSource := h.phiSource
  read hb hr hsplit hphi ht := ⟨trivial, h.read hb hr hsplit hphi ht⟩
  phiRead hp hb hr hedge hi _ ho := ⟨trivial, h.phiRead hp hb hr hedge hi ho⟩

/-- A graph in strict SSA form is grounded if the versioned names that it reads are written at all. -/
theorem Cfg.Strict.grounded {params : List Temp} (h : c.Strict params) (hends : ∀ b ∈ c.blocks, b.EndsOnce)
    (hentry : ∀ b ∈ c.blocks, b.label = c.entry → ∀ i ∈ b.body, i.isPhi = false) (hphi : c.PhiForm)
    (hwritten : ∀ b ∈ c.blocks, ∀ i ∈ b.instrs, ∀ t ∈ i.usedTemps, t.isVersioned = true → t ∈ c.writtenLocals) :
    c.Grounded where
  toValid := h.toValid
  endsOnce := hends
  entryPhi {b i} hb hl hi := hentry b hb hl i hi
  phiSource := hphi.phiSource
  read {b pre post i t} hb _ hsplit hphi ht hversion :=
    have hi : i ∈ b.instrs := by simp [Block.instrs, hsplit]
    h.read hb hsplit hphi ht (hwritten b hb i hi t ht hversion)
  jump {b j t} hb _ hj ht hversion :=
    h.jump hb hj ht (hwritten b hb j (List.mem_append_right _ hj) t ht hversion)
  phiRead {p b dest t sources} hp hb _ hedge hi ho hversion :=
    have ht : t ∈ (Instr.phi dest sources).usedTemps := Instr.mem_usedTemps.2 (PhiSources.mem_operands ho)
    h.phiRead hp hb hedge hi ho (hwritten b hb _ (List.mem_append_left _ hi) t ht hversion)

namespace Constants

variable {f : Facts} {b : Block}

/-! ## What executes has risen -/

theorem value_ne_unused_of_dest (h : c.Grounded) (hb : b ∈ c.blocks) (hx : (analyze c).executes b.label = true)
    {i : Instr} (hi : i ∈ b.body) {t : Temp} (ht : i.dest? = some t) : (analyze c).value t ≠ .unused := by
  obtain ⟨ls, hls⟩ := reachable_of_executes hx
  exact value_ne_unused h.defines hls hb rfl (List.append_nil _).symm trivial (.inl ⟨i, hi, ht⟩)

theorem operand_ne_unused_of_jump (h : c.Grounded) (hb : b ∈ c.blocks) (hx : (analyze c).executes b.label = true)
    {j : Instr} (hj : j ∈ b.jumps) {o : Operand} (ho : o ∈ j.uses) : (analyze c).operand o ≠ .unused := by
  obtain ⟨ls, hls⟩ := reachable_of_executes hx
  refine Facts.operand_ne_unused fun t hot hunused => ?_
  have ht : t ∈ j.usedTemps := Instr.mem_usedTemps.2 (hot ▸ ho)
  have hdef := h.jump hb ⟨ls, path_of_folded hls⟩ hj ht (isVersioned_of_unused hunused)
  exact value_ne_unused h.defines hls hb rfl (List.append_nil _).symm trivial hdef hunused

/-! ## Nothing is mended -/

theorem isUndefined_eq_false {i : Instr} (hdest : ∀ t, i.dest? = some t → f.value t ≠ .unused)
    (hread : i.isPhi = false → ∀ t ∈ i.usedTemps, f.value t ≠ .unused) : isUndefined f i = false := by
  by_contra h
  rcases exists_of_isUndefined (by simpa using h) with ⟨t, ht, hunused⟩ | ⟨hphi, t, ht, hunused⟩
  · exact hdest t ht hunused
  · exact hread hphi t ht hunused

/-- Jumps that test nothing undefined lead out of the block. -/
theorem isOpen_decideJumps (hb : b.EndsOnce) (h : ∀ j ∈ b.jumps, ∀ o ∈ j.uses, f.operand o ≠ .unused) :
    isOpen (decideJumps f b.jumps).kept = false := by
  obtain ⟨branches, last, hj, hbranches, hl⟩ := hb
  rw [hj] at h ⊢
  clear hj
  induction branches with
  | nil =>
    cases last with
    | jump l => rfl
    | ret v? =>
      cases v? with
      | none => rfl
      | some v =>
        simp only [List.nil_append, decideJumps]
        split <;> rfl
    | _ => cases hl
  | cons j branches ih =>
    obtain ⟨⟨cond, v, l, rfl⟩, hrest⟩ := List.forall_mem_cons.1 hbranches
    have ih := ih (fun j hj => h j (.tail _ hj)) hrest
    have hv := h _ List.mem_cons_self v List.mem_cons_self
    simp only [List.cons_append, decideJumps]
    split
    · rwa [isOpen_branch]
    · split
      · rfl
      · exact ih
    · exact absurd ‹_› hv

/-- On a grounded graph folding leaves no violation, no instruction is deleted for being undefined, and no block is
closed with a return that it did not have. -/
theorem foldConstants_total (h : c.Grounded) : (foldConstants c).2 = none ∧
    Folding.defined ⟨analyze c, c⟩ = Folding.pruned ⟨analyze c, c⟩ ∧
    (∀ b ∈ (Folding.executable ⟨analyze c, c⟩).blocks,
      resolveJumps (analyze c) b.jumps = (decideJumps (analyze c) b.jumps).kept) ∧
    ∀ e ∈ (foldConstants c).1.events, e.kind ≠ .instructionRemoved ∧ e.kind ≠ .warning := by
  have hexecutable : ∀ b ∈ (Folding.executable ⟨analyze c, c⟩).blocks,
      b ∈ c.blocks ∧ (analyze c).executes b.label = true := fun b hb =>
    have hb := List.mem_filter.1 hb
    ⟨hb.1, executes_of_not_isDead (by simpa using hb.2)⟩
  have hopen : ∀ b ∈ (Folding.executable ⟨analyze c, c⟩).blocks,
      isOpen (decideJumps (analyze c) b.jumps).kept = false := fun b hb =>
    have hb := hexecutable b hb
    isOpen_decideJumps (h.endsOnce b hb.1) fun _ hj _ ho => operand_ne_unused_of_jump h hb.1 hb.2 hj ho
  have hdefined : ∀ b ∈ (Folding.pruned ⟨analyze c, c⟩).blocks, ∀ i ∈ b.body,
      isUndefined (analyze c) i = false := by
    intro b' hb' i' hi'
    obtain ⟨b, hb, rfl⟩ := Cfg.mem_mapBlocks.1 hb'
    obtain ⟨i, hi, rfl⟩ := List.mem_map.1 hi'
    obtain ⟨hb, hx⟩ := hexecutable b hb
    rw [isUndefined_pruneInstr]
    exact isUndefined_eq_false (fun t ht => value_ne_unused_of_dest h hb hx hi ht)
      fun hphi t ht => value_ne_unused_of_read h.defines hb hx hi hphi ht
  refine ⟨foldConstants_ok_of_defines h.defines h.endsOnce, Folding.defined_eq_pruned hdefined,
    fun b hb => by simp [resolveJumps, hopen b hb], fun e he => ?_⟩
  -- The other kinds are for undefined instructions and for blocks that have to be closed: there are none.
  rcases kind_of_mem_events he with hkind | hkind | hkind | ⟨-, b, hb, i, hi, hundefined⟩ | ⟨-, b, hb, hclosed⟩
  · simp [hkind]
  · simp [hkind]
  · simp [hkind]
  · rw [hdefined b hb i hi] at hundefined
    cases hundefined
  · rw [hopen b hb] at hclosed
    cases hclosed

theorem foldConstants_total_countdown : countdown.Grounded ∧ (foldConstants countdown).2 = none ∧
    Folding.defined ⟨analyze countdown, countdown⟩ = Folding.pruned ⟨analyze countdown, countdown⟩ ∧
    ∀ e ∈ (foldConstants countdown).1.events, e.kind ≠ .instructionRemoved ∧ e.kind ≠ .warning := by
  have hvalid : Cfg.ofBlocks countdown.proc countdown.blocks = .ok countdown := rfl
  have hstrict : countdown.Strict [⟨"%n"⟩] := (Cfg.ofBlocks_eq_ok.1 hvalid).2.2.strict (by decide +kernel)
  have hgrounded : countdown.Grounded := hstrict.grounded (by decide) (by decide)
    (Cfg.phiForm_of_phiIsWhole (by decide)) (by decide)
  obtain ⟨hnone, hdefined, -, hevents⟩ := foldConstants_total hgrounded
  exact ⟨hgrounded, hnone, hdefined, hevents⟩

end Constants

end ThreeAddress

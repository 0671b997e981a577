import ThreeAddress.Proofs.Constants.Folding
import ThreeAddress.Proofs.MapBlocks
/-!
# What folding changes, and what it records

Folding leaves a graph as it is if and only if no block is deleted and none holds anything to delete or to fold
(`Untouched`, `folded_eq_self_iff`), and it says so (`changed_iff`). What it deletes and folds is not always
recorded: blocks may change silently (`Silent`, `changed_iff_recorded`).
-/

namespace ThreeAddress.Constants

variable {f : Facts} {c : Cfg} {b : Block}

/-! ## Operands -/

theorem fold_eq_self_iff {o : Operand} : fold f o = o ↔ ∀ t, o = .temp t → (f.value t).constant? = none := by
  cases o with
  | imm k => simp [fold]
  | temp t => cases h : (f.value t).constant? <;> simp [fold, h]

theorem fold_fold (f : Facts) (o : Operand) : fold f (fold f o) = fold f o := by
  cases o with
  | imm k => rfl
  | temp t => cases h : (f.value t).constant? <;> simp [fold, h]

theorem foldedConstants_eq_nil_iff :
    foldedConstants f c = [] ↔ ∀ b ∈ c.blocks, ∀ i ∈ b.instrs, ∀ o ∈ i.uses, fold f o = o := by
  simp only [foldedConstants, List.filterMap_eq_nil_iff, List.mem_eraseDups, List.mem_flatMap, Cfg.instrs,
    Option.map_eq_none_iff, fold_eq_self_iff]
  constructor
  · rintro h b hb i hi _ ho t rfl
    exact h t ⟨i, ⟨b, hb, hi⟩, Instr.mem_usedTemps.2 ho⟩
  · rintro h t ⟨i, ⟨b, hb, hi⟩, ht⟩
    exact h b hb i hi _ (Instr.mem_usedTemps.1 ht) t rfl

/-! ## Jumps -/

/-- Where the jumps stay, none of them is decided. -/
theorem decided_eq_nil {js : List Instr} (h : resolveJumps f js = js) : (decideJumps f js).decided = [] := by
  induction js with
  | nil => rfl
  | cons j js ih =>
    cases j with
    | branch cond v l =>
      have hv : f.operand v = .varies := by
        have hmem : .branch cond v l ∈ resolveJumps f (.branch cond v l :: js) := by
          rw [h]
          exact List.mem_cons_self
        rcases mem_resolveJumps hmem with hnil | ⟨-, hvaries, -⟩
        · cases hnil
        · exact hvaries _ _ _ rfl
      rw [resolveJumps_varies hv, List.cons.injEq] at h
      simpa only [decideJumps, hv] using ih h.2
    | ret v? =>
      cases v? with
      | none => rfl
      | some v =>
        simp only [decideJumps]
        split <;> rfl
    | _ => rfl

/-! ## Untouched blocks -/

theorem mapOperands_eq_self_iff {g : Operand → Operand} {i : Instr} :
    i.mapOperands g = i ↔ ∀ o ∈ i.uses, g o = o := by
  constructor
  · intro h
    exact map_eq_self_iff.1 ((Instr.uses_mapOperands g i).symm.trans (congrArg Instr.uses h))
  · intro h
    cases i with
    | phi dest sources =>
      have hentries : sources.mapOperands (fun _ => g) = sources :=
        PhiSources.ext (map_eq_self_iff.2 fun e he => Prod.ext rfl (h e.2 (List.mem_map_of_mem he)))
      exact congrArg (Instr.phi dest) hentries
    | ret v? => cases v? <;> simp_all [Instr.mapOperands, Instr.uses]
    | _ => simp_all [Instr.mapOperands, Instr.uses]

theorem pruneInstr_eq_self {l : Label} {i : Instr} (h : losesSource f l i = false) : pruneInstr f l i = i := by
  cases i with
  | phi dest sources =>
    refine congrArg (Instr.phi dest) (PhiSources.ext (List.filter_eq_self.2 fun e he => ?_))
    simpa using List.any_eq_false.1 h e.1 (List.mem_map_of_mem he)
  | _ => rfl

theorem instr_eq_self_iff {l : Label} {i : Instr} :
    (rewriting f).instr l i = i ↔ losesSource f l i = false ∧ ∀ o ∈ i.uses, fold f o = o := by
  rw [← mapOperands_pruneInstr]
  constructor
  · intro h
    have hloses : losesSource f l i = false := by
      cases i with
      | phi dest sources =>
        have hlabels : sources.labels.filter (f.follows · l) = sources.labels := by
          simpa [pruneInstr, Instr.mapOperands] using congrArg PhiSources.labels (Instr.phi.inj h).2
        simpa [losesSource] using List.filter_eq_self.1 hlabels
      | _ => rfl
    rw [pruneInstr_eq_self hloses, mapOperands_eq_self_iff] at h
    exact ⟨hloses, h⟩
  · rintro ⟨hloses, huses⟩
    rw [pruneInstr_eq_self hloses, mapOperands_eq_self_iff]
    exact huses

/-- Nothing in a block is to be deleted or put in another's place. -/
structure Untouched (f : Facts) (b : Block) : Prop where
  jumps : resolveJumps f b.jumps = b.jumps
  source : ∀ i ∈ b.body, losesSource f b.label i = false
  defined : ∀ i ∈ b.body, isUndefined f i = false
  varies : ∀ i ∈ b.body, definesConstant f i = false
  operand : ∀ i ∈ b.instrs, ∀ o ∈ i.uses, fold f o = o

/-- Jumps that have been folded and are the same as before have not been touched. -/
theorem resolveJumps_of_fixed {js : List Instr} (h : (resolveJumps f js).map (·.mapOperands (fold f)) = js) :
    resolveJumps f js = js ∧ ∀ j ∈ js, ∀ o ∈ j.uses, fold f o = o := by
  have hread : ∀ j ∈ js, ∀ o ∈ j.uses, fold f o = o := by
    intro j hj o ho
    rw [← h] at hj
    obtain ⟨i, -, rfl⟩ := List.mem_map.1 hj
    obtain ⟨o, -, rfl⟩ := Instr.mem_uses_mapOperands.1 ho
    exact fold_fold f o
  have hresolved : (resolveJumps f js).map (·.mapOperands (fold f)) = resolveJumps f js := by
    refine map_eq_self_iff.2 fun j hj => mapOperands_eq_self_iff.2 fun o ho => ?_
    rcases mem_resolveJumps hj with hnil | ⟨hj, -⟩
    · rw [hnil] at ho
      cases ho
    · exact hread j hj o ho
  exact ⟨hresolved.symm.trans h, hread⟩

theorem foldBlock_eq_self_iff : foldBlock f b = b ↔ Untouched f b := by
  constructor
  · intro h
    have hbody : ∀ i ∈ b.body, (rewriting f).keeps i = true ∧ (rewriting f).instr b.label i = i :=
      map_filter_eq_self_iff.1 (congrArg Block.body h)
    obtain ⟨hjumps, hread⟩ := resolveJumps_of_fixed (congrArg Block.jumps h)
    have hinstr := fun i hi => instr_eq_self_iff.1 (hbody i hi).2
    refine ⟨hjumps, fun i hi => (hinstr i hi).1, fun i hi => ?_, fun i hi => ?_, fun i hi => ?_⟩
    · simpa using (Bool.and_eq_true_iff.1 (hbody i hi).1).1
    · simpa using (Bool.and_eq_true_iff.1 (hbody i hi).1).2
    · rcases List.mem_append.1 hi with hi | hi
      · exact (hinstr i hi).2
      · exact hread i hi
  · intro h
    have hbody : (rewriting f).body b.label b.body = b.body :=
      map_filter_eq_self_iff.2 fun i hi => ⟨by simp [rewriting, h.defined i hi, h.varies i hi],
        instr_eq_self_iff.2 ⟨h.source i hi, h.operand i (List.mem_append_left _ hi)⟩⟩
    have hjumps : (resolveJumps f b.jumps).map (·.mapOperands (fold f)) = b.jumps := by
      rw [h.jumps]
      exact map_eq_self_iff.2 fun j hj => mapOperands_eq_self_iff.2 (h.operand j (List.mem_append_right _ hj))
    rw [foldBlock, hbody, hjumps]

/-! ## Untouched graphs -/

theorem folded_eq_self_iff :
    Folding.folded ⟨f, c⟩ = c ↔ ∀ b ∈ c.blocks, isDead f c b = false ∧ Untouched f b := by
  have hblocks : Folding.folded ⟨f, c⟩ = c ↔ (c.blocks.filter (!isDead f c ·)).map (foldBlock f) = c.blocks := by
    rw [← folded_blocks]
    exact ⟨congrArg Cfg.blocks, fun h => congrArg (fun bs => { c with blocks := bs }) h⟩
  rw [hblocks, map_filter_eq_self_iff]
  exact forall₂_congr fun b _ => and_congr (by rw [Bool.not_eq_true']) foldBlock_eq_self_iff

namespace Folding

variable {s : Folding}

/-! A step that finds nothing changes nothing. -/

theorem executable_eq_source (h : ∀ b ∈ s.source.blocks, isDead s.facts s.source b = false) :
    s.executable = s.source := by
  rw [executable, removeDead, List.filter_eq_self.2 fun b hb => by simp [h b hb]]

theorem pruned_eq_executable (h : ∀ b ∈ s.executable.blocks, resolveJumps s.facts b.jumps = b.jumps ∧
    ∀ i ∈ b.body, losesSource s.facts b.label i = false) : s.pruned = s.executable := by
  refine Cfg.mapBlocks_eq_self fun b hb => ?_
  rw [prune, (h b hb).1, map_eq_self_iff.2 fun i hi => pruneInstr_eq_self ((h b hb).2 i hi)]

theorem defined_eq_pruned (h : ∀ b ∈ s.pruned.blocks, ∀ i ∈ b.body, isUndefined s.facts i = false) :
    s.defined = s.pruned :=
  Cfg.mapBlocks_eq_self fun b hb => by rw [removeUndefined, List.filter_eq_self.2 fun i hi => by simp [h b hb i hi]]

theorem dropped_eq_defined (h : ∀ b ∈ s.defined.blocks, ∀ i ∈ b.body, definesConstant s.facts i = false) :
    s.dropped = s.defined :=
  Cfg.mapBlocks_eq_self fun b hb => by rw [dropConstants, List.filter_eq_self.2 fun i hi => by simp [h b hb i hi]]

end Folding

/-- Folding says that it changed nothing if every block executes and is untouched. -/
theorem changed_eq_false_iff :
    Folding.changed ⟨f, c⟩ = false ↔ ∀ b ∈ c.blocks, isDead f c b = false ∧ Untouched f b := by
  simp only [Folding.changed, Bool.or_eq_false_iff, List.any_eq_false, Bool.not_eq_true, Bool.not_eq_false',
    decide_eq_false_iff_not, ne_eq, not_not, List.isEmpty_iff, foldedConstants_eq_nil_iff]
  constructor
  · rintro ⟨⟨⟨⟨hdead, hkept⟩, hundefined⟩, hconstants⟩, hfolded⟩
    -- Each step leaves the graph as it is, so that the next one is asked about the graph itself.
    have hexecutable : Folding.executable ⟨f, c⟩ = c := Folding.executable_eq_source hdead
    have hpruned := (Folding.pruned_eq_executable hkept).trans hexecutable
    have hdefined := (Folding.defined_eq_pruned hundefined).trans hpruned
    have hdropped := (Folding.dropped_eq_defined hconstants).trans hdefined
    rw [hdropped] at hfolded
    rw [hdefined] at hconstants
    rw [hpruned] at hundefined
    rw [hexecutable] at hkept
    exact fun b hb => ⟨hdead b hb, (hkept b hb).1, (hkept b hb).2, hundefined b hb, hconstants b hb, hfolded b hb⟩
  · intro h
    have hdead : ∀ b ∈ c.blocks, isDead f c b = false := fun b hb => (h b hb).1
    have huntouched : ∀ b ∈ c.blocks, Untouched f b := fun b hb => (h b hb).2
    have hexecutable : Folding.executable ⟨f, c⟩ = c := Folding.executable_eq_source hdead
    rw [← hexecutable] at huntouched
    have hpruned : Folding.pruned ⟨f, c⟩ = Folding.executable ⟨f, c⟩ :=
      Folding.pruned_eq_executable fun b hb => ⟨(huntouched b hb).jumps, (huntouched b hb).source⟩
    have hdefined : Folding.defined ⟨f, c⟩ = Folding.executable ⟨f, c⟩ :=
      (Folding.defined_eq_pruned (hpruned ▸ fun b hb => (huntouched b hb).defined)).trans hpruned
    have hdropped : Folding.dropped ⟨f, c⟩ = Folding.executable ⟨f, c⟩ :=
      (Folding.dropped_eq_defined (hdefined ▸ fun b hb => (huntouched b hb).varies)).trans hdefined
    rw [hdropped, hdefined, hpruned]
    exact ⟨⟨⟨⟨hdead, fun b hb => ⟨(huntouched b hb).jumps, (huntouched b hb).source⟩⟩,
      fun b hb => (huntouched b hb).defined⟩, fun b hb => (huntouched b hb).varies⟩,
      fun b hb => (huntouched b hb).operand⟩

/-- Folding says that it changed something if and only if it did. -/
theorem changed_iff : Folding.changed ⟨f, c⟩ = true ↔ Folding.folded ⟨f, c⟩ ≠ c := by
  rw [Ne, folded_eq_self_iff, ← changed_eq_false_iff, Bool.not_eq_false]

/-! ## What is recorded -/

theorem mem_affected_deadEvents :
    c.proc ∈ EventLog.affected (deadEvents f c) ↔ ∃ b ∈ c.blocks, isDead f c b = true := by
  rw [deadEvents, EventLog.mem_affected_map fun _ => ⟨rfl, rfl⟩]
  simp

/-- Decided jumps are recorded. That a block is closed with a return is a warning only. -/
theorem mem_affected_jumpEvents {proc : String} :
    proc ∈ EventLog.affected (jumpEvents f proc b) ↔ (decideJumps f b.jumps).decided ≠ [] := by
  have hwarn : proc ∉ EventLog.affected (if isOpen (decideJumps f b.jumps).kept
      then [.warn s!"{proc}: {b.label} closed with ret"] else []) := by
    rw [EventLog.mem_affected]
    rintro ⟨e, he, htransforms⟩
    split at he
    · obtain rfl := List.mem_singleton.1 he
      cases htransforms.1
    · cases he
  rw [jumpEvents, EventLog.mem_affected_append, or_iff_left hwarn, EventLog.mem_affected_map fun _ => ⟨rfl, rfl⟩]

theorem mem_affected_undefinedEvents {proc : String} :
    proc ∈ EventLog.affected (undefinedEvents f proc b) ↔ ∃ i ∈ b.body, isUndefined f i = true := by
  rw [undefinedEvents, EventLog.mem_affected_map fun _ => ⟨rfl, rfl⟩]
  simp

theorem mem_affected_foldEvents :
    c.proc ∈ EventLog.affected (foldEvents f c) ↔ foldedConstants f c ≠ [] :=
  EventLog.mem_affected_map fun _ => ⟨rfl, rfl⟩

/-- What the events of the pass say, and when it deletes what is never defined or closes a block. -/
theorem kind_of_mem_events {s : Folding} {e : Event} (h : e ∈ s.events) :
    e.kind = .blockRemoved ∨ e.kind = .branchSimplified ∨ e.kind = .constantFolded ∨
      (e.kind = .instructionRemoved ∧ ∃ b ∈ s.pruned.blocks, ∃ i ∈ b.body, isUndefined s.facts i = true) ∨
      (e.kind = .warning ∧ ∃ b ∈ s.executable.blocks, isOpen (decideJumps s.facts b.jumps).kept = true) := by
  simp only [Folding.events, List.mem_append, List.mem_flatMap] at h
  rcases h with ((hdead | ⟨b, hb, hjump⟩) | ⟨b, hb, hundefined⟩) | hfold
  · obtain ⟨b, -, rfl⟩ := List.mem_map.1 hdead
    exact .inl rfl
  · rcases List.mem_append.1 hjump with hjump | hjump
    · obtain ⟨d, -, rfl⟩ := List.mem_map.1 hjump
      exact .inr (.inl rfl)
    · split at hjump
      · obtain rfl := List.mem_singleton.1 hjump
        exact .inr (.inr (.inr (.inr ⟨rfl, b, hb, ‹_›⟩)))
      · cases hjump
  · obtain ⟨i, hi, rfl⟩ := List.mem_map.1 hundefined
    obtain ⟨hi, hu⟩ := List.mem_filter.1 hi
    exact .inr (.inr (.inr (.inl ⟨rfl, b, hb, i, hi, hu⟩)))
  · obtain ⟨u, -, rfl⟩ := List.mem_map.1 hfold
    exact .inr (.inr (.inl rfl))

/-- A block is changed where no event tells of it: its jumps though none of them is decided, a phi by losing sources,
or an instruction that defines a constant by being deleted. -/
def Silent (f : Facts) (b : Block) : Prop :=
  ((decideJumps f b.jumps).decided = [] ∧ resolveJumps f b.jumps ≠ b.jumps) ∨
  (∃ i ∈ b.body, losesSource f b.label i = true) ∨
  ∃ i ∈ b.body, isUndefined f i = false ∧ definesConstant f i = true

/-- Definitions of constants are deleted where they are not deleted for being undefined. -/
theorem exists_definesConstant_iff {s : Folding} :
    (∃ b ∈ s.defined.blocks, ∃ i ∈ b.body, definesConstant s.facts i = true) ↔
      ∃ b ∈ s.executable.blocks, ∃ i ∈ b.body, isUndefined s.facts i = false ∧ definesConstant s.facts i = true := by
  constructor
  · rintro ⟨b'', hb'', i', hi', hdefines⟩
    obtain ⟨b', hb', rfl⟩ := Cfg.mem_mapBlocks.1 hb''
    obtain ⟨b, hb, rfl⟩ := Cfg.mem_mapBlocks.1 hb'
    obtain ⟨hi', hdefined⟩ := List.mem_filter.1 hi'
    obtain ⟨i, hi, rfl⟩ := List.mem_map.1 hi'
    rw [isUndefined_pruneInstr] at hdefined
    rw [definesConstant_pruneInstr] at hdefines
    exact ⟨b, hb, i, hi, by simpa using hdefined, hdefines⟩
  · rintro ⟨b, hb, i, hi, hdefined, hdefines⟩
    refine ⟨_, Cfg.mem_mapBlocks.2 ⟨_, Cfg.mem_mapBlocks.2 ⟨b, hb, rfl⟩, rfl⟩, _,
      List.mem_filter.2 ⟨List.mem_map_of_mem hi, ?_⟩, ?_⟩
    · rw [isUndefined_pruneInstr, hdefined]
      rfl
    · rwa [definesConstant_pruneInstr]

/-- Folding says that it changed something if and only if it records a transformation or changes a block silently. -/
theorem changed_iff_recorded : Folding.changed ⟨f, c⟩ = true ↔
    c.proc ∈ EventLog.affected (Folding.events ⟨f, c⟩) ∨ ∃ b ∈ c.blocks, isDead f c b = false ∧ Silent f b := by
  have hexecutable : (∃ b ∈ c.blocks, isDead f c b = false ∧ Silent f b) ↔
      ∃ b ∈ (Folding.executable ⟨f, c⟩).blocks, Silent f b := by
    simp [Folding.executable, removeDead, and_assoc]
  simp only [Folding.changed, Folding.events, Bool.or_eq_true, List.any_eq_true, decide_eq_true_eq,
    exists_definesConstant_iff, Bool.not_eq_true', List.isEmpty_eq_false_iff, EventLog.mem_affected_append,
    EventLog.mem_affected_flatMap, mem_affected_deadEvents, mem_affected_jumpEvents, mem_affected_undefinedEvents,
    hexecutable]
  have hfold : c.proc ∈ EventLog.affected (foldEvents f (Folding.dropped ⟨f, c⟩)) ↔
      foldedConstants f (Folding.dropped ⟨f, c⟩) ≠ [] := mem_affected_foldEvents (c := Folding.dropped ⟨f, c⟩)
  rw [hfold]
  constructor
  · rintro ((((hdead | ⟨b, hb, hjumps | hsource⟩) | hundefined) | ⟨b, hb, hconstant⟩) | hfolded)
    · exact .inl (.inl (.inl (.inl hdead)))
    · by_cases hdecided : (decideJumps f b.jumps).decided = []
      · exact .inr ⟨b, hb, .inl ⟨hdecided, hjumps⟩⟩
      · exact .inl (.inl (.inl (.inr ⟨b, hb, hdecided⟩)))
    · exact .inr ⟨b, hb, .inr (.inl hsource)⟩
    · exact .inl (.inl (.inr hundefined))
    · exact .inr ⟨b, hb, .inr (.inr hconstant)⟩
    · exact .inl (.inr hfolded)
  · rintro ((((hdead | ⟨b, hb, hdecided⟩) | hundefined) | hfolded) | ⟨b, hb, ⟨-, hjumps⟩ | hsource | hconstant⟩)
    · exact .inl (.inl (.inl (.inl hdead)))
    · exact .inl (.inl (.inl (.inr ⟨b, hb, .inl (mt decided_eq_nil hdecided)⟩)))
    · exact .inl (.inl (.inr hundefined))
    · exact .inr hfolded
    · exact .inl (.inl (.inl (.inr ⟨b, hb, .inl hjumps⟩)))
    · exact .inl (.inl (.inl (.inr ⟨b, hb, .inr hsource⟩)))
    · exact .inl (.inr ⟨b, hb, hconstant⟩)

end ThreeAddress.Constants

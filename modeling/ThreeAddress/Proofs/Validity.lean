import ThreeAddress.Cfg.Basic
/-!
# Valid graphs

What it means that a graph passes `Cfg.validate`, and that it is made by `Cfg.ofBlocks`: as a
structure of facts, one for each thing that can be wrong.
-/

namespace ThreeAddress.Cfg

/-- A graph that `ofBlocks` makes of its blocks. -/
structure Valid (c : Cfg) : Prop where
  /-- The first block is the entry. -/
  first : c.labels.head? = some c.entry
  nodup : c.labels.Nodup
  target : ∀ b ∈ c.blocks, ∀ t ∈ b.targets, t ∈ c.labels
  entry_notMem : ∀ b ∈ c.blocks, c.entry ∉ b.targets
  source : ∀ b ∈ c.blocks, ∀ l ∈ sourceLabels b, l ∈ c.labels
  body : ∀ b ∈ c.blocks, ∀ i ∈ b.body, i.isTerminator = false

theorem mem_sourceLabels {b : Block} {l : Label} :
    l ∈ sourceLabels b ↔ ∃ dest sources, .phi dest sources ∈ b.body ∧ l ∈ sources.labels := by
  simp only [sourceLabels, List.mem_flatMap, List.mem_filterMap]
  constructor
  · rintro ⟨sources, ⟨i, hi, hs⟩, hl⟩
    obtain ⟨dest, rfl⟩ := Instr.exists_phi_of_sources? hs
    exact ⟨dest, sources, hi, hl⟩
  · rintro ⟨dest, sources, hi, hl⟩
    exact ⟨sources, ⟨_, hi, rfl⟩, hl⟩

theorem targetDefect?_eq_none {c : Cfg} {b : Block} {t : Label} :
    c.targetDefect? b t = none ↔ t ∈ c.labels ∧ t ≠ c.entry := by
  unfold targetDefect? contains
  by_cases h : t ∈ c.labels
  · by_cases he : t = c.entry <;> simp [h, he]
    simp [← he, h]
  · simp [h]

theorem sourceDefect?_eq_none {c : Cfg} {b : Block} {l : Label} :
    c.sourceDefect? b l = none ↔ l ∈ c.labels := by
  unfold sourceDefect? contains
  by_cases h : l ∈ c.labels <;> simp [h]

theorem blockDefect?_eq_none {c : Cfg} {b : Block} :
    c.blockDefect? b = none ↔ (∀ t ∈ b.targets, t ∈ c.labels ∧ t ≠ c.entry) ∧
      (∀ l ∈ sourceLabels b, l ∈ c.labels) ∧ ∀ i ∈ b.body, i.isTerminator = false := by
  unfold blockDefect?
  rw [← show b.targets.findSome? (c.targetDefect? b) = none ↔
      ∀ t ∈ b.targets, t ∈ c.labels ∧ t ≠ c.entry by
        simp only [List.findSome?_eq_none_iff, targetDefect?_eq_none],
    ← show (sourceLabels b).findSome? (c.sourceDefect? b) = none ↔
      ∀ l ∈ sourceLabels b, l ∈ c.labels by
        simp only [List.findSome?_eq_none_iff, sourceDefect?_eq_none]]
  cases b.targets.findSome? (c.targetDefect? b) with
  | some d => simp
  | none =>
    cases (sourceLabels b).findSome? (c.sourceDefect? b) with
    | some d => simp
    | none => simp

theorem validate_eq_ok {c : Cfg} : c.validate = .ok () ↔
    (∀ b ∈ c.blocks, ∀ t ∈ b.targets, t ∈ c.labels) ∧ (∀ b ∈ c.blocks, c.entry ∉ b.targets) ∧
      (∀ b ∈ c.blocks, ∀ l ∈ sourceLabels b, l ∈ c.labels) ∧
      ∀ b ∈ c.blocks, ∀ i ∈ b.body, i.isTerminator = false := by
  have key : c.defect? = none ↔ ∀ b ∈ c.blocks, (∀ t ∈ b.targets, t ∈ c.labels ∧ t ≠ c.entry) ∧
      (∀ l ∈ sourceLabels b, l ∈ c.labels) ∧ ∀ i ∈ b.body, i.isTerminator = false := by
    simp only [defect?, List.findSome?_eq_none_iff, blockDefect?_eq_none]
  have : c.validate = .ok () ↔ c.defect? = none := by
    unfold validate
    cases c.defect? <;> simp
  rw [this, key]
  constructor
  · intro h
    exact ⟨fun b hb t ht => ((h b hb).1 t ht).1, fun b hb ht => ((h b hb).1 _ ht).2 rfl,
      fun b hb => (h b hb).2.1, fun b hb => (h b hb).2.2⟩
  · rintro ⟨ht, he, hs, hb⟩ b hmem
    exact ⟨fun t h => ⟨ht b hmem t h, fun e => he b hmem (e ▸ h)⟩, hs b hmem, hb b hmem⟩

theorem repeated?_go_eq_none {seen ls : List Label} :
    repeated?.go seen ls = none ↔ ls.Nodup ∧ ∀ l ∈ ls, l ∉ seen := by
  induction ls generalizing seen with
  | nil => simp [repeated?.go]
  | cons l ls ih =>
    by_cases h : l ∈ seen
    · simp [repeated?.go, h]
    · simp only [repeated?.go, List.contains_iff_mem, h, if_false, ih, List.nodup_cons, List.mem_cons]
      grind

theorem repeated?_eq_none {ls : List Label} : repeated? ls = none ↔ ls.Nodup := by
  simp [repeated?, repeated?_go_eq_none]

/-- The valid graphs are those that are made of their blocks. -/
theorem ofBlocks_eq_ok {proc : String} {blocks : List Block} {c : Cfg} :
    ofBlocks proc blocks = .ok c ↔ c.proc = proc ∧ c.blocks = blocks ∧ c.Valid := by
  cases blocks with
  | nil =>
    refine ⟨fun h => by simp [ofBlocks] at h, fun ⟨_, hb, hv⟩ => ?_⟩
    simpa [labels, hb] using hv.first
  | cons first rest =>
    cases hr : repeated? ((first :: rest).map Block.label) with
    | some l =>
      refine ⟨fun h => by simp only [ofBlocks, hr, reduceCtorEq] at h, fun ⟨_, hb, hv⟩ => ?_⟩
      have := repeated?_eq_none.2 hv.nodup
      simp only [labels, hb, hr, reduceCtorEq] at this
    | none =>
      simp only [ofBlocks, hr, bind, Except.bind, pure, Except.pure]
      constructor
      · intro h
        split at h
        · simp at h
        · rename_i hval
          cases h
          obtain ⟨ht, he, hs, hb⟩ := validate_eq_ok.1 hval
          exact ⟨rfl, rfl, rfl, repeated?_eq_none.1 hr, ht, he, hs, hb⟩
      · rintro ⟨rfl, hb, hv⟩
        have : (⟨c.proc, first.label, first :: rest⟩ : Cfg) = c := by
          have := hv.first
          simp only [labels, hb, List.map_cons, List.head?_cons, Option.some.injEq] at this
          rw [this, ← hb]
        rw [this, validate_eq_ok.2 ⟨hv.target, hv.entry_notMem, hv.source, hv.body⟩]

theorem label_of_block? {c : Cfg} {l : Label} {b : Block} (h : c.block? l = some b) : b.label = l := by
  simpa using List.find?_some h

theorem mem_of_block? {c : Cfg} {l : Label} {b : Block} (h : c.block? l = some b) : b ∈ c.blocks :=
  List.mem_of_find?_eq_some h

/-- A block is found by its label. -/
theorem block?_of_nodup {c : Cfg} (h : c.labels.Nodup) {b : Block} (hb : b ∈ c.blocks) :
    c.block? b.label = some b := by
  have hnd : (c.blocks.map Block.label).Nodup := h
  unfold block?
  generalize c.blocks = bs at hb hnd
  induction bs with
  | nil => simp at hb
  | cons d ds ih =>
    rw [List.map_cons, List.nodup_cons] at hnd
    rcases List.mem_cons.1 hb with rfl | hb
    · simp
    · have hne : d.label ≠ b.label := fun e => hnd.1 (e ▸ List.mem_map_of_mem hb)
      simp [hne, ih hb hnd.2]

namespace Valid

variable {c : Cfg}

theorem validate (h : c.Valid) : c.validate = .ok () :=
  validate_eq_ok.2 ⟨h.target, h.entry_notMem, h.source, h.body⟩

/-- The entry is the first block. -/
theorem exists_entry (h : c.Valid) : ∃ b bs, c.blocks = b :: bs ∧ b.label = c.entry := by
  have := h.first
  cases hbs : c.blocks with
  | nil => simp [labels, hbs] at this
  | cons b bs => exact ⟨b, bs, rfl, by simpa [labels, hbs] using this⟩

theorem block?_of_mem (h : c.Valid) {b : Block} (hb : b ∈ c.blocks) : c.block? b.label = some b :=
  block?_of_nodup h.nodup hb

theorem eq_of_label (h : c.Valid) {b b' : Block} (hb : b ∈ c.blocks) (hb' : b' ∈ c.blocks)
    (hl : b.label = b'.label) : b = b' :=
  Option.some.inj ((h.block?_of_mem hb).symm.trans (hl ▸ h.block?_of_mem hb'))

end Valid

end ThreeAddress.Cfg

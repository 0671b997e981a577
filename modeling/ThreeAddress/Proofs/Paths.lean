import ThreeAddress.Proofs.Validity
/-!
# Paths

`Path ls l` says that control can come from the entry to the block `l` through the blocks `ls`, the
last one first. What every path passes is what dominance speaks of; here it is stated of paths alone,
so that a block that no path leads to is dominated by everything.
-/

namespace ThreeAddress.Cfg

/-- A block has a jump to another. -/
def Edge (c : Cfg) (k l : Label) : Prop := ∃ b ∈ c.blocks, b.label = k ∧ l ∈ b.targets

/-- Blocks that lead from the entry to a block, the last one first. -/
inductive Path (c : Cfg) : List Label → Label → Prop
  | entry : Path c [] c.entry
  | step {ls : List Label} {k l : Label} : Path c ls k → c.Edge k l → Path c (k :: ls) l

/-- Some path leads to a block. -/
def Reachable (c : Cfg) (l : Label) : Prop := ∃ ls, c.Path ls l

theorem mem_predecessors {c : Cfg} {k l : Label} : k ∈ c.predecessors l ↔ c.Edge k l := by
  simp only [predecessors, List.mem_map, List.mem_filter, Block.successors, List.contains_iff_mem,
    List.mem_eraseDups, Edge]
  exact ⟨fun ⟨b, ⟨hb, hl⟩, hk⟩ => ⟨b, hb, hk, hl⟩, fun ⟨b, hb, hk, hl⟩ => ⟨b, ⟨hb, hl⟩, hk⟩⟩

theorem mem_edges {c : Cfg} {k l : Label} : (k, l) ∈ c.edges ↔ c.Edge k l := by
  simp only [edges, Block.successors, List.mem_flatMap, List.mem_map, List.mem_eraseDups, Prod.mk.injEq, Edge]
  exact ⟨fun ⟨b, hb, _, ht, hk, hl⟩ => ⟨b, hb, hk, hl ▸ ht⟩, fun ⟨b, hb, hk, ht⟩ => ⟨b, hb, l, ht, hk, rfl⟩⟩

theorem reachable_entry (c : Cfg) : c.Reachable c.entry := ⟨[], .entry⟩

theorem Reachable.step {c : Cfg} {k l : Label} (h : c.Reachable k) (he : c.Edge k l) : c.Reachable l := by
  obtain ⟨ls, hls⟩ := h
  exact ⟨_, hls.step he⟩

namespace Path

variable {c : Cfg} {ls : List Label} {k l : Label}

/-- A path to what lies on a path. -/
theorem split (h : c.Path ls l) (hk : k ∈ ls) :
    ∃ later earlier, ls = later ++ k :: earlier ∧ c.Path earlier k := by
  induction h with
  | entry => simp at hk
  | @step ls m n h he ih =>
    rcases List.mem_cons.1 hk with rfl | hk
    · exact ⟨[], ls, rfl, h⟩
    · obtain ⟨later, earlier, rfl, hpath⟩ := ih hk
      exact ⟨m :: later, earlier, rfl, hpath⟩

/-- Whatever can be reached can be reached without passing it before. -/
theorem exists_first (h : c.Path ls l) : ∃ ls', c.Path ls' l ∧ l ∉ ls' := by
  induction hn : ls.length using Nat.strongRecOn generalizing ls with
  | ind n ih =>
    by_cases hl : l ∈ ls
    · obtain ⟨later, earlier, rfl, hpath⟩ := h.split hl
      exact ih earlier.length (by simp [← hn]; omega) hpath rfl
    · exact ⟨ls, h, hl⟩

theorem mono {c' : Cfg} (hentry : c.entry = c'.entry) (hedge : ∀ k l, c.Edge k l → c'.Edge k l)
    (h : c.Path ls l) : c'.Path ls l := by
  induction h with
  | entry => exact hentry ▸ .entry
  | step _ he ih => exact .step ih (hedge _ _ he)

end Path

/-- What every path to a block that can be reached passes can be reached. -/
theorem Reachable.of_dominated {c : Cfg} {k l : Label} (hr : c.Reachable l) (hdom : ∀ ls, c.Path ls l → k ∈ ls) :
    c.Reachable k := by
  obtain ⟨ls, hls⟩ := hr
  obtain ⟨-, earlier, -, hpath⟩ := hls.split (hdom ls hls)
  exact ⟨earlier, hpath⟩

/-! ## Edges of graphs whose labels differ -/

theorem edge_iff {c : Cfg} (h : c.labels.Nodup) {b : Block} (hb : b ∈ c.blocks) {l : Label} :
    c.Edge b.label l ↔ l ∈ b.targets := by
  refine ⟨fun ⟨d, hd, hl, ht⟩ => ?_, fun ht => ⟨b, hb, rfl, ht⟩⟩
  have hsame : c.block? b.label = some d := hl ▸ block?_of_nodup h hd
  exact Option.some.inj (hsame.symm.trans (block?_of_nodup h hb)) ▸ ht

theorem Valid.edge_iff {c : Cfg} (h : c.Valid) {b : Block} (hb : b ∈ c.blocks) {l : Label} :
    c.Edge b.label l ↔ l ∈ b.targets :=
  Cfg.edge_iff h.nodup hb

theorem Valid.not_edge_entry {c : Cfg} (h : c.Valid) (k : Label) : ¬ c.Edge k c.entry :=
  fun ⟨b, hb, _, ht⟩ => h.entry_notMem b hb ht

end ThreeAddress.Cfg

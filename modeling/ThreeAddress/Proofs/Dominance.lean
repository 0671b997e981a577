import Mathlib.Data.List.Nodup
import ThreeAddress.Dominance
import ThreeAddress.Proofs.Dominators
import ThreeAddress.Proofs.Nodes
/-!
# Dominance and paths

Blocks are the nodes of the digraph of a graph, and paths through blocks are paths through nodes. So the
strict dominators of a block are the other blocks that lie on every path to it (`Valid.mem_strict_iff`).
-/

namespace ThreeAddress.Cfg

variable {c : Cfg}

/-- A path through blocks as one through nodes. -/
theorem Path.nodes (h : c.Valid) {ls : List Label} {l : Label} (hp : c.Path ls l) :
    ∃ us v, c.labels[v]? = some l ∧ c.digraph.Path 0 us v ∧ us.map c.labelAt? = ls.map some := by
  induction hp with
  | entry => exact ⟨[], 0, by rw [← List.head?_eq_getElem?]; exact h.first, .entry, rfl⟩
  | @step ls k l _ hedge ih =>
    obtain ⟨us, u, hu, hpath, hus⟩ := ih
    obtain ⟨v, hv⟩ : ∃ v, c.labels[v]? = some l := by
      obtain ⟨b, hb, rfl, ht⟩ := hedge
      exact List.mem_iff_getElem?.1 (h.target b hb l ht)
    refine ⟨u :: us, v, hv, .step hpath ((mem_nodeSuccessors h.nodup).2 ⟨k, l, hu, hv, hedge⟩), ?_⟩
    rw [List.map_cons, List.map_cons, hus]
    exact congrArg (· :: _) hu

/-- A path through nodes as one through blocks. -/
theorem exists_path_of_nodes (h : c.Valid) {us : List Nat} {v : Nat} (hp : c.digraph.Path 0 us v) :
    ∀ l, c.labels[v]? = some l → ∃ ls, c.Path ls l ∧ us.map c.labelAt? = ls.map some := by
  induction hp with
  | entry =>
    intro l hl
    rw [← List.head?_eq_getElem?, h.first] at hl
    cases hl
    exact ⟨[], .entry, rfl⟩
  | @step us u v _ hv ih =>
    intro l hl
    obtain ⟨k, l', hk, hl', hedge⟩ := (mem_nodeSuccessors h.nodup).1 hv
    obtain rfl : l' = l := Option.some.inj (hl'.symm.trans hl)
    obtain ⟨ls, hpath, hus⟩ := ih k hk
    refine ⟨k :: ls, .step hpath hedge, ?_⟩
    rw [List.map_cons, List.map_cons, hus]
    exact congrArg (· :: _) hk

/-! ## Strict dominators -/

theorem mem_strict_dominators {d : Digraph.Dominators} {u v : Nat} :
    u ∈ d.strict v ↔ d.dominates u v = true ∧ u ≠ v := by
  unfold Digraph.Dominators.strict Digraph.Dominators.dominates
  cases d.sets[v]? with
  | none => simp
  | some s =>
    simp only [List.mem_filter, BitSet.mem_toList, decide_eq_true_eq]

/-- The strict dominators of a block are the labels of those of its node. -/
theorem strict_dominance (h : c.labels.Nodup) {l : Label} {v : Nat} (hv : c.labels[v]? = some l) :
    c.dominance.strict l = ascending (((c.digraph.dominators 0).strict v).filterMap c.labelAt?) := by
  obtain ⟨ks, hs⟩ : ∃ ks, c.dominance.sets.lookup l = some ks := by
    refine Option.ne_none_iff_exists'.1 fun hnone => ?_
    have hnode : (l, v) ∈ c.labels.zipIdx := List.mem_zipIdx_iff_getElem?.2 hv
    have := List.lookup_eq_none_iff.1 hnone _ (List.mem_map_of_mem hnode)
    simp at this
  obtain ⟨⟨l', v'⟩, hv', heq⟩ := List.mem_map.1 (mem_of_lookup hs)
  cases heq
  obtain rfl : v' = v := eq_of_labelAt? h (List.mem_zipIdx_iff_getElem?.1 hv') hv
  rw [Dominance.strict, hs]
  rfl

theorem mem_strict_iff_nodes (h : c.labels.Nodup) {k l : Label} : k ∈ c.dominance.strict l ↔
    ∃ u v, c.labels[u]? = some k ∧ c.labels[v]? = some l ∧
      (c.digraph.dominators 0).dominates u v = true ∧ u ≠ v := by
  have hmem : ∀ {v}, c.labels[v]? = some l → (k ∈ c.dominance.strict l ↔
      ∃ u, ((c.digraph.dominators 0).dominates u v = true ∧ u ≠ v) ∧ c.labels[u]? = some k) := fun hv => by
    simp only [strict_dominance h hv, mem_ascending fun _ _ => Label.eq_of_not_lt, List.mem_filterMap,
      mem_strict_dominators, labelAt?]
  constructor
  · intro hk
    obtain ⟨v, hv⟩ : ∃ v, c.labels[v]? = some l := by
      rw [Dominance.strict] at hk
      cases hs : c.dominance.sets.lookup l with
      | none => simp [hs] at hk
      | some ks =>
        obtain ⟨⟨l', v⟩, hv, heq⟩ := List.mem_map.1 (mem_of_lookup hs)
        cases heq
        exact ⟨v, List.mem_zipIdx_iff_getElem?.1 hv⟩
    obtain ⟨u, hdom, hu⟩ := (hmem hv).1 hk
    exact ⟨u, v, hu, hv, hdom⟩
  · rintro ⟨u, v, hu, hv, hdom⟩
    exact (hmem hv).2 ⟨u, hdom, hu⟩

theorem Valid.ne_of_mem_strict (h : c.Valid) {k l : Label} (hk : k ∈ c.dominance.strict l) : k ≠ l := by
  rintro rfl
  obtain ⟨u, v, hu, hv, -, hne⟩ := (mem_strict_iff_nodes h.nodup).1 hk
  exact hne (eq_of_labelAt? h.nodup hu hv)

/-- A node dominates another exactly if its block lies on every path to the block of the other. -/
theorem Valid.dominates_iff_paths (h : c.Valid) {k l : Label} {u v : Nat} (hu : c.labels[u]? = some k)
    (hv : c.labels[v]? = some l) (hne : u ≠ v) :
    (c.digraph.dominators 0).dominates u v = true ↔ ∀ ls, c.Path ls l → k ∈ ls := by
  have hlt : ∀ {w l}, c.labels[w]? = some l → w < c.digraph.size := fun hw => by
    simpa [labels, digraph] using (List.getElem?_eq_some_iff.1 hw).1
  have hsize : 0 < c.digraph.size := Nat.lt_of_le_of_lt (Nat.zero_le v) (hlt hv)
  have hon : ∀ {us : List Nat} {ls : List Label}, us.map c.labelAt? = ls.map some → (k ∈ ls ↔ u ∈ v :: us) := by
    intro us ls hus
    have hsome : k ∈ ls ↔ some k ∈ us.map c.labelAt? := by rw [hus]; simp
    rw [hsome, List.mem_map, List.mem_cons, or_iff_right hne]
    constructor
    · rintro ⟨w, hw, hk⟩
      exact eq_of_labelAt? h.nodup hk hu ▸ hw
    · exact fun hw => ⟨u, hw, hu⟩
  rw [Digraph.dominates_eq_contains hsize u (hlt hv),
    Digraph.contains_dominators_iff (converse_digraph h.nodup) hsize (hlt hu) (hlt hv)]
  constructor
  · intro hall ls hp
    obtain ⟨us, v', hv', hpath, hus⟩ := hp.nodes h
    obtain rfl : v' = v := eq_of_labelAt? h.nodup hv' hv
    exact (hon hus).2 (hall us hpath)
  · intro hall us hpath
    obtain ⟨ls, hp, hus⟩ := exists_path_of_nodes h hpath l hv
    exact (hon hus).1 (hall ls hp)

/-- The strict dominators of a block are the other blocks that lie on every path to it. -/
theorem Valid.mem_strict_iff (h : c.Valid) {k l : Label} (hk : k ∈ c.labels) (hl : l ∈ c.labels) :
    k ∈ c.dominance.strict l ↔ k ≠ l ∧ ∀ ls, c.Path ls l → k ∈ ls := by
  obtain ⟨u, hu⟩ := List.mem_iff_getElem?.1 hk
  obtain ⟨v, hv⟩ := List.mem_iff_getElem?.1 hl
  rw [mem_strict_iff_nodes h.nodup]
  constructor
  · rintro ⟨u', v', hu', hv', hdom, hne⟩
    refine ⟨fun hkl => hne ?_, (h.dominates_iff_paths hu' hv' hne).1 hdom⟩
    subst hkl
    exact eq_of_labelAt? h.nodup hu' hv'
  · rintro ⟨hkl, hall⟩
    have hne : u ≠ v := by
      rintro rfl
      exact hkl (Option.some.inj (hu.symm.trans hv))
    exact ⟨u, v, hu, hv, (h.dominates_iff_paths hu hv hne).2 hall, hne⟩

/-- A strict dominator of a block lies on every path to it. -/
theorem Valid.mem_of_mem_strict (h : c.Valid) {k l : Label} (hk : k ∈ c.dominance.strict l)
    {ls : List Label} (hp : c.Path ls l) : k ∈ ls := by
  obtain ⟨u, v, hu, hv, hdom, hne⟩ := (mem_strict_iff_nodes h.nodup).1 hk
  exact (h.dominates_iff_paths hu hv hne).1 hdom ls hp

/-! ## Dominance is what paths say -/

/-- The iteration of the dominators of a graph ends, and it finds those nodes for a node that every path to it
passes: all of them, where no path leads. So the strict dominators of a block are the other blocks that every
path to it passes. -/
theorem dominators_eq_paths : (∀ (g : Digraph) (entry : Nat), g.Converse → entry < g.size →
      Settles (g.meetAll entry (g.visitOrder entry)) (g.startSets entry) (g.dominators entry).sets ∧
      (∀ a b, a < g.size → b < g.size →
        ((g.dominators entry).dominates a b = true ↔ ∀ us, g.Path entry us b → a ∈ b :: us)) ∧
      ∀ b, b < g.size → (∀ us, ¬ g.Path entry us b) → (g.dominators entry).sets[b]? = some (.full g.size)) ∧
    ∀ c : Cfg, c.Valid → ∀ k ∈ c.labels, ∀ l ∈ c.labels,
      (k ∈ c.dominance.strict l ↔ k ≠ l ∧ ∀ ls, c.Path ls l → k ∈ l :: ls) := by
  refine ⟨fun g entry hg hentry => ⟨Digraph.settles_dominators hentry, fun a b ha hb => ?_, fun b hb hpath => ?_⟩,
    fun c h k hk l hl => ?_⟩
  · rw [Digraph.dominates_eq_contains hentry a hb]
    exact Digraph.contains_dominators_iff hg hentry ha hb
  · have hlen : b < (g.dominators entry).sets.length := (Digraph.solved_dominators hentry).length ▸ hb
    rw [List.getElem?_eq_getElem hlen, ← Digraph.setOf_eq_getElem g hlen,
      Digraph.setOf_dominators_of_unreachable hg hentry hb hpath]
  · rw [h.mem_strict_iff hk hl]
    refine and_congr_right fun hne => forall₂_congr fun ls _ => ?_
    rw [List.mem_cons, or_iff_right hne]

/-- A loop that is entered in two places and leads back to the entry, with a loop of one node, an edge that is
there twice, and a node without a path to it. -/
def tangle : Digraph := .ofEdges 6 [(0, 1), (1, 2), (1, 3), (2, 4), (3, 4), (4, 4), (4, 1), (1, 2), (4, 0), (5, 3)]

/-- Two ways that meet again, and a block without a path to it that leads there as well. -/
def meeting : Cfg where
  proc := "@main"
  entry := ⟨"first"⟩
  blocks := [
    ⟨⟨"first"⟩, [], [.branch .jz (.imm 0) ⟨"left"⟩, .jump ⟨"right"⟩]⟩,
    ⟨⟨"left"⟩, [], [.jump ⟨"last"⟩]⟩,
    ⟨⟨"right"⟩, [], [.jump ⟨"last"⟩]⟩,
    ⟨⟨"aside"⟩, [], [.jump ⟨"last"⟩]⟩,
    ⟨⟨"last"⟩, [], [.branch .jnz (.imm 0) ⟨"last"⟩, .ret none]⟩]

theorem dominators_eq_paths_tangle : tangle.Converse ∧
    (∀ us, tangle.Path 0 us 4 → 1 ∈ 4 :: us) ∧ (¬ ∀ us, tangle.Path 0 us 4 → 2 ∈ 4 :: us) ∧
    (∀ us, tangle.Path 0 us 5 → 4 ∈ 5 :: us) ∧ (¬ ∀ us, tangle.Path 0 us 3 → 5 ∈ 3 :: us) ∧
    meeting.Valid ∧ (∀ ls, meeting.Path ls ⟨"last"⟩ → ⟨"first"⟩ ∈ (⟨"last"⟩ :: ls : List Label)) ∧
    ¬ ∀ ls, meeting.Path ls ⟨"last"⟩ → ⟨"left"⟩ ∈ (⟨"last"⟩ :: ls : List Label) := by
  have htangle : tangle.Converse := Digraph.converse_ofEdges (by decide)
  have hgraph : ofBlocks meeting.proc meeting.blocks = .ok meeting := rfl
  have hmeeting : meeting.Valid := (ofBlocks_eq_ok.1 hgraph).2.2
  have hnodes := (dominators_eq_paths.1 tangle 0 htangle (by decide)).2.1
  have hblocks := dominators_eq_paths.2 meeting hmeeting
  refine ⟨htangle, (hnodes 1 4 (by decide) (by decide)).1 (by decide +kernel),
    fun h => absurd ((hnodes 2 4 (by decide) (by decide)).2 h) (by decide +kernel),
    (hnodes 4 5 (by decide) (by decide)).1 (by decide +kernel),
    fun h => absurd ((hnodes 5 3 (by decide) (by decide)).2 h) (by decide +kernel), hmeeting,
    ((hblocks ⟨"first"⟩ (by decide) ⟨"last"⟩ (by decide)).1 (by decide +kernel)).2, fun h => ?_⟩
  exact absurd ((hblocks ⟨"left"⟩ (by decide) ⟨"last"⟩ (by decide)).2 ⟨by decide, h⟩) (by decide +kernel)

/-! ## The deepest first -/

theorem mem_closestFirst {d : Dominance} {k l : Label} : k ∈ d.closestFirst l ↔ k ∈ d.strict l := by
  simp [Dominance.closestFirst]

/-- Where the deepest stand first already, nothing is to be sorted. -/
theorem closestFirst_eq_strict {d : Dominance}
    (h : ∀ e ∈ d.sets, e.2.Pairwise fun a b => d.depth b ≤ d.depth a) : d.closestFirst = d.strict := by
  funext l
  refine List.mergeSort_of_pairwise ?_
  unfold Dominance.strict
  cases hl : d.sets.lookup l with
  | none => exact .nil
  | some ks => simpa using h _ (mem_of_lookup hl)

end ThreeAddress.Cfg

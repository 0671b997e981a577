import ThreeAddress.Cfg.Adjacency
import ThreeAddress.Proofs.Paths
import ThreeAddress.Proofs.Traversal
/-!
# Blocks as nodes

Where the labels of a graph differ, its blocks are the nodes of its digraph: edges between blocks are edges between
their nodes, and what blocks lead to through edges is what nodes lead to. Jumps may name what is no block.
-/

namespace ThreeAddress.Cfg

variable {c : Cfg} (h : c.labels.Nodup)
include h

theorem node?_eq_some_iff {l : Label} {u : Nat} : c.node? l = some u ↔ c.labels[u]? = some l := by
  rw [node?, List.findIdx?_eq_some_iff_getElem, List.getElem?_eq_some_iff]
  constructor
  · rintro ⟨hu, heq, -⟩
    exact ⟨hu, by simpa using heq⟩
  · rintro ⟨hu, rfl⟩
    refine ⟨hu, by simp, fun j hj heq => ?_⟩
    have heq : c.labels[j] = c.labels[u] := by simpa using heq
    have := (List.Nodup.getElem_inj_iff h).1 heq
    omega

theorem eq_of_labelAt? {l : Label} {u v : Nat} (hu : c.labels[u]? = some l) (hv : c.labels[v]? = some l) :
    u = v := by
  have := (node?_eq_some_iff h).2 hu
  rw [(node?_eq_some_iff h).2 hv] at this
  exact (Option.some.inj this).symm

/-! ## Edges -/

theorem mem_nodeSuccessors {u v : Nat} : v ∈ c.nodeSuccessors u ↔
    ∃ k l, c.labels[u]? = some k ∧ c.labels[v]? = some l ∧ c.Edge k l := by
  have hlabel : c.labels[u]? = c.blocks[u]?.map Block.label := by simp [labels]
  unfold nodeSuccessors
  cases hb : c.blocks[u]? with
  | none => simp [hlabel, hb]
  | some b =>
    have hmem : b ∈ c.blocks := List.mem_of_getElem? hb
    simp only [hlabel, hb, Option.map_some, List.mem_filterMap, node?_eq_some_iff h,
      Block.successors, List.mem_eraseDups]
    constructor
    · rintro ⟨l, ht, hl⟩
      exact ⟨b.label, l, rfl, hl, b, hmem, rfl, ht⟩
    · rintro ⟨k, l, ⟨⟩, hl, hedge⟩
      exact ⟨l, (edge_iff h hmem).1 hedge, hl⟩

theorem mem_nodePredecessors {u v : Nat} : u ∈ c.nodePredecessors v ↔
    ∃ k l, c.labels[u]? = some k ∧ c.labels[v]? = some l ∧ c.Edge k l := by
  unfold nodePredecessors labelAt?
  cases hl : c.labels[v]? with
  | none => simp
  | some l =>
    simp only [List.mem_filterMap, mem_predecessors, node?_eq_some_iff h]
    constructor
    · rintro ⟨k, hedge, hk⟩
      exact ⟨k, l, hk, rfl, hedge⟩
    · rintro ⟨k, l, hk, ⟨⟩, hedge⟩
      exact ⟨k, hedge, hk⟩

section

variable {k l : Label} {u v : Nat} (hu : c.labels[u]? = some k) (hv : c.labels[v]? = some l)
include hu hv

theorem mem_nodeSuccessors_iff : v ∈ c.nodeSuccessors u ↔ c.Edge k l := by
  rw [mem_nodeSuccessors h, hu, hv]
  simp

theorem mem_nodePredecessors_iff : u ∈ c.nodePredecessors v ↔ c.Edge k l := by
  rw [mem_nodePredecessors h, hu, hv]
  simp

end

theorem converse_digraph : c.digraph.Converse where
  mem_iff u v := (mem_nodeSuccessors h).trans (mem_nodePredecessors h).symm
  lt_size u v hv := by
    obtain ⟨k, l, hk, hl, -⟩ := (mem_nodeSuccessors h).1 hv
    have hu := (List.getElem?_eq_some_iff.1 hk).1
    have hv := (List.getElem?_eq_some_iff.1 hl).1
    simp only [labels, List.length_map] at hu hv
    exact ⟨hu, hv⟩

/-! ## What edges lead to -/

/-- Paths through blocks are paths through nodes. -/
theorem reaches_of_edges {k l : Label} (hkl : Relation.ReflTransGen c.Edge k l) {u v : Nat}
    (hu : c.labels[u]? = some k) (hv : c.labels[v]? = some l) : c.digraph.Reaches u v := by
  induction hkl generalizing v with
  | refl =>
    obtain rfl : u = v := eq_of_labelAt? h hu hv
    exact .refl
  | @tail m l _ hedge ih =>
    obtain ⟨w, hw⟩ : ∃ w : Nat, c.labels[w]? = some m := by
      obtain ⟨b, hb, rfl, -⟩ := hedge
      exact List.mem_iff_getElem?.1 (List.mem_map_of_mem hb)
    exact (ih hw).tail ((mem_nodeSuccessors h).2 ⟨m, l, hw, hv, hedge⟩)

/-- Paths through nodes are paths through blocks. -/
theorem edges_of_reaches {u v : Nat} (huv : c.digraph.Reaches u v) {k l : Label} (hu : c.labels[u]? = some k)
    (hv : c.labels[v]? = some l) : Relation.ReflTransGen c.Edge k l := by
  induction huv generalizing l with
  | refl =>
    obtain rfl : k = l := Option.some.inj (hu.symm.trans hv)
    exact .refl
  | @tail w v _ hwv ih =>
    obtain ⟨m, l', hm, hl', hedge⟩ := (mem_nodeSuccessors h).1 hwv
    obtain rfl : l' = l := Option.some.inj (hl'.symm.trans hv)
    exact (ih hm).tail hedge

end ThreeAddress.Cfg

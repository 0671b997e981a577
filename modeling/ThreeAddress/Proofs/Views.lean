import Mathlib.Data.List.Count
import Mathlib.Data.List.TFAE
import ThreeAddress.Proofs.Tabular
import ThreeAddress.Proofs.Nodes
/-!
# The views of a graph agree

Edges can be seen in the jumps of a block, in the successors of a label, in the list of all edges, in the predecessors
of a label, in the table of predecessors and in the rows of the nodes. None of these is kept when a graph is changed,
so each is compared with the list of blocks (`Cfg.Edge`) and not with another one. Tables and rows are filled edge by
edge; in the end each entry has the edges that were meant for it, in their order (`get?_foldl_addPredecessor`,
`Nodes.foldlM_addEdge?`), and these are what the list of blocks says (`filter_edges`, `filter_nodeEdges_fst` and
`filter_nodeEdges_snd`). Jumps to what is no block are edges too: the tables and rows pass them over, the search through
labels finds where they lead and goes no further from there (`Coherent.mem_seen_search`).
-/

namespace ThreeAddress

theorem nodup_eraseDups {α : Type} [DecidableEq α] (as : List α) : as.eraseDups.Nodup := by
  induction hn : as.length using Nat.strongRecOn generalizing as with
  | ind n ih =>
    cases as with
    | nil => exact .nil
    | cons a as =>
      have hlt : (as.filter fun b => !b == a).length < n := by
        have := List.length_filter_le (fun b => !b == a) as
        simp only [List.length_cons] at hn
        omega
      rw [List.eraseDups_cons, List.nodup_cons, List.mem_eraseDups]
      exact ⟨by simp, ih _ hlt _ rfl⟩

/-- What is in a list without repetitions is in it once. -/
theorem filter_eq_of_nodup {α : Type} [DecidableEq α] {as : List α} (h : as.Nodup) (a : α) :
    as.filter (· = a) = if a ∈ as then [a] else [] := by
  rw [List.filter_eq, h.count]
  split <;> rfl

/-- Of what stands beside places, that beside one place comes from what was there. -/
theorem filter_flatMap_zipIdx {α β : Type} (f : α → List β) (as : List α) (n u : Nat) :
    (((as.zipIdx n).flatMap fun e => (f e.1).map (e.2, ·)).filter (·.1 = u)).map (·.2) =
      if n ≤ u then as[u - n]?.elim [] f else [] := by
  induction as generalizing n with
  | nil => simp
  | cons a as ih =>
    rw [List.zipIdx_cons, List.flatMap_cons, List.filter_append, List.map_append, ih, List.filter_map, List.map_map]
    rcases Nat.lt_trichotomy n u with hlt | rfl | hlt
    · have hsub : u - n = u - (n + 1) + 1 := by omega
      rw [if_pos (by omega), if_pos (by omega), hsub, List.getElem?_cons_succ]
      simp [Function.comp_def, hlt.ne]
    · simp [Function.comp_def]
    · rw [if_neg (by omega), if_neg (by omega)]
      simp [Function.comp_def, hlt.ne']

theorem Block.nodup_successors (b : Block) : b.successors.Nodup := nodup_eraseDups b.targets

namespace Cfg

/-! ## Edges by the label that they lead to -/

/-- The edges to a block come from its predecessors. -/
theorem filter_edges (c : Cfg) (l : Label) : (c.edges.filter (·.2 = l)).map (·.1) = c.predecessors l := by
  have hblock : ∀ b : Block, ((b.successors.map fun t => (b.label, t)).filter (·.2 = l)).map (·.1) =
      if l ∈ b.successors then [b.label] else [] := fun b => by
    rw [List.filter_map, List.map_map]
    refine (congrArg (List.map _) (filter_eq_of_nodup b.nodup_successors l)).trans ?_
    split <;> rfl
  rw [edges, List.filter_flatMap, List.map_flatMap, predecessors]
  simp only [hblock]
  induction c.blocks with
  | nil => rfl
  | cons b bs ih =>
    rw [List.flatMap_cons, ih, List.filter_cons]
    by_cases hl : l ∈ b.successors <;> simp [hl]

namespace Tabular

theorem get?_addPredecessor (ps : Table Label (List Label)) (e : Label × Label) (l : Label) :
    (addPredecessor ps e).get? l = (ps.get? l).map fun ls => if e.2 = l then ls ++ [e.1] else ls := by
  unfold addPredecessor
  cases he : ps.get? e.2 with
  | none =>
    by_cases hl : e.2 = l
    · simp [← hl, he]
    · simp [hl]
  | some ls =>
    by_cases hl : e.2 = l
    · simp [← hl, he]
    · simp [hl, Ne.symm hl]

theorem get?_foldl_addPredecessor (es : List (Label × Label)) (ps : Table Label (List Label)) (l : Label) :
    (es.foldl addPredecessor ps).get? l = (ps.get? l).map (· ++ (es.filter (·.2 = l)).map (·.1)) := by
  induction es generalizing ps with
  | nil => simp
  | cons e es ih =>
    rw [List.foldl_cons, ih, get?_addPredecessor, Option.map_map]
    by_cases hl : e.2 = l <;> simp [Function.comp_def, hl]

/-- The table of predecessors has the predecessors of every block, in block order, and those of nothing else. -/
theorem Coherent.get?_predecessorMap {g : Tabular} (h : g.Coherent) (l : Label) (ls : List Label) :
    g.predecessorMap.get? l = some ls ↔ l ∈ g.order ∧ g.cfg.predecessors l = ls := by
  have hkeys : ((g.order.map fun k => (k, ([] : List Label))).map Prod.fst).Nodup := by
    rw [List.map_map]
    exact h.nodup.map fun _ _ => id
  rw [predecessorMap, get?_foldl_addPredecessor, filter_edges, Option.map_eq_some_iff]
  simp only [Table.get?_ofList_iff hkeys, List.mem_map, Prod.mk.injEq]
  constructor
  · rintro ⟨_, ⟨k, hk, rfl, rfl⟩, rfl⟩
    exact ⟨hk, rfl⟩
  · rintro ⟨hl, rfl⟩
    exact ⟨[], ⟨l, hl, rfl, rfl⟩, rfl⟩

/-! ## Rows of nodes -/

namespace Nodes

/-- The rows after edges between nodes have been written. -/
theorem foldlM_addEdge? {es : List (Nat × Nat)} {n : Nodes} (hsucc : ∀ e ∈ es, e.1 < n.succ.length)
    (hpred : ∀ e ∈ es, e.2 < n.pred.length) : ∃ n', es.foldlM addEdge? n = some n' ∧ n'.index = n.index ∧
      n'.succ.length = n.succ.length ∧
      (∀ u, n'.succ[u]? = n.succ[u]?.map (· ++ (es.filter (·.1 = u)).map (·.2))) ∧
      ∀ v, n'.pred[v]? = n.pred[v]?.map (· ++ (es.filter (·.2 = v)).map (·.1)) := by
  induction es generalizing n with
  | nil => exact ⟨n, rfl, rfl, rfl, by simp, by simp⟩
  | cons e es ih =>
    have hadd : n.addEdge? e = some ⟨n.index, n.succ.modify e.1 (· ++ [e.2]), n.pred.modify e.2 (· ++ [e.1])⟩ :=
      if_pos ⟨hsucc e List.mem_cons_self, hpred e List.mem_cons_self⟩
    obtain ⟨n', hn', hindex, hlength, hs, hp⟩ :=
      ih (n := ⟨n.index, n.succ.modify e.1 (· ++ [e.2]), n.pred.modify e.2 (· ++ [e.1])⟩)
        (fun d hd => by simpa using hsucc d (.tail _ hd)) (fun d hd => by simpa using hpred d (.tail _ hd))
    refine ⟨n', by rw [List.foldlM_cons, hadd]; exact hn', hindex, by simpa using hlength, fun u => ?_, fun v => ?_⟩
    · rw [hs, List.getElem?_modify]
      by_cases hu : e.1 = u <;> simp [hu, Function.comp_def]
    · rw [hp, List.getElem?_modify]
      by_cases hv : e.2 = v <;> simp [hv, Function.comp_def]

end Nodes

/-- The edges from a node lead to its successors. -/
theorem filter_nodeEdges_fst (c : Cfg) (u : Nat) :
    ((nodeEdges c.blocks c.node?).filter (·.1 = u)).map (·.2) = c.nodeSuccessors u := by
  refine (filter_flatMap_zipIdx (fun b => b.successors.filterMap c.node?) c.blocks 0 u).trans ?_
  rw [if_pos u.zero_le, nodeSuccessors]
  cases c.blocks[u]? <;> rfl

section

variable {c : Cfg} (h : c.labels.Nodup)
include h

theorem mem_row {b : Block} {v : Nat} :
    v ∈ b.successors.filterMap c.node? ↔ ∃ l ∈ b.successors, c.labels[v]? = some l := by
  simp only [List.mem_filterMap, node?_eq_some_iff h]

theorem nodup_row (b : Block) : (b.successors.filterMap c.node?).Nodup :=
  b.nodup_successors.filterMap fun k l v hk hl => by
    rw [Option.mem_def, node?_eq_some_iff h] at hk hl
    exact Option.some.inj (hk.symm.trans hl)

/-- A block has an edge to a node once, if it has a jump to its label. -/
theorem filter_row {l : Label} {v : Nat} (hl : c.labels[v]? = some l) (b : Block) :
    (b.successors.filterMap c.node?).filter (· = v) = if l ∈ b.successors then [v] else [] := by
  rw [filter_eq_of_nodup (nodup_row h b)]
  refine if_congr ?_ rfl rfl
  rw [mem_row h, hl]
  simp

theorem node?_of_mem_zipIdx {e : Block × Nat} (he : e ∈ c.blocks.zipIdx) : c.node? e.1.label = some e.2 := by
  rw [node?_eq_some_iff h, labels, List.getElem?_map, List.mem_zipIdx_iff_getElem?.1 he]
  rfl

/-- The edges to a node come from its predecessors. -/
theorem filter_nodeEdges_snd (v : Nat) :
    ((nodeEdges c.blocks c.node?).filter (·.2 = v)).map (·.1) = c.nodePredecessors v := by
  have hrow : ∀ e : Block × Nat, (((e.1.successors.filterMap c.node?).map (e.2, ·)).filter (·.2 = v)).map (·.1) =
      ((e.1.successors.filterMap c.node?).filter (· = v)).map fun _ => e.2 := fun e => by
    rw [List.filter_map, List.map_map]
    rfl
  rw [nodeEdges, List.filter_flatMap, List.map_flatMap, nodePredecessors, labelAt?]
  simp only [hrow]
  cases hl : c.labels[v]? with
  | none =>
    refine List.flatMap_eq_nil_iff.2 fun e _ => List.map_eq_nil_iff.2 (List.filter_eq_nil_iff.2 fun w hw hwv => ?_)
    obtain ⟨l, -, hw⟩ := (mem_row h).1 hw
    rw [of_decide_eq_true hwv, hl] at hw
    cases hw
  | some l =>
    calc c.blocks.zipIdx.flatMap (fun e => ((e.1.successors.filterMap c.node?).filter (· = v)).map fun _ => e.2)
      _ = c.blocks.zipIdx.filterMap fun e => if l ∈ e.1.successors then c.node? e.1.label else none := by
        rw [List.filterMap_eq_flatMap_toList]
        refine List.flatMap_congr fun e he => ?_
        rw [filter_row h hl, node?_of_mem_zipIdx h he]
        split <;> rfl
      _ = ((c.blocks.zipIdx.map Prod.fst).filter (·.successors.contains l)).filterMap fun b => c.node? b.label := by
        rw [List.filterMap_filter, List.filterMap_map]
        simp
      _ = (c.predecessors l).filterMap c.node? := by
        rw [List.zipIdx_map_fst, predecessors, List.filterMap_map]
        rfl

theorem lt_of_mem_nodeEdges {e : Nat × Nat} (he : e ∈ nodeEdges c.blocks c.node?) :
    e.1 < c.blocks.length ∧ e.2 < c.blocks.length := by
  have hv : e.2 ∈ c.nodeSuccessors e.1 := by
    rw [← filter_nodeEdges_fst]
    exact List.mem_map.2 ⟨e, List.mem_filter.2 ⟨he, decide_eq_true rfl⟩, rfl⟩
  exact (converse_digraph h).lt_size e.1 e.2 hv

end

section

variable {g : Tabular} (h : g.Coherent)
include h

theorem Coherent.nodup_index : (g.order.zipIdx.map Prod.fst).Nodup := by
  rw [List.zipIdx_map_fst]
  exact h.nodup

theorem Coherent.get?_index (l : Label) (u : Nat) :
    (Table.ofList g.order.zipIdx).get? l = some u ↔ g.order[u]? = some l := by
  rw [Table.get?_ofList_iff h.nodup_index]
  exact List.mem_zipIdx_iff_getElem?

/-- Labels are numbered in the table of nodes as they are in the list of blocks. -/
theorem Coherent.index_eq_node? : (Table.ofList g.order.zipIdx).get? = g.cfg.node? := by
  funext l
  refine Option.ext fun u => (h.get?_index l u).trans ?_
  rw [node?_eq_some_iff h.nodup_labels, h.labels_cfg]

theorem Coherent.length_index : (Table.ofList g.order.zipIdx).entries.length = g.cfg.blocks.length := by
  rw [Table.ofList_of_nodup h.nodup_index, List.length_zipIdx, ← h.labels_cfg]
  exact List.length_map _

/-- The nodes are numbered, and their rows are those of the graph of the list of blocks. -/
theorem Coherent.exists_nodes : ∃ n, g.nodes? = some n ∧
    (∀ l u, n.node? l = some u ↔ g.order[u]? = some l) ∧ n.digraph = g.cfg.digraph := by
  have hlt : ∀ e ∈ nodeEdges g.cfg.blocks g.cfg.node?,
      e.1 < (Nodes.ofIndex (.ofList g.order.zipIdx)).succ.length ∧
        e.2 < (Nodes.ofIndex (.ofList g.order.zipIdx)).pred.length := fun e he => by
    simpa [Nodes.ofIndex, h.length_index] using lt_of_mem_nodeEdges h.nodup_labels he
  obtain ⟨n, hn, hindex, hlength, hs, hp⟩ :=
    Nodes.foldlM_addEdge? (fun e he => (hlt e he).1) (fun e he => (hlt e he).2)
  refine ⟨n, ?_, fun l u => ?_, ?_⟩
  · rw [nodes?, h.index_eq_node?]
    exact hn
  · rw [Nodes.node?, hindex]
    exact h.get?_index l u
  · have hconverse := converse_digraph h.nodup_labels
    -- A node that has no row has no edges either.
    have hrow : ∀ (u : Nat) (row : List Nat), (∀ v ∈ row, u < g.cfg.blocks.length) →
        ((List.replicate g.cfg.blocks.length ([] : List Nat))[u]?.map (· ++ row)).getD [] = row := fun u row hlt => by
      rw [List.getElem?_replicate]
      cases row with
      | nil => split <;> rfl
      | cons v row => rw [if_pos (hlt v List.mem_cons_self), Option.map_some, Option.getD_some, List.nil_append]
    simp only [Nodes.ofIndex, h.length_index, filter_nodeEdges_fst, filter_nodeEdges_snd h.nodup_labels,
      List.length_replicate] at hlength hs hp
    simp only [Nodes.digraph, digraph, hlength, List.getD_eq_getElem?_getD, hs, hp, Digraph.mk.injEq, true_and]
    refine ⟨funext fun u => hrow u _ fun v hv => (hconverse.lt_size u v hv).1,
      funext fun v => hrow v _ fun u hu => (hconverse.lt_size u v ((hconverse.mem_iff u v).2 hu)).2⟩

end

/-! ## What the search through labels finds -/

namespace Search

/-- Going through labels finds those that have not been found yet, each once: as many as come onto the stack are no
longer to be found. -/
structure Grows (ls : List Label) (s s' : Search) : Prop where
  seen : ∀ l, l ∈ s'.seen ↔ l ∈ s.seen ∨ l ∈ ls
  stack : ∀ l, l ∈ s'.stack ↔ l ∈ s.stack ∨ l ∈ ls ∧ l ∉ s.seen
  count : ∀ all : Finset Label, (∀ l ∈ ls, l ∈ all) →
    (all.filter (· ∉ s'.seen)).card + s'.stack.length = (all.filter (· ∉ s.seen)).card + s.stack.length

theorem Grows.add (s : Search) (l : Label) : Grows [l] s (s.add l) := by
  unfold Search.add
  split
  · rename_i hl
    rw [List.contains_iff_mem] at hl
    exact ⟨by simp +contextual [hl], by simp +contextual [hl], fun _ _ => rfl⟩
  · rename_i hl
    rw [List.contains_iff_mem] at hl
    refine ⟨by simp [or_comm], fun k => ?_, fun all hall => ?_⟩
    · rw [List.mem_cons, List.mem_singleton]
      grind
    · have herase : all.filter (· ∉ l :: s.seen) = (all.filter (· ∉ s.seen)).erase l := by
        ext k
        simp only [Finset.mem_filter, Finset.mem_erase, List.mem_cons, not_or]
        tauto
      have hmem : l ∈ all.filter (· ∉ s.seen) := Finset.mem_filter.2 ⟨hall l (by simp), hl⟩
      have hcard := Finset.card_erase_add_one hmem
      rw [herase, List.length_cons]
      omega

theorem Grows.trans {ks ls : List Label} {s s' s'' : Search} (h : Grows ks s s') (h' : Grows ls s' s'') :
    Grows (ks ++ ls) s s'' := by
  refine ⟨fun l => ?_, fun l => ?_, fun all hall => ?_⟩
  · rw [h'.seen, h.seen, List.mem_append, or_assoc]
  · rw [h'.stack, h.stack, h.seen, List.mem_append]
    tauto
  · exact (h'.count all fun l hl => hall l (List.mem_append_right _ hl)).trans
      (h.count all fun l hl => hall l (List.mem_append_left _ hl))

theorem grows_foldl (ls : List Label) (s : Search) : Grows ls s (ls.foldl add s) := by
  induction ls generalizing s with
  | nil => exact ⟨by simp, by simp, fun _ _ => rfl⟩
  | cons l ls ih => exact (Grows.add s l).trans (ih (s.add l))

end Search

/-- A search from the entry that is under way. -/
structure Searching (g : Tabular) (s : Search) : Prop where
  begun : g.entry ∈ s.seen
  reached : ∀ l ∈ s.seen, Relation.ReflTransGen g.cfg.Edge g.entry l
  found : ∀ l ∈ s.stack, l ∈ s.seen
  /-- The successors of a label have been gone through, or this is still to be done. -/
  covered : ∀ k ∈ s.seen, k ∈ s.stack ∨ ∀ l ∈ g.successors k, l ∈ s.seen

/-- The number of labels that may still be taken from the stack. -/
def turnsLeft (g : Tabular) (s : Search) : Nat :=
  ((g.cfg.edges.map Prod.snd).toFinset.filter (· ∉ s.seen)).card + s.stack.length

theorem Searching.step {g : Tabular} (hg : g.Coherent) {s s' : Search} (h : g.Searching s) (hs : s.next? g = some s') :
    g.Searching s' ∧ g.turnsLeft s' < g.turnsLeft s := by
  obtain ⟨seen, stack⟩ := s
  cases stack with
  | nil => cases hs
  | cons k stack =>
    cases hs
    have hk : k ∈ seen := h.found k List.mem_cons_self
    have hgrows := Search.grows_foldl (g.successors k) ⟨seen, stack⟩
    generalize (g.successors k).foldl Search.add ⟨seen, stack⟩ = s' at hgrows ⊢
    refine ⟨⟨(hgrows.seen _).2 (.inl h.begun), fun l hl => ?_, fun l hl => ?_, fun l hl => ?_⟩, ?_⟩
    · rcases (hgrows.seen l).1 hl with hl | hl
      · exact h.reached l hl
      · exact (h.reached k hk).tail (hg.mem_successors.1 hl)
    · rcases (hgrows.stack l).1 hl with hl | hl
      · exact (hgrows.seen l).2 (.inl (h.found l (.tail _ hl)))
      · exact (hgrows.seen l).2 (.inr hl.1)
    · by_cases hold : l ∈ seen
      · rcases h.covered l hold with hstack | hall
        · rcases List.mem_cons.1 hstack with rfl | hstack
          · exact .inr fun m hm => (hgrows.seen m).2 (.inr hm)
          · exact .inl ((hgrows.stack l).2 (.inl hstack))
        · exact .inr fun m hm => (hgrows.seen m).2 (.inl (hall m hm))
      · exact .inl ((hgrows.stack l).2 (.inr ⟨((hgrows.seen l).1 hl).resolve_left hold, hold⟩))
    · have hcount := hgrows.count (g.cfg.edges.map Prod.snd).toFinset fun l hl =>
        List.mem_toFinset.2 (List.mem_map.2 ⟨(k, l), mem_edges.2 (hg.mem_successors.1 hl), rfl⟩)
      rw [turnsLeft, turnsLeft, hcount]
      exact Nat.add_lt_add_left (Nat.lt_succ_self _) _

theorem Searching.begin (g : Tabular) :
    g.Searching (.start g.entry) ∧ g.turnsLeft (.start g.entry) ≤ g.cfg.edges.length + 1 := by
  refine ⟨⟨List.mem_singleton_self _, fun l hl => ?_, fun l hl => hl, fun l hl => .inl hl⟩, ?_⟩
  · exact List.mem_singleton.1 hl ▸ .refl
  · have hfilter := Finset.card_filter_le (g.cfg.edges.map Prod.snd).toFinset (· ∉ (Search.start g.entry).seen)
    have hlist := (g.cfg.edges.map Prod.snd).toFinset_card_le
    rw [List.length_map] at hlist
    rw [turnsLeft, show (Search.start g.entry).stack.length = 1 from rfl]
    omega

/-- The search comes to an end by itself. -/
theorem Coherent.exhausts_search {g : Tabular} (hg : g.Coherent) :
    Exhausts (Search.next? g) (.start g.entry) g.search :=
  exhausts_exhaust (P := g.Searching) (μ := g.turnsLeft) (fun _ _ h hs => h.step hg hs) (Searching.begin g).1
    (Searching.begin g).2

/-- The search finds what edges lead to from the entry, whether it is a block or not. -/
theorem Coherent.mem_seen_search {g : Tabular} (hg : g.Coherent) {l : Label} :
    l ∈ g.search.seen ↔ Relation.ReflTransGen g.cfg.Edge g.entry l := by
  obtain ⟨h, hnone⟩ := hg.exhausts_search.induction (P := g.Searching) (fun _ _ h hs => (h.step hg hs).1)
    (Searching.begin g).1
  have hstack : g.search.stack = [] := by
    rw [Search.next?] at hnone
    split at hnone
    · assumption
    · cases hnone
  refine ⟨h.reached l, fun hl => ?_⟩
  induction hl with
  | refl => exact h.begun
  | tail _ hedge ih =>
    refine (h.covered _ ih).resolve_left (fun hmem => ?_) _ (hg.mem_successors.2 hedge)
    rw [hstack] at hmem
    cases hmem

/-- The blocks that nothing leads to are the nodes that the search without an order does not find. -/
theorem Coherent.mem_unreachable {g : Tabular} (hg : g.Coherent) {l : Label} :
    l ∈ g.unreachable ↔ ∃ u : Nat, g.order[u]? = some l ∧ (g.cfg.digraph.reachable 0).contains u = false := by
  have hnodup := hg.nodup_labels
  have hentry : g.cfg.labels[0]? = some g.entry := by
    rw [hg.labels_cfg, ← List.head?_eq_getElem?, hg.head]
  have hsize : 0 < g.cfg.digraph.size := by
    simpa [labels, digraph] using (List.getElem?_eq_some_iff.1 hentry).1
  have hreach : ∀ {u : Nat}, g.order[u]? = some l →
      ((g.cfg.digraph.reachable 0).contains u = true ↔ l ∈ g.search.seen) := fun {u} hu => by
    rw [← hg.labels_cfg] at hu
    rw [(converse_digraph hnodup).contains_reachable hsize, hg.mem_seen_search]
    exact ⟨fun h => edges_of_reaches hnodup h hentry hu, fun h => reaches_of_edges hnodup h hentry hu⟩
  simp only [unreachable, List.mem_filter, Bool.not_eq_true', ← Bool.not_eq_true, List.contains_iff_mem]
  constructor
  · rintro ⟨hl, hnot⟩
    obtain ⟨u, hu⟩ := List.mem_iff_getElem?.1 hl
    exact ⟨u, hu, fun h => hnot ((hreach hu).1 h)⟩
  · rintro ⟨u, hu, hnot⟩
    exact ⟨List.mem_of_getElem? hu, fun h => hnot ((hreach hu).2 h)⟩

/-! ## The views agree -/

/-- Whatever changes have been made of a graph, its order names the keys of its table, each of them once and the entry
first, and every block stands under its own label. The blocks are numbered by their place in the order. Of any two
blocks, all views of the edges say alike whether the one jumps to the other: its jumps, its successors, the edges, the
predecessors of the other, the table of predecessors, and the rows of both nodes. The blocks that the search through
labels does not find are those whose nodes cannot be reached from the first one. -/
theorem Reached.views_agree {g : Tabular} (h : g.Reached) :
    g.order.Nodup ∧ g.order.head? = some g.entry ∧ (∀ l, l ∈ g.order ↔ g.contains l = true) ∧
    (∀ l b, g.block? l = some b → b.label = l) ∧
    ∃ n, g.nodes? = some n ∧ n.digraph.size = g.order.length ∧
      (∀ l u, n.node? l = some u ↔ g.order[u]? = some l) ∧
      (∀ k ∈ g.order, ∀ l ∈ g.order, ∃ b ks u v, g.block? k = some b ∧ g.predecessorMap.get? l = some ks ∧
        n.node? k = some u ∧ n.node? l = some v ∧ List.TFAE [∃ j ∈ b.jumps, j.target? = some l,
          l ∈ g.successors k, (k, l) ∈ g.cfg.edges, k ∈ g.cfg.predecessors l, k ∈ ks,
          v ∈ n.digraph.succ u, u ∈ n.digraph.pred v]) ∧
      ∀ l, l ∈ g.unreachable ↔ ∃ u, n.node? l = some u ∧ (n.digraph.reachable 0).contains u = false := by
  have hg := h.coherent
  obtain ⟨n, hn, hnode, hdigraph⟩ := hg.exists_nodes
  have hlabel : ∀ {l : Label} {u : Nat}, g.order[u]? = some l → g.cfg.labels[u]? = some l := fun hu =>
    hg.labels_cfg ▸ hu
  refine ⟨hg.nodup, hg.head, fun l => (hg.mem_iff l).trans contains_iff.symm, hg.label, n, hn, ?_, hnode,
    fun k hk l hl => ?_, fun l => ?_⟩
  · rw [hdigraph, ← hg.labels_cfg]
    exact (List.length_map _).symm
  · obtain ⟨b, hb⟩ := (hg.mem_iff k).1 hk
    obtain ⟨u, hu⟩ := List.mem_iff_getElem?.1 hk
    obtain ⟨v, hv⟩ := List.mem_iff_getElem?.1 hl
    refine ⟨b, _, u, v, hb, (hg.get?_predecessorMap l _).2 ⟨hl, rfl⟩, (hnode k u).2 hu, (hnode l v).2 hv, ?_⟩
    rw [hdigraph]
    -- Each view has the edge exactly if the list of blocks has.
    refine List.tfae_of_forall (g.cfg.Edge k l) _ ?_
    simp only [List.forall_mem_cons, List.not_mem_nil, false_imp_iff, implies_true, and_true]
    refine ⟨?_, hg.mem_successors, mem_edges, mem_predecessors, mem_predecessors,
      mem_nodeSuccessors_iff hg.nodup_labels (hlabel hu) (hlabel hv),
      mem_nodePredecessors_iff hg.nodup_labels (hlabel hu) (hlabel hv)⟩
    obtain rfl := hg.label k b hb
    rw [edge_iff hg.nodup_labels (hg.mem_blocks.2 hb)]
    exact List.mem_filterMap.symm
  · rw [hg.mem_unreachable, hdigraph]
    simp only [hnode]

/-- Two ways that meet again, one of which is named twice. -/
def forked : List Block := [
  ⟨⟨"in"⟩, [], [.branch .jz (.temp ⟨"%x"⟩) ⟨"left"⟩, .branch .jl (.temp ⟨"%x"⟩) ⟨"right"⟩, .jump ⟨"right"⟩]⟩,
  ⟨⟨"left"⟩, [], [.jump ⟨"out"⟩]⟩,
  ⟨⟨"right"⟩, [], [.jump ⟨"out"⟩]⟩,
  ⟨⟨"out"⟩, [], [.ret none]⟩]

/-- The same graph without the block on the left, which is still jumped to, and with a block that nothing leads to and
a jump to what is no block; what was read of the temporary is known. -/
def patched : Tabular where
  proc := "@main"
  entry := ⟨"in"⟩
  order := [⟨"in"⟩, ⟨"right"⟩, ⟨"out"⟩, ⟨"aside"⟩]
  table := ⟨[
    (⟨"in"⟩, ⟨⟨"in"⟩, [], [.branch .jz (.imm 1) ⟨"left"⟩, .branch .jl (.imm 1) ⟨"right"⟩, .jump ⟨"right"⟩]⟩),
    (⟨"right"⟩, ⟨⟨"right"⟩, [.copy ⟨"%y"⟩ (.imm 1)], [.jump ⟨"out"⟩, .branch .jnz (.imm 1) ⟨"gone"⟩]⟩),
    (⟨"out"⟩, ⟨⟨"out"⟩, [], [.ret none]⟩),
    (⟨"aside"⟩, ⟨⟨"aside"⟩, [], [.jump ⟨"out"⟩]⟩)]⟩

theorem views_agree_patched : patched.Reached ∧ ∃ n, patched.nodes? = some n ∧ n.digraph.size = 4 ∧
    n.node? ⟨"left"⟩ = none ∧ (∃ ks, patched.predecessorMap.get? ⟨"right"⟩ = some ks ∧ ⟨"in"⟩ ∈ ks) ∧
    1 ∈ n.digraph.succ 0 ∧ 0 ∈ n.digraph.pred 1 ∧ 2 ∉ n.digraph.succ 0 ∧
    ⟨"aside"⟩ ∈ patched.unreachable ∧ (n.digraph.reachable 0).contains 3 = false := by
  have hnew := Reached.new (show ofBlocks "@main" forked = .ok (Cfg.tabular ⟨"@main", ⟨"in"⟩, forked⟩) from rfl)
  have hremove := hnew.remove (l := ⟨"left"⟩) rfl
  have hpush := hremove.push (b := ⟨⟨"aside"⟩, [], [.jump ⟨"out"⟩]⟩) rfl
  have happend := hpush.append (show _ = some _ from (rfl : modify _ ⟨"right"⟩ (fun b => ⟨b.label,
    b.body ++ [.copy ⟨"%y"⟩ (.temp ⟨"%x"⟩)], b.jumps ++ [.branch .jnz (.temp ⟨"%x"⟩) ⟨"gone"⟩]⟩) = _))
  have hreached : patched.Reached := happend.replaceAll (f := (·.subst ⟨"%x"⟩ (.imm 1))) (Block.blank_subst · ..)
  obtain ⟨-, -, -, -, n, hn, hsize, hnode, hedge, hunreachable⟩ := hreached.views_agree
  have hplace : ∀ {l : Label} {u w : Nat}, patched.order[w]? = some l → n.node? l = some u → w = u := fun hw hu =>
    Option.some.inj (((hnode _ _).2 hw).symm.trans hu)
  obtain ⟨b, ks, u, v, hb, hks, hu, hv, hright⟩ := hedge ⟨"in"⟩ (by decide) ⟨"right"⟩ (by decide)
  obtain ⟨d, _, u', v', hd, -, hu', hv', hout⟩ := hedge ⟨"in"⟩ (by decide) ⟨"out"⟩ (by decide)
  obtain rfl := hplace (w := 0) rfl hu
  obtain rfl := hplace (w := 1) rfl hv
  obtain rfl := hplace (w := 0) rfl hu'
  obtain rfl := hplace (w := 2) rfl hv'
  cases hb
  cases hd
  have hjump := (hright.out 0 5).1 (by decide)
  have haside : ⟨"aside"⟩ ∈ patched.unreachable := by decide +kernel
  refine ⟨hreached, n, hn, hsize, ?_, ⟨ks, hks, (hright.out 5 4).1 hjump⟩, hjump, (hright.out 5 6).1 hjump,
    fun h => absurd ((hout.out 5 0).1 h) (by decide), haside, ?_⟩
  · refine Option.eq_none_iff_forall_ne_some.2 fun u hu => ?_
    exact absurd (List.mem_of_getElem? ((hnode _ u).1 hu)) (by decide)
  · obtain ⟨u, hu, hnot⟩ := (hunreachable ⟨"aside"⟩).1 haside
    exact hplace (w := 3) rfl hu ▸ hnot

end Tabular

end Cfg

end ThreeAddress

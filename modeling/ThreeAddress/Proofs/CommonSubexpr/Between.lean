import ThreeAddress.CommonSubexpr.Global
import ThreeAddress.Proofs.CommonSubexpr.Held
import ThreeAddress.Proofs.Nodes
/-!
# What lies between two blocks

The blocks `between` two others are all those on paths that leave the one and enter the other, as
depth-first search finds everything that can be reached. So if nothing between them writes an operand of
an expression or its holder, the value is passed on undisturbed (`Valid.undisturbed`).
-/

namespace ThreeAddress.Cfg

variable {c : Cfg}

/-- A path of at least one edge leads from a block to another. -/
abbrev Leads (c : Cfg) : Label → Label → Prop := Relation.TransGen c.Edge

theorem Path.leads {ls : List Label} {k l : Label} (h : c.Path ls l) (hk : k ∈ ls) : c.Leads k l := by
  induction h with
  | entry => cases hk
  | @step ls m l _ hedge ih =>
    rcases List.mem_cons.1 hk with rfl | hk
    · exact .single hedge
    · exact (ih hk).tail hedge

/-! ## Nodes -/

theorem Valid.exists_node_of_edge (h : c.Valid) {k l : Label} (hedge : c.Edge k l) :
    (∃ u : Nat, c.labels[u]? = some k) ∧ ∃ v : Nat, c.labels[v]? = some l := by
  obtain ⟨b, hb, rfl, ht⟩ := hedge
  exact ⟨List.mem_iff_getElem?.1 (List.mem_map_of_mem hb), List.mem_iff_getElem?.1 (h.target b hb l ht)⟩

/-- What can be left for and come from lies between. -/
theorem Valid.mem_between (h : c.Valid) {k l m : Label} {u v w : Nat} (hu : c.labels[u]? = some k)
    (hv : c.labels[v]? = some l) (hw : c.labels[w]? = some m) :
    w ∈ c.between u v ↔ c.Leads k m ∧ c.Leads m l := by
  have hconv := converse_digraph h.nodup
  have hsize : ∀ {n : Nat} {x}, c.labels[n]? = some x → n < c.digraph.size := fun hn => by
    simpa [labels, digraph] using (List.getElem?_eq_some_iff.1 hn).1
  have hafter : (∃ n ∈ c.digraph.succ u, w ∈ c.digraph.postorder n) ↔ c.Leads k m := by
    constructor
    · rintro ⟨n, hn, hmem⟩
      obtain ⟨k', x, hk', hx, hedge⟩ := (mem_nodeSuccessors h.nodup).1 hn
      obtain rfl : k' = k := Option.some.inj (hk'.symm.trans hu)
      exact .head' hedge (edges_of_reaches h.nodup ((hconv.mem_postorder (hsize hx)).1 hmem) hx hw)
    · intro hk
      obtain ⟨x, hedge, hx⟩ := Relation.TransGen.head'_iff.1 hk
      obtain ⟨-, n, hn⟩ := h.exists_node_of_edge hedge
      refine ⟨n, (mem_nodeSuccessors h.nodup).2 ⟨k, x, hu, hn, hedge⟩, ?_⟩
      exact (hconv.mem_postorder (hsize hn)).2 (reaches_of_edges h.nodup hx hn hw)
  -- Whoever is reached from a node in the reversed graph reaches it.
  have hback : ∀ {n x}, c.labels[n]? = some x →
      (w ∈ c.digraph.reverse.postorder n ↔ c.digraph.Reaches w n) := fun hn => by
    rw [hconv.reverse.mem_postorder (hsize hn)]
    exact ⟨fun hr => Relation.ReflTransGen.mono (fun a b hab => (hconv.mem_iff a b).2 hab) _ _ hr.swap,
      fun hr => Relation.ReflTransGen.mono (fun a b hab => (hconv.mem_iff b a).1 hab) _ _ hr.swap⟩
  have hbefore : (∃ n ∈ c.digraph.pred v, w ∈ c.digraph.reverse.postorder n) ↔ c.Leads m l := by
    constructor
    · rintro ⟨n, hn, hmem⟩
      obtain ⟨x, l', hx, hl', hedge⟩ := (mem_nodePredecessors h.nodup).1 hn
      obtain rfl : l' = l := Option.some.inj (hl'.symm.trans hv)
      exact .tail' (edges_of_reaches h.nodup ((hback hx).1 hmem) hw hx) hedge
    · intro hl
      obtain ⟨x, hx, hedge⟩ := Relation.TransGen.tail'_iff.1 hl
      obtain ⟨⟨n, hn⟩, -⟩ := h.exists_node_of_edge hedge
      exact ⟨n, (mem_nodePredecessors h.nodup).2 ⟨x, l, hn, hv, hedge⟩,
        (hback hn).2 (reaches_of_edges h.nodup hx hw hn)⟩
  simp [between, hsize hw, hafter, hbefore]

/-! ## Writes -/

theorem writesAny_iff {b : Block} {skip? : Option Nat} {temps : List Temp} : writesAny b skip? temps = true ↔
    ∃ n i t, b.instrs[n]? = some i ∧ some n ≠ skip? ∧ i.dest? = some t ∧ t ∈ temps := by
  simp only [writesAny, List.any_eq_true, Prod.exists, List.mem_zipIdx_iff_getElem?, Bool.and_eq_true,
    decide_eq_true_eq]
  constructor
  · rintro ⟨i, n, hi, hn, hw⟩
    split at hw
    · exact ⟨n, i, _, hi, hn, ‹_›, by simpa using hw⟩
    · cases hw
  · rintro ⟨n, i, t, hi, hn, ht, hmem⟩
    exact ⟨i, n, hi, hn, by simpa [ht] using hmem⟩

theorem Leads.mem_labels (h : c.Valid) {k l : Label} (hkl : c.Leads k l) : k ∈ c.labels ∧ l ∈ c.labels := by
  obtain ⟨x, ⟨b, hb, hk, -⟩, -⟩ := Relation.TransGen.head'_iff.1 hkl
  obtain ⟨y, -, d, hd, -, ht⟩ := Relation.TransGen.tail'_iff.1 hkl
  exact ⟨hk ▸ List.mem_map_of_mem hb, h.target d hd l ht⟩

/-- Some instruction between two blocks, but for the one at `skip` of the first, writes one of `temps`. -/
theorem Valid.writesBetween_iff (h : c.Valid) {k l : Label} (hk : k ∈ c.labels) (hl : l ∈ c.labels) {skip : Nat}
    {temps : List Temp} : c.writesBetween k skip l temps = true ↔ ∃ d ∈ c.blocks, c.Leads k d.label ∧
      c.Leads d.label l ∧ ∃ n i t, d.instrs[n]? = some i ∧ (d.label = k → n ≠ skip) ∧ i.dest? = some t ∧ t ∈ temps := by
  obtain ⟨u, hu⟩ := List.mem_iff_getElem?.1 hk
  obtain ⟨v, hv⟩ := List.mem_iff_getElem?.1 hl
  have hlabel : ∀ {w : Nat} {d}, c.blocks[w]? = some d → c.labels[w]? = some d.label := fun hd => by
    simp [labels, hd]
  have hskip : ∀ {w d} (n : Nat), c.blocks[w]? = some d →
      (some n ≠ (if w = u then some skip else none) ↔ (d.label = k → n ≠ skip)) := by
    intro w d n hd
    have hwu : d.label = k ↔ w = u := by
      constructor
      · rintro rfl
        exact eq_of_labelAt? h.nodup (hlabel hd) hu
      · rintro rfl
        exact Option.some.inj ((hlabel hd).symm.trans hu)
    by_cases hw : w = u <;> simp [hw, hwu]
  simp only [writesBetween, (node?_eq_some_iff h.nodup).2 hu, (node?_eq_some_iff h.nodup).2 hv, List.any_eq_true]
  constructor
  · rintro ⟨w, hw, hwrites⟩
    split at hwrites
    · rename_i d hd
      obtain ⟨n, i, t, hi, hn, ht⟩ := writesAny_iff.1 hwrites
      obtain ⟨hkd, hdl⟩ := (h.mem_between hu hv (hlabel hd)).1 hw
      exact ⟨d, List.mem_of_getElem? hd, hkd, hdl, n, i, t, hi, (hskip n hd).1 hn, ht⟩
    · cases hwrites
  · rintro ⟨d, hd, hkd, hdl, n, i, t, hi, hn, ht⟩
    obtain ⟨w, hdw⟩ := List.mem_iff_getElem?.1 hd
    refine ⟨w, (h.mem_between hu hv (hlabel hdw)).2 ⟨hkd, hdl⟩, ?_⟩
    rw [hdw]
    exact writesAny_iff.2 ⟨n, i, t, hi, (hskip n hdw).2 hn, ht⟩

/-! ## Undisturbed values -/

/-- No block between two others, but perhaps the first of them, writes an operand of the expression or the
temporary that holds it. -/
def Undisturbed (c : Cfg) (k l : Label) (e : Expr) (t : Temp) : Prop :=
  ∀ d ∈ c.blocks, d.label ≠ k → c.Leads k d.label → c.Leads d.label l → ∀ i ∈ d.body, i.Spares e t

/-- What `writesBetween` does not find is not there. -/
theorem Valid.undisturbed (h : c.Valid) {k l : Label} {skip : Nat} {e : Expr} {t : Temp}
    (hw : c.writesBetween k skip l (t :: e.temps) = false) : c.Undisturbed k l e t := by
  intro d hd hne hk hl i hi x hx
  obtain ⟨n, hn⟩ := List.mem_iff_getElem?.1 (List.mem_append_left d.jumps hi)
  have hnot : x ∉ t :: e.temps := fun hmem => by
    have hwrites : c.writesBetween k skip l (t :: e.temps) = true :=
      (h.writesBetween_iff (Leads.mem_labels h hk).1 (Leads.mem_labels h hl).2).2
        ⟨d, hd, hk, hl, n, i, x, hn, fun hdk => absurd hdk hne, hx, hmem⟩
    rw [hw] at hwrites
    cases hwrites
  simpa using hnot

end ThreeAddress.Cfg

import ThreeAddress.Proofs.Dominance
/-!
# Strict dominators form a chain

Of two strict dominators of a reachable block one strictly dominates the other: if neither did, a path to one
that spares the other could be put in front of what is left of a path to the block, behind the last of the two
(`StrictlyDominates.comparable`). So a block has more strict dominators than each of them, and sorting by their
number sorts the chain (`Valid.pairwise_closestFirst`). What comes behind a block in the chain are its own strict
dominators, whose number is its depth (`Valid.depth_eq_length`), and the deepest node is the same one however
it is looked for.
-/

namespace ThreeAddress

variable {c : Cfg} {j k l : Label}

namespace Cfg

/-! ## Dominance of paths -/

/-- Every path to a block passes through another one. -/
def StrictlyDominates (c : Cfg) (k l : Label) : Prop := k ≠ l ∧ ∀ ls, c.Path ls l → k ∈ ls

/-- What comes before a block on a path may be replaced by any path to the block. -/
theorem Path.splice {later earlier earlier' : List Label} (h : c.Path (later ++ k :: earlier) l)
    (hk : c.Path earlier' k) : c.Path (later ++ k :: earlier') l := by
  induction later generalizing l with
  | nil =>
    cases h with
    | step _ hedge => exact hk.step hedge
  | cons m later ih =>
    cases h with
    | step hpath hedge => exact (ih hpath).step hedge

namespace StrictlyDominates

theorem asymm (hjk : c.StrictlyDominates j k) (hk : c.Reachable k) : ¬ c.StrictlyDominates k j := by
  intro hkj
  obtain ⟨ls, hls⟩ := hk
  obtain ⟨ls, hls, hnot⟩ := hls.exists_first
  obtain ⟨later, earlier, rfl, hpath⟩ := hls.split (hjk.2 ls hls)
  exact hnot (by simp [hkj.2 earlier hpath])

theorem trans (hjk : c.StrictlyDominates j k) (hkl : c.StrictlyDominates k l) (hl : c.Reachable l) :
    c.StrictlyDominates j l := by
  refine ⟨?_, fun ls hls => ?_⟩
  · rintro rfl
    exact hkl.asymm hl hjk
  · obtain ⟨later, earlier, rfl, hpath⟩ := hls.split (hkl.2 ls hls)
    simp [hjk.2 earlier hpath]

/-- Two blocks that a block is dominated by are not side by side. -/
theorem comparable (hj : c.StrictlyDominates j l) (hk : c.StrictlyDominates k l) (hl : c.Reachable l) (hne : j ≠ k) :
    c.StrictlyDominates j k ∨ c.StrictlyDominates k j := by
  by_contra hnot
  simp only [StrictlyDominates, hne, hne.symm, ne_eq, not_false_eq_true, true_and, not_or, not_forall] at hnot
  obtain ⟨⟨toK, hK, hjK⟩, ⟨toJ, hJ, hkJ⟩⟩ := hnot
  obtain ⟨ls, hls⟩ := hl
  obtain ⟨later, earlier, rfl, hlater⟩ := List.eq_append_cons_of_mem (hk.2 ls hls)
  by_cases hjl : j ∈ later
  · -- The last of the two is `j`; it is come to without `k`.
    obtain ⟨later', between, rfl, -⟩ := List.eq_append_cons_of_mem hjl
    rw [List.append_assoc, List.cons_append] at hls
    have hmem := hk.2 _ (hls.splice hJ)
    simp only [List.mem_append, List.mem_cons, not_or] at hmem hlater
    rcases hmem with h | h | h
    · exact hlater.1 h
    · exact hne h.symm
    · exact hkJ h
  · have hmem := hj.2 _ (hls.splice hK)
    simp only [List.mem_append, List.mem_cons] at hmem
    rcases hmem with h | h | h
    · exact hjl h
    · exact hne h
    · exact hjK h

end StrictlyDominates

/-- The entry is passed by every path to another block. -/
theorem strictlyDominates_entry (hl : l ≠ c.entry) : c.StrictlyDominates c.entry l := by
  refine ⟨hl.symm, fun ls hls => ?_⟩
  induction hls with
  | entry => exact absurd rfl hl
  | @step ls k l hpath hedge ih =>
    by_cases hk : k = c.entry
    · simp [hk]
    · exact .tail _ (ih hk)

theorem not_strictlyDominates_entry (k : Label) : ¬ c.StrictlyDominates k c.entry :=
  fun h => by simpa using h.2 [] .entry

/-! ## The chain -/

theorem nodup_ascending (ls : List Label) : (ascending ls).Nodup := by
  refine (pairwise_ascending (fun _ _ _ => Label.lt_trans) ls).imp fun {a b} (hlt : a < b) => ?_
  rintro rfl
  exact Label.lt_irrefl a hlt

theorem nodup_strict (c : Cfg) (l : Label) : (c.dominance.strict l).Nodup := by
  rw [Dominance.strict]
  cases hs : c.dominance.sets.lookup l with
  | none => exact .nil
  | some ks =>
    obtain ⟨e, -, heq⟩ := List.mem_map.1 (mem_of_lookup hs)
    cases heq
    exact nodup_ascending _

theorem nodup_closestFirst (c : Cfg) (l : Label) : (c.dominance.closestFirst l).Nodup :=
  (List.mergeSort_perm _ _).nodup_iff.2 (c.nodup_strict l)

theorem length_closestFirst (d : Dominance) (l : Label) : (d.closestFirst l).length = d.depth l :=
  List.length_mergeSort _

namespace Valid

theorem mem_labels (h : c.Valid) (hl : c.Reachable l) : l ∈ c.labels := by
  obtain ⟨ls, hls⟩ := hl
  cases hls with
  | entry => exact List.mem_of_head? h.first
  | step _ hedge =>
    obtain ⟨b, hb, -, ht⟩ := hedge
    exact h.target b hb l ht

theorem mem_closestFirst_iff (h : c.Valid) (hl : c.Reachable l) :
    k ∈ c.dominance.closestFirst l ↔ c.StrictlyDominates k l := by
  rw [mem_closestFirst]
  refine ⟨fun hk => ⟨h.ne_of_mem_strict hk, fun ls => h.mem_of_mem_strict hk⟩, fun hk => ?_⟩
  exact (h.mem_strict_iff (h.mem_labels (hl.of_dominated hk.2)) (h.mem_labels hl)).2 hk

/-- A strict dominator has fewer strict dominators: all of its own are among those of the block, and it is not. -/
theorem depth_lt (h : c.Valid) (hl : c.Reachable l) (hk : c.StrictlyDominates k l) :
    c.dominance.depth k < c.dominance.depth l := by
  have hreach : c.Reachable k := hl.of_dominated hk.2
  have hself : k ∉ c.dominance.closestFirst k := fun hmem => ((h.mem_closestFirst_iff hreach).1 hmem).1 rfl
  have hsub : k :: c.dominance.closestFirst k ⊆ c.dominance.closestFirst l := by
    intro j hj
    rw [h.mem_closestFirst_iff hl]
    rcases List.mem_cons.1 hj with rfl | hj
    · exact hk
    · exact ((h.mem_closestFirst_iff hreach).1 hj).trans hk hl
  rw [← length_closestFirst, ← length_closestFirst]
  exact (List.subperm_of_subset (List.nodup_cons.2 ⟨hself, c.nodup_closestFirst k⟩) hsub).length_le

/-- In the chain, what comes later strictly dominates what comes earlier. -/
theorem pairwise_closestFirst (h : c.Valid) (hl : c.Reachable l) :
    (c.dominance.closestFirst l).Pairwise fun j k => c.StrictlyDominates k j := by
  have hdepth : (c.dominance.closestFirst l).Pairwise fun j k => c.dominance.depth k ≤ c.dominance.depth j := by
    refine (List.pairwise_mergeSort (fun a b d hab hbd => ?_) (fun a b => ?_) _).imp of_decide_eq_true
    · rw [decide_eq_true_eq] at hab hbd ⊢
      exact hbd.trans hab
    · rw [Bool.or_eq_true, decide_eq_true_eq, decide_eq_true_eq]
      exact Nat.le_total _ _
  refine (hdepth.and (c.nodup_closestFirst l)).imp_of_mem fun {j k} hj hk ⟨hle, hne⟩ => ?_
  rw [h.mem_closestFirst_iff hl] at hj hk
  refine (hk.comparable hj hl hne.symm).resolve_right fun hjk => ?_
  have hlt := h.depth_lt (hl.of_dominated hk.2) hjk
  omega

/-- Behind a block in the chain are its own strict dominators. -/
theorem mem_behind_iff (h : c.Valid) (hl : c.Reachable l) {before behind : List Label}
    (hsplit : c.dominance.closestFirst l = before ++ k :: behind) : j ∈ behind ↔ c.StrictlyDominates j k := by
  have hpairwise := h.pairwise_closestFirst hl
  have hmem := fun {j} => h.mem_closestFirst_iff (k := j) hl
  rw [hsplit] at hpairwise hmem
  obtain ⟨-, hbehind, hbefore⟩ := List.pairwise_append.1 hpairwise
  have hk : c.StrictlyDominates k l := hmem.1 (by simp)
  refine ⟨(List.pairwise_cons.1 hbehind).1 j, fun hj => ?_⟩
  rcases List.mem_append.1 (hmem.2 (hj.trans hk hl)) with hin | hin
  · exact absurd (hbefore j hin k List.mem_cons_self) (hj.asymm (hl.of_dominated hk.2))
  · exact (List.mem_cons.1 hin).resolve_left hj.1

/-- The depth of a block in the chain is the number of those behind it. -/
theorem depth_eq_length (h : c.Valid) (hl : c.Reachable l) {before behind : List Label}
    (hsplit : c.dominance.closestFirst l = before ++ k :: behind) : c.dominance.depth k = behind.length := by
  have hk : c.StrictlyDominates k l := (h.mem_closestFirst_iff hl).1 (by simp [hsplit])
  have hnodup : behind.Nodup := by
    have := c.nodup_closestFirst l
    rw [hsplit] at this
    exact (List.nodup_cons.1 (List.nodup_append.1 this).2.1).2
  rw [← length_closestFirst]
  refine ((List.perm_ext_iff_of_nodup (c.nodup_closestFirst k) hnodup).2 fun j => ?_).length_eq
  rw [h.mem_closestFirst_iff (hl.of_dominated hk.2), h.mem_behind_iff hl hsplit]

/-- From the end of the chain, depths count from zero. -/
theorem depths_closestFirst (h : c.Valid) (hl : c.Reachable l) :
    (c.dominance.closestFirst l).reverse.map c.dominance.depth = List.range (c.dominance.depth l) := by
  refine List.ext_getElem (by simp [length_closestFirst]) fun i hi _ => ?_
  have hi' : i < (c.dominance.closestFirst l).length := by simpa using hi
  have hsplit : ∀ (m : Nat) (hm : m < (c.dominance.closestFirst l).length), c.dominance.closestFirst l =
      (c.dominance.closestFirst l).take m ++ (c.dominance.closestFirst l)[m] ::
        (c.dominance.closestFirst l).drop (m + 1) := fun m hm => by
    rw [List.getElem_cons_drop, List.take_append_drop]
  rw [List.getElem_map, List.getElem_range, List.getElem_reverse, h.depth_eq_length hl (hsplit _ _), List.length_drop]
  omega

theorem getLast?_closestFirst (h : c.Valid) (hl : c.Reachable l) :
    (c.dominance.closestFirst l).getLast? = if l = c.entry then none else some c.entry := by
  split
  · rename_i he
    subst he
    rw [List.getLast?_eq_none_iff, List.eq_nil_iff_forall_not_mem]
    exact fun k hk => not_strictlyDominates_entry k ((h.mem_closestFirst_iff hl).1 hk)
  · rename_i he
    obtain ⟨before, behind, hsplit⟩ :=
      List.append_of_mem ((h.mem_closestFirst_iff hl).2 (strictlyDominates_entry he))
    have hnil : behind = [] := List.eq_nil_iff_forall_not_mem.2 fun k hk =>
      not_strictlyDominates_entry k ((h.mem_behind_iff hl hsplit).1 hk)
    rw [hsplit, hnil, List.getLast?_append]
    rfl

/-! ## The closest one -/

theorem immediate?_eq_some_iff (h : c.Valid) (hl : c.Reachable l) : c.dominance.immediate? l = some k ↔
    c.StrictlyDominates k l ∧ ∀ j, c.StrictlyDominates j l → j ≠ k → c.StrictlyDominates j k := by
  have hpairwise := h.pairwise_closestFirst hl
  have hmem := fun {j} => h.mem_closestFirst_iff (k := j) hl
  rw [Dominance.immediate?]
  cases hchain : c.dominance.closestFirst l with
  | nil =>
    rw [hchain] at hmem
    simp [← hmem]
  | cons m ms =>
    rw [hchain] at hpairwise hmem
    have hm := (List.pairwise_cons.1 hpairwise).1
    rw [List.head?_cons, Option.some.injEq]
    constructor
    · rintro rfl
      exact ⟨hmem.1 List.mem_cons_self, fun j hj hne => hm j ((List.mem_cons.1 (hmem.2 hj)).resolve_left hne)⟩
    · rintro ⟨hk, hall⟩
      by_contra hne
      have hkm : c.StrictlyDominates k m := hm k ((List.mem_cons.1 (hmem.2 hk)).resolve_left (Ne.symm hne))
      exact hkm.asymm (hl.of_dominated (hmem.1 List.mem_cons_self).2) (hall m (hmem.1 List.mem_cons_self) hne)

theorem immediate?_eq_none_iff (h : c.Valid) (hl : c.Reachable l) :
    c.dominance.immediate? l = none ↔ l = c.entry := by
  rw [Dominance.immediate?, List.head?_eq_none_iff, ← List.getLast?_eq_none_iff, h.getLast?_closestFirst hl]
  split <;> simp [*]

end Valid

end Cfg

/-! ## The closest node -/

namespace Digraph

variable {g : Digraph} {entry : Nat}

/-- Going through nodes and keeping the first deepest one finds a deepest one. -/
theorem foldl_deepest (depth : Nat → Nat) (us : List Nat) (b : Nat) :
    ∃ a ∈ b :: us, (∀ u ∈ b :: us, depth u ≤ depth a) ∧ us.foldl (fun best? u =>
      match best? with
      | none => some u
      | some b => if depth b < depth u then some u else some b) (some b) = some a := by
  induction us generalizing b with
  | nil => exact ⟨b, by simp⟩
  | cons u us ih =>
    rw [List.foldl_cons]
    -- The deepest so far may change, so that the induction is for every node to begin with.
    by_cases hlt : depth b < depth u
    · obtain ⟨a, ha, hall, heq⟩ := ih u
      refine ⟨a, .tail _ ha, fun w hw => ?_, by simpa only [hlt, if_true] using heq⟩
      rcases List.mem_cons.1 hw with rfl | hw
      · exact hlt.le.trans (hall u List.mem_cons_self)
      · exact hall w hw
    · obtain ⟨a, ha, hall, heq⟩ := ih b
      refine ⟨a, ?_, fun w hw => ?_, by simpa only [hlt, if_false] using heq⟩
      · rcases List.mem_cons.1 ha with rfl | ha
        · simp
        · simp [ha]
      · have hb := hall b List.mem_cons_self
        rcases List.mem_cons.1 hw with rfl | hw
        · exact hb
        rcases List.mem_cons.1 hw with rfl | hw
        · omega
        · exact hall w (.tail _ hw)

/-- The node that is found is a deepest strict dominator; none is found if there are none. -/
theorem Dominators.immediate?_cases (d : Dominators) (v : Nat) : (d.strict v = [] ∧ d.immediate? v = none) ∨
    ∃ u ∈ d.strict v, d.immediate? v = some u ∧ ∀ w ∈ d.strict v, d.depth w ≤ d.depth u := by
  rw [Dominators.immediate?]
  cases hs : d.strict v with
  | nil => exact .inl ⟨rfl, rfl⟩
  | cons b us =>
    obtain ⟨a, ha, hall, heq⟩ := foldl_deepest d.depth us b
    exact .inr ⟨a, ha, heq, hall⟩

theorem Dominators.nodup_strict (d : Dominators) (v : Nat) : (d.strict v).Nodup := by
  rw [Dominators.strict]
  cases d.sets[v]? with
  | none => exact .nil
  | some s => exact (s.pairwise_toList.imp Nat.ne_of_lt).filter _

/-- The depth of a node counts its strict dominators. -/
theorem depth_dominators (hg : g.Converse) (hentry : entry < g.size) {v : Nat} (hv : v < g.size) :
    (g.dominators entry).depth v = ((g.dominators entry).strict v).length := by
  have hlen : v < (g.dominators entry).sets.length := (solved_dominators hentry).length ▸ hv
  have hself : v ∈ (g.setOf (g.dominators entry).sets v).toList :=
    BitSet.mem_toList.2 ((contains_dominators_iff hg hentry hv hv).2 fun _ _ => List.mem_cons_self)
  have hnodup : (g.setOf (g.dominators entry).sets v).toList.Nodup :=
    (BitSet.pairwise_toList _).imp Nat.ne_of_lt
  rw [setOf_eq_getElem g hlen] at hself hnodup
  have herase := List.length_erase_of_mem hself
  rw [hnodup.erase_eq_filter] at herase
  rw [BitSet.length_toList] at herase
  rw [Dominators.depth, Dominators.strict, List.getElem?_eq_getElem hlen]
  refine herase.symm.trans (congrArg List.length (List.filter_congr fun u _ => ?_))
  by_cases hu : u = v <;> simp [hu]

end Digraph

namespace Cfg

theorem size_digraph (c : Cfg) : c.digraph.size = c.labels.length := (List.length_map _).symm

theorem exists_label {u v : Nat} (hv : c.labels[v]? = some l)
    (hu : u ∈ (c.digraph.dominators 0).strict v) : ∃ k, c.labels[u]? = some k := by
  have hlt : v < c.digraph.size := size_digraph c ▸ (List.getElem?_eq_some_iff.1 hv).1
  have hdom := Digraph.lt_of_dominates (by omega) hlt (mem_strict_dominators.1 hu).1
  rw [size_digraph] at hdom
  exact ⟨_, List.getElem?_eq_getElem hdom⟩

namespace Valid

/-- The depth of a node is that of its block. -/
theorem depth_node (h : c.Valid) {v : Nat} (hv : c.labels[v]? = some l) :
    (c.digraph.dominators 0).depth v = c.dominance.depth l := by
  have hlt : v < c.digraph.size := size_digraph c ▸ (List.getElem?_eq_some_iff.1 hv).1
  have hlabel : ∀ u ∈ (c.digraph.dominators 0).strict v, (c.labelAt? u).isSome = true := fun u hu =>
    Option.isSome_iff_exists.2 (exists_label hv hu)
  have hnodup : (((c.digraph.dominators 0).strict v).filterMap c.labelAt?).Nodup :=
    List.Nodup.filterMap (fun u w k hu hw => eq_of_labelAt? h.nodup hu hw) (Digraph.Dominators.nodup_strict _ v)
  rw [Digraph.depth_dominators (converse_digraph h.nodup) (by omega) hlt, Dominance.depth, strict_dominance h.nodup hv,
    ← List.filterMap_length_eq_length.2 hlabel]
  refine ((List.perm_ext_iff_of_nodup hnodup (nodup_ascending _)).2 fun k => ?_).length_eq
  exact (mem_ascending fun _ _ => Label.eq_of_not_lt).symm

/-- The closest node is that of the closest block. -/
theorem immediate?_node (h : c.Valid) (hl : c.Reachable l) {v : Nat} (hv : c.labels[v]? = some l) :
    ((c.digraph.dominators 0).immediate? v).map c.labelAt? = (c.dominance.immediate? l).map some := by
  have hstrict : ∀ {u k}, c.labels[u]? = some k →
      (u ∈ (c.digraph.dominators 0).strict v ↔ c.StrictlyDominates k l) := fun {u k} hu => by
    rw [mem_strict_dominators, ← h.mem_closestFirst_iff hl, mem_closestFirst, mem_strict_iff_nodes h.nodup]
    refine ⟨fun hdom => ⟨u, v, hu, hv, hdom⟩, ?_⟩
    rintro ⟨u', v', hu', hv', hdom⟩
    rwa [eq_of_labelAt? h.nodup hu hu', eq_of_labelAt? h.nodup hv hv']
  rcases Digraph.Dominators.immediate?_cases (c.digraph.dominators 0) v with ⟨hnil, hnone⟩ | ⟨u, hu, hsome, hdeepest⟩
  · have hentry : l = c.entry := by
      by_contra hne
      have hfirst : c.labels[0]? = some c.entry := List.head?_eq_getElem? ▸ h.first
      have := (hstrict hfirst).2 (strictlyDominates_entry hne)
      rw [hnil] at this
      cases this
    rw [hnone, (h.immediate?_eq_none_iff hl).2 hentry]
    rfl
  · obtain ⟨k, hk⟩ := exists_label hv hu
    have hkl := (hstrict hk).1 hu
    have himmediate : c.dominance.immediate? l = some k := by
      refine (h.immediate?_eq_some_iff hl).2 ⟨hkl, fun j hj hne => ?_⟩
      obtain ⟨w, hw⟩ := List.mem_iff_getElem?.1 (h.mem_labels (hl.of_dominated hj.2))
      have hle := hdeepest w ((hstrict hw).2 hj)
      rw [h.depth_node hw, h.depth_node hk] at hle
      -- Of two dominators one dominates the other, and the deeper one is the closer.
      refine (hj.comparable hkl hl hne).resolve_right fun hkj => ?_
      have := h.depth_lt (hl.of_dominated hj.2) hkj
      omega
    rw [hsome, himmediate]
    exact congrArg some hk

/-- The strict dominators of a reachable block form a chain from the closest one to the entry, which the queries
follow: the list has each of them once, every one behind what it dominates, depths count from the end, and the
closest block is the one that all others dominate, for labels and for nodes. -/
theorem dominators_form_chain (h : c.Valid) (hl : c.Reachable l) :
    (c.dominance.closestFirst l).Nodup ∧ (∀ k, k ∈ c.dominance.closestFirst l ↔ c.StrictlyDominates k l) ∧
    (c.dominance.closestFirst l).Pairwise (fun j k => c.StrictlyDominates k j) ∧
    (c.dominance.closestFirst l).getLast? = (if l = c.entry then none else some c.entry) ∧
    (c.dominance.closestFirst l).reverse.map c.dominance.depth = List.range (c.dominance.closestFirst l).length ∧
    c.dominance.depth l = (c.dominance.closestFirst l).length ∧
    (∀ k, c.dominance.immediate? l = some k ↔
      c.StrictlyDominates k l ∧ ∀ j, c.StrictlyDominates j l → j ≠ k → c.StrictlyDominates j k) ∧
    (c.dominance.immediate? l = none ↔ l = c.entry) ∧
    ∃ v, c.node? l = some v ∧
      ((c.digraph.dominators 0).immediate? v).map c.labelAt? = (c.dominance.immediate? l).map some := by
  obtain ⟨v, hv⟩ := List.mem_iff_getElem?.1 (h.mem_labels hl)
  rw [length_closestFirst]
  exact ⟨c.nodup_closestFirst l, fun _ => h.mem_closestFirst_iff hl, h.pairwise_closestFirst hl,
    h.getLast?_closestFirst hl, h.depths_closestFirst hl, rfl, fun _ => h.immediate?_eq_some_iff hl,
    h.immediate?_eq_none_iff hl, v, (node?_eq_some_iff h.nodup).2 hv, h.immediate?_node hl hv⟩

end Valid

/-- A loop around two ways that meet again, in front of the last block. -/
def funnel : Cfg where
  proc := "@main"
  entry := ⟨"start"⟩
  blocks := [
    ⟨⟨"start"⟩, [], [.jump ⟨"head"⟩]⟩,
    ⟨⟨"head"⟩, [], [.branch .jz (.imm 0) ⟨"left"⟩, .jump ⟨"right"⟩]⟩,
    ⟨⟨"left"⟩, [], [.jump ⟨"again"⟩]⟩,
    ⟨⟨"right"⟩, [], [.jump ⟨"again"⟩]⟩,
    ⟨⟨"again"⟩, [], [.branch .jnz (.imm 0) ⟨"head"⟩, .jump ⟨"end"⟩]⟩,
    ⟨⟨"end"⟩, [], [.ret none]⟩]

theorem dominators_form_chain_funnel : funnel.Valid ∧ funnel.Reachable ⟨"end"⟩ ∧
    funnel.dominance.closestFirst ⟨"end"⟩ = [⟨"again"⟩, ⟨"head"⟩, ⟨"start"⟩] ∧
    funnel.StrictlyDominates ⟨"head"⟩ ⟨"again"⟩ ∧ ¬ funnel.StrictlyDominates ⟨"left"⟩ ⟨"end"⟩ ∧
    [⟨"start"⟩, ⟨"head"⟩, ⟨"again"⟩].map funnel.dominance.depth = [0, 1, 2] ∧
    ((funnel.digraph.dominators 0).immediate? 5).map funnel.labelAt? = some (some ⟨"again"⟩) := by
  have hgraph : ofBlocks funnel.proc funnel.blocks = .ok funnel := rfl
  have hvalid : funnel.Valid := (ofBlocks_eq_ok.1 hgraph).2.2
  have hreach : funnel.Reachable ⟨"end"⟩ := by
    refine (((funnel.reachable_entry.step (k := funnel.entry) (l := ⟨"head"⟩) ?_).step (l := ⟨"left"⟩) ?_).step
      (l := ⟨"again"⟩) ?_).step ?_
    all_goals exact mem_edges.1 (by decide)
  obtain ⟨-, hmem, hpairwise, -, hdepths, -, -, -, v, hv, hnode⟩ := hvalid.dominators_form_chain hreach
  have hchain : funnel.dominance.closestFirst ⟨"end"⟩ = [⟨"again"⟩, ⟨"head"⟩, ⟨"start"⟩] := by
    rw [closestFirst_eq_strict (by decide +kernel)]
    decide +kernel
  obtain rfl : v = 5 := Option.some.inj (hv.symm.trans (by decide))
  rw [Dominance.immediate?, hchain] at hnode
  rw [hchain] at hmem hpairwise hdepths
  refine ⟨hvalid, hreach, hchain, ?_, fun h => absurd ((hmem _).2 h) (by decide), hdepths, hnode⟩
  exact (List.pairwise_cons.1 hpairwise).1 _ (by simp)

end Cfg

end ThreeAddress

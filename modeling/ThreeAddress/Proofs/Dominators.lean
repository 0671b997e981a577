import Mathlib.Tactic.ByContra
import ThreeAddress.Digraph.Dominators
import ThreeAddress.Proofs.BitSet
import ThreeAddress.Proofs.Descent
/-!
# Dominators lie on every path

The iteration starts from the full sets and only takes members away, so that it comes to a solution of
the equations of dominators (`solved_dominators`). Of any solution it holds that what is in the set
of a node lies on every path from the entry to that node (`Solved.mem_of_path`). The iteration itself never
takes such a node away (`Complete.update`), which makes the solution the largest one.
-/

namespace ThreeAddress

/-! ## Counting members -/

namespace BitSet

/-- A set that loses members counts fewer. -/
theorem count_lt {s t : BitSet} (hc : s.capacity = t.capacity)
    (h : ∀ i, s.contains i = true → t.contains i = true) (hne : s ≠ t) : s.count < t.count := by
  have hsub : s.toFinset ⊆ t.toFinset := fun i hi => mem_toFinset.2 (h i (mem_toFinset.1 hi))
  rw [count_eq_card, count_eq_card]
  exact Finset.card_lt_card (hsub.ssubset_of_ne fun e => hne ((toFinset_inj hc).1 e))

@[simp] theorem capacity_full (n : Nat) : (full n).capacity = n := rfl

theorem contains_foldl_inter (f : Nat → BitSet) (us : List Nat) (s : BitSet) (i : Nat) :
    (us.foldl (fun s u => s.inter (f u)) s).contains i = true ↔
      s.contains i = true ∧ ∀ u ∈ us, (f u).contains i = true := by
  induction us generalizing s with
  | nil => simp
  | cons u us ih => simp [ih, and_assoc]

theorem capacity_foldl_inter (f : Nat → BitSet) (us : List Nat) (s : BitSet) :
    (us.foldl (fun s u => s.inter (f u)) s).capacity = s.capacity := by
  induction us generalizing s with
  | nil => rfl
  | cons u us ih => exact ih _

end BitSet

namespace Digraph

/-- Nodes that lead from the entry to a node, the last one first. -/
inductive Path (g : Digraph) (entry : Nat) : List Nat → Nat → Prop
  | entry : Path g entry [] entry
  | step {us : List Nat} {u v : Nat} : Path g entry us u → v ∈ g.succ u → Path g entry (u :: us) v

variable {g : Digraph} {entry : Nat} {sets : List BitSet}

/-! ## The equations -/

theorem contains_meet {v i : Nat} : (g.meet sets v).contains i = true ↔
    i < g.size ∧ (i = v ∨ ∀ u ∈ g.pred v, (g.setOf sets u).contains i = true) := by
  simp only [meet, BitSet.contains_insert, Bool.or_eq_true, BitSet.contains_foldl_inter,
    BitSet.contains_full, BitSet.capacity_foldl_inter, BitSet.capacity_full, decide_eq_true_eq]
  constructor
  · rintro (⟨hi, hall⟩ | ⟨hv, rfl⟩)
    · exact ⟨hi, .inr hall⟩
    · exact ⟨hv, .inl rfl⟩
  · rintro ⟨hi, rfl | hall⟩
    · exact .inr ⟨hi, rfl⟩
    · exact .inl ⟨hi, hall⟩

@[simp] theorem capacity_meet (g : Digraph) (sets : List BitSet) (v : Nat) :
    (g.meet sets v).capacity = g.size := by
  simp [meet, BitSet.capacity_foldl_inter]

theorem setOf_set {v : Nat} (hv : v < sets.length) (s : BitSet) (u : Nat) :
    g.setOf (sets.set v s) u = if u = v then s else g.setOf sets u := by
  unfold setOf
  split
  · rename_i h
    simp [h, List.getElem?_set_self hv]
  · rw [List.getElem?_set_ne (Ne.symm ‹_›)]

/-- Sets on their way down: the entry has no other dominator, and no set has lost what its equation
gives it. -/
structure Descending (g : Digraph) (entry : Nat) (sets : List BitSet) : Prop where
  length : sets.length = g.size
  capacity : ∀ s ∈ sets, s.capacity = g.size
  eq_entry {i : Nat} : (g.setOf sets entry).contains i = true → i = entry
  meet {v i : Nat} : v ≠ entry → v < g.size → (g.meet sets v).contains i = true →
    (g.setOf sets v).contains i = true

/-- Sets that solve the equations. -/
structure Solved (g : Digraph) (entry : Nat) (sets : List BitSet) : Prop
    extends g.Descending entry sets where
  setOf_eq {v : Nat} : v ≠ entry → v < g.size → g.setOf sets v = g.meet sets v

/-- What is in the set of a node lies on every path to the node. -/
theorem Solved.mem_of_path (h : g.Solved entry sets) (hg : g.Converse) {us : List Nat} {v a : Nat}
    (hp : g.Path entry us v) (ha : (g.setOf sets v).contains a = true) : a ∈ v :: us := by
  induction hp with
  | entry => simp [h.eq_entry ha]
  | @step us u v _ hv ih =>
    by_cases hve : v = entry
    · subst hve
      simp [h.eq_entry ha]
    · rw [h.setOf_eq hve (hg.lt_size u v hv).2, contains_meet] at ha
      rcases ha.2 with rfl | hall
      · exact List.mem_cons_self
      · exact .tail _ (ih (hall u ((hg.mem_iff u v).1 hv)))

/-! ## The iteration -/

/-- The members of all sets, counted. -/
def weight (sets : List BitSet) : Nat := (sets.map BitSet.count).sum

theorem setOf_eq_getElem (g : Digraph) {v : Nat} (hv : v < sets.length) : g.setOf sets v = sets[v] := by
  simp [setOf, hv]

theorem weight_set_lt {v : Nat} (hv : v < sets.length) {s : BitSet} (h : s.count < sets[v].count) :
    weight (sets.set v s) < weight sets := by
  have hsplit : sets = sets.take v ++ sets[v] :: sets.drop (v + 1) := by
    rw [← List.drop_eq_getElem_cons, List.take_append_drop]
  conv => rhs; rw [hsplit]
  rw [List.set_eq_take_append_cons_drop, if_pos hv]
  simp only [weight, List.map_append, List.map_cons, List.sum_append, List.sum_cons]
  omega

/-- Giving a node the right side of its equation takes members away or does nothing. -/
theorem Descending.update (h : g.Descending entry sets) (v : Nat) :
    g.Descending entry (if v = entry then sets else sets.set v (g.meet sets v)) ∧
      Descends weight sets (if v = entry then sets else sets.set v (g.meet sets v)) := by
  by_cases hve : v = entry
  · rw [if_pos hve]
    exact ⟨h, .refl _⟩
  rw [if_neg hve]
  by_cases hv : v < g.size
  · have hlen : v < sets.length := h.length ▸ hv
    -- The new set is part of the old one, so that no right side of an equation grows.
    have hlower : ∀ u i, (g.setOf (sets.set v (g.meet sets v)) u).contains i = true →
        (g.setOf sets u).contains i = true := by
      intro u i hi
      rw [setOf_set hlen] at hi
      split at hi
      · rename_i huv
        exact huv ▸ h.meet hve hv hi
      · exact hi
    have hmono : ∀ u i, (g.meet (sets.set v (g.meet sets v)) u).contains i = true →
        (g.meet sets u).contains i = true := by
      intro u i hi
      rw [contains_meet] at hi ⊢
      exact ⟨hi.1, hi.2.imp_right fun hall w hw => hlower w i (hall w hw)⟩
    refine ⟨⟨by simp [h.length], ?_, fun hi => h.eq_entry (hlower _ _ hi), ?_⟩, ?_⟩
    · intro s hs
      rcases List.mem_or_eq_of_mem_set hs with hs | rfl
      · exact h.capacity s hs
      · exact capacity_meet g sets v
    · intro u i hue hu hi
      rw [setOf_set hlen]
      split
      · rename_i huv
        exact hmono v i (huv ▸ hi)
      · exact h.meet hue hu (hmono u i hi)
    · by_cases heq : g.meet sets v = sets[v]
      · exact .inl (by rw [heq, List.set_getElem_self])
      · refine .inr (weight_set_lt hlen (BitSet.count_lt ?_ ?_ heq))
        · rw [capacity_meet, h.capacity _ (List.getElem_mem hlen)]
        · intro i hi
          exact setOf_eq_getElem g hlen ▸ h.meet hve hv hi
  · rw [List.set_eq_of_length_le (by have := h.length; omega)]
    exact ⟨h, .refl _⟩

theorem mem_visitOrder {v : Nat} (hv : v < g.size) : v ∈ g.visitOrder entry := by
  simp only [visitOrder, List.mem_append, List.mem_filter, List.mem_range, Bool.not_eq_true']
  by_cases h : v ∈ g.reversePostorder entry
  · exact .inl h
  · exact .inr ⟨hv, by simpa using h⟩

theorem Descending.meetAll (h : g.Descending entry sets) (order : List Nat) :
    g.Descending entry (g.meetAll entry order sets) ∧
      Descends weight sets (g.meetAll entry order sets) ∧
      (g.meetAll entry order sets = sets → ∀ v ∈ order, v ≠ entry → v < g.size →
        g.setOf sets v = g.meet sets v) := by
  have hupdate : ∀ v ∈ order, ∀ sets, g.Descending entry sets →
      g.Descending entry (if v = entry then sets else sets.set v (g.meet sets v)) ∧
        Descends weight sets (if v = entry then sets else sets.set v (g.meet sets v)) :=
    fun v _ _ hs => hs.update v
  obtain ⟨hp, hd, hsame⟩ := Descends.foldl hupdate h
  refine ⟨hp, hd, fun he v hv hve hlt => ?_⟩
  have hlen : v < sets.length := h.length ▸ hlt
  have hset := hsame he v hv
  rw [if_neg hve] at hset
  have := congrArg (g.setOf · v) hset
  simpa [setOf_set hlen] using this.symm

/-- The full sets, but for the entry. -/
def startSets (g : Digraph) (entry : Nat) : List BitSet :=
  (List.replicate g.size (BitSet.full g.size)).set entry (.ofList g.size [entry])

theorem descending_start (hentry : entry < g.size) : g.Descending entry (g.startSets entry) := by
  unfold startSets
  have hlen : entry < (List.replicate g.size (BitSet.full g.size)).length := by simpa using hentry
  refine ⟨by simp, ?_, ?_, ?_⟩
  · intro s hs
    rcases List.mem_or_eq_of_mem_set hs with hs | rfl
    · rw [List.eq_of_mem_replicate hs]
      rfl
    · simp [BitSet.ofList, BitSet.empty]
  · intro i hi
    rw [setOf_set hlen, if_pos rfl] at hi
    simp [BitSet.ofList] at hi
    exact hi.2.symm
  · intro v i hve hv hi
    rw [setOf_set hlen, if_neg hve]
    simpa [setOf, hv] using (contains_meet.1 hi).1

/-- A round keeps the sets on their way down. -/
theorem descends_round (h : g.Descending entry sets) :
    g.Descending entry (g.meetAll entry (g.visitOrder entry) sets) ∧
      Descends weight sets (g.meetAll entry (g.visitOrder entry) sets) :=
  have hround := h.meetAll (g.visitOrder entry)
  ⟨hround.1, hround.2.1⟩

theorem Descending.weight_le (h : g.Descending entry sets) : weight sets ≤ g.size * g.size + 1 := by
  have : (sets.map BitSet.count).sum ≤ sets.length * g.size :=
    sum_map_le fun s hs => h.capacity s hs ▸ s.count_le
  rw [h.length] at this
  unfold weight
  omega

/-- The iteration comes to an end by itself. -/
theorem settles_dominators (hentry : entry < g.size) :
    Settles (g.meetAll entry (g.visitOrder entry)) (g.startSets entry) (g.dominators entry).sets :=
  have hstart := descending_start hentry
  settles_untilStable (fun _ => descends_round) hstart hstart.weight_le

/-- The sets of dominators solve the equations. -/
theorem solved_dominators (hentry : entry < g.size) :
    g.Solved entry (g.dominators entry).sets := by
  have hstart := descending_start hentry
  have hend : g.Descending entry (g.dominators entry).sets :=
    untilStable_induction (P := g.Descending entry) (fun _ h => (descends_round h).1) _ hstart
  have hfixed : g.meetAll entry (g.visitOrder entry) (g.dominators entry).sets = (g.dominators entry).sets :=
    untilStable_of_descends (fun _ => descends_round) hstart hstart.weight_le
  exact ⟨hend, fun hve hv => (hend.meetAll _).2.2 hfixed _ (mem_visitOrder hv) hve hv⟩

/-! ## What the sets have not lost -/

/-- The sets have the nodes that every path to their own nodes passes. -/
def Complete (g : Digraph) (entry : Nat) (sets : List BitSet) : Prop :=
  ∀ a v, a < g.size → v < g.size → (∀ us, g.Path entry us v → a ∈ v :: us) → (g.setOf sets v).contains a = true

theorem complete_start (hentry : entry < g.size) : g.Complete entry (g.startSets entry) := by
  intro a v ha hv hall
  have hlen : entry < (List.replicate g.size (BitSet.full g.size)).length := by simpa using hentry
  rw [startSets, setOf_set hlen]
  split
  · rename_i hve
    subst hve
    obtain rfl : a = v := by simpa using hall [] .entry
    simp [BitSet.ofList, show (BitSet.empty g.size).capacity = g.size from rfl, ha]
  · simpa [setOf, hv] using ha

/-- A path to a predecessor is one to the node itself, so that the right side of an equation has what it should. -/
theorem Complete.update (h : g.Complete entry sets) (hg : g.Converse) (v : Nat) :
    g.Complete entry (if v = entry then sets else sets.set v (g.meet sets v)) := by
  split
  · exact h
  by_cases hlen : v < sets.length
  · intro a u ha hu hall
    rw [setOf_set hlen]
    split
    · rename_i huv
      subst huv
      refine contains_meet.2 ⟨ha, or_iff_not_imp_left.2 fun hne w hw => ?_⟩
      have hedge : u ∈ g.succ w := (hg.mem_iff w u).2 hw
      refine h a w ha (hg.lt_size w u hedge).1 fun us hpath => ?_
      exact (List.mem_cons.1 (hall (w :: us) (.step hpath hedge))).resolve_left hne
    · exact h a u ha hu hall
  · rwa [List.set_eq_of_length_le (by omega)]

theorem complete_dominators (hg : g.Converse) (hentry : entry < g.size) :
    g.Complete entry (g.dominators entry).sets := by
  refine untilStable_induction (P := g.Complete entry) (fun sets h => ?_) _ (complete_start hentry)
  exact List.foldlRecOn (g.visitOrder entry) _ h fun _ hs v _ => hs.update hg v

/-- The set of a node has the nodes that every path to it passes, and no others. -/
theorem contains_dominators_iff (hg : g.Converse) (hentry : entry < g.size) {a v : Nat} (ha : a < g.size)
    (hv : v < g.size) : (g.setOf (g.dominators entry).sets v).contains a = true ↔
      ∀ us, g.Path entry us v → a ∈ v :: us :=
  ⟨fun hc _ hp => (solved_dominators hentry).mem_of_path hg hp hc, complete_dominators hg hentry a v ha hv⟩

theorem dominates_eq_contains (hentry : entry < g.size) (a : Nat) {v : Nat} (hv : v < g.size) :
    (g.dominators entry).dominates a v = (g.setOf (g.dominators entry).sets v).contains a := by
  have hlen : v < (g.dominators entry).sets.length := (solved_dominators hentry).length ▸ hv
  rw [Dominators.dominates, setOf, List.getElem?_eq_getElem hlen]
  rfl

theorem capacity_setOf (hentry : entry < g.size) {v : Nat} (hv : v < g.size) :
    (g.setOf (g.dominators entry).sets v).capacity = g.size := by
  have hlen : v < (g.dominators entry).sets.length := (solved_dominators hentry).length ▸ hv
  rw [setOf_eq_getElem g hlen]
  exact (solved_dominators hentry).capacity _ (List.getElem_mem hlen)

theorem lt_of_dominates (hentry : entry < g.size) {a v : Nat} (hv : v < g.size)
    (h : (g.dominators entry).dominates a v = true) : a < g.size := by
  rw [dominates_eq_contains hentry a hv] at h
  exact (BitSet.lt_capacity h).trans_eq (capacity_setOf hentry hv)

/-- What no path leads to keeps the full set. -/
theorem setOf_dominators_of_unreachable (hg : g.Converse) (hentry : entry < g.size) {v : Nat} (hv : v < g.size)
    (hpath : ∀ us, ¬ g.Path entry us v) : g.setOf (g.dominators entry).sets v = .full g.size := by
  have hcapacity := capacity_setOf hentry hv
  refine BitSet.ext_contains hcapacity fun a => ?_
  rw [BitSet.contains_full]
  by_cases ha : a < g.size
  · simpa [ha] using (contains_dominators_iff hg hentry ha hv).2 fun us hp => absurd hp (hpath us)
  · simpa [ha] using BitSet.contains_of_le (hcapacity ▸ Nat.le_of_not_lt ha)

end Digraph

end ThreeAddress

import Mathlib.Algebra.BigOperators.Group.Finset.Basic
import Mathlib.Logic.Relation
import ThreeAddress.Digraph.Traversal
import ThreeAddress.Proofs.BitSet
import ThreeAddress.Proofs.Descent
/-!
# Traversals are exact

The nodes that depth-first search has entered and not left are the ancestors of what it finds: everything above
the place where a node is to be left has been found from that node (`Searching.nested`). So when a node is left,
an edge leads from it to a node that has been left before, or to one of its ancestors, from which it can itself be
reached: this is why a postorder puts the ends of all edges first but those that close a cycle. What a node leads to
has been entered or waits above the place where the node is left (`Searching.covered`), so that nothing is missed.
-/

namespace ThreeAddress.Digraph

variable {g : Digraph} {start : Nat}

/-- Edges lead from a node to another. -/
abbrev Reaches (g : Digraph) : Nat → Nat → Prop :=
  Relation.ReflTransGen fun u v => v ∈ g.succ u

theorem Converse.lt_of_reaches (hg : g.Converse) {v : Nat} (hstart : start < g.size) (h : g.Reaches start v) :
    v < g.size := by
  cases h with
  | refl => exact hstart
  | tail _ hedge => exact (hg.lt_size _ v hedge).2

theorem Converse.reaches_reverse (hg : g.Converse) {u v : Nat} : g.reverse.Reaches u v ↔ g.Reaches v u := by
  have hedges : (fun u v => v ∈ g.reverse.succ u) = Function.swap fun u v => v ∈ g.succ u := by
    funext u v
    exact propext (hg.mem_iff v u).symm
  rw [Reaches, hedges, Relation.reflTransGen_swap]

/-! ## The steps of a search -/

namespace Task

def node : Task → Nat
  | enter u | leave u => u

/-- The node to be left. -/
def left? : Task → Option Nat
  | enter _ => none
  | leave u => some u

theorem left?_eq_some {t : Task} {u : Nat} : t.left? = some u ↔ t = leave u := by
  cases t <;> simp [left?]

end Task

namespace Search

/-- The nodes that have been entered and not left, the last one first. -/
def ancestors (s : Search) : List Nat := s.tasks.filterMap Task.left?

theorem mem_ancestors {s : Search} {u : Nat} : u ∈ s.ancestors ↔ .leave u ∈ s.tasks := by
  simp [ancestors, Task.left?_eq_some]

/-- What a search does next. -/
inductive Step (g : Digraph) : Search → Search → Prop
  | leave {seen order : List Nat} {tasks : List Task} {u : Nat} :
      Step g ⟨seen, order, .leave u :: tasks⟩ ⟨seen, order ++ [u], tasks⟩
  | pass {seen order : List Nat} {tasks : List Task} {u : Nat} : u ∈ seen →
      Step g ⟨seen, order, .enter u :: tasks⟩ ⟨seen, order, tasks⟩
  | enter {seen order found : List Nat} {tasks : List Task} {u : Nat} : u ∉ seen → found.Sublist (g.succ u) →
      (∀ v ∈ g.succ u, v ∈ u :: seen ∨ v ∈ found) →
      Step g ⟨seen, order, .enter u :: tasks⟩ ⟨u :: seen, order, found.map .enter ++ .leave u :: tasks⟩

theorem step_of_next? {s s' : Search} (h : s.next? g = some s') : Step g s s' := by
  obtain ⟨seen, order, tasks⟩ := s
  unfold next? at h
  split at h
  · cases h
  · rename_i u tasks htasks
    cases htasks
    cases h
    exact .leave
  · rename_i u tasks htasks
    cases htasks
    split at h
    · rename_i hu
      cases h
      exact .pass (List.contains_iff_mem.1 hu)
    · rename_i hu
      cases h
      refine .enter (fun hmem => hu (List.contains_iff_mem.2 hmem)) List.filter_sublist fun v hv => ?_
      by_cases hseen : v ∈ u :: seen
      · exact .inl hseen
      · refine .inr (List.mem_filter.2 ⟨hv, ?_⟩)
        simpa using hseen

theorem next?_eq_none {s : Search} (h : s.next? g = none) : s.tasks = [] := by
  unfold next? at h
  split at h
  · assumption
  · cases h
  · split at h <;> cases h

end Search

/-! ## What a search keeps -/

/-- A search from `start` that is under way. -/
structure Searching (g : Digraph) (start : Nat) (s : Search) : Prop where
  /-- What has been entered has been left, or it is still to be left, each node once. -/
  perm : (s.order ++ s.ancestors).Perm s.seen
  nodup : s.seen.Nodup
  reached : ∀ u ∈ s.seen, g.Reaches start u
  found : ∀ t ∈ s.tasks, g.Reaches start t.node
  /-- What is to be done before a node is left has been found from that node. -/
  nested : s.tasks.Pairwise fun t t' => ∀ u, t' = .leave u → g.Reaches u t.node
  /-- The successors of a node have been entered, or this is to be done before the node is left. -/
  covered : ∀ u ∈ s.seen, ∀ v ∈ g.succ u, v ∈ s.seen ∨ [.enter v, .leave u].Sublist s.tasks
  /-- But for edges that close a cycle, a node has been left after its successors. -/
  ordered : ∀ u ∈ s.order, ∀ v ∈ g.succ u, ¬ g.Reaches v u → [v, u].Sublist s.order
  /-- The node that the search began at is left in the end. -/
  last : s = .start start ∨ s.tasks.getLast? = some (.leave start) ∨ s.tasks = [] ∧ s.order.getLast? = some start

namespace Searching

variable {s s' : Search}

theorem begin (g : Digraph) (start : Nat) : g.Searching start (.start start) where
  perm := .nil
  nodup := .nil
  reached := nofun
  found := by simp [Search.start, Task.node, Relation.ReflTransGen.refl]
  nested := List.pairwise_singleton ..
  covered := nofun
  ordered := nofun
  last := .inl rfl

/-- When a node is to be left, all its successors have been entered. -/
theorem mem_seen_of_leave {seen order : List Nat} {tasks : List Task} {u v : Nat}
    (h : g.Searching start ⟨seen, order, .leave u :: tasks⟩) (hv : v ∈ g.succ u) : v ∈ seen := by
  have hnodup : (order ++ u :: Search.ancestors ⟨seen, order, tasks⟩).Nodup := h.perm.nodup_iff.2 h.nodup
  have hu : u ∈ seen := h.perm.mem_iff.1 (List.mem_append_right _ List.mem_cons_self)
  refine (h.covered u hu v hv).resolve_right fun hsub => ?_
  -- The place where the node is left would be there twice.
  cases hsub with
  | cons _ hsub =>
    have hmem : u ∈ Search.ancestors ⟨seen, order, tasks⟩ := Search.mem_ancestors.2 (hsub.subset (by simp))
    exact (List.nodup_cons.1 (List.nodup_append.1 hnodup).2.1).1 hmem

section

variable {seen order found : List Nat} {tasks : List Task} {u : Nat}

theorem leave (h : g.Searching start ⟨seen, order, .leave u :: tasks⟩) :
    g.Searching start ⟨seen, order ++ [u], tasks⟩ := by
  refine ⟨?_, h.nodup, h.reached, fun t ht => h.found t (.tail _ ht), (List.pairwise_cons.1 h.nested).2,
    fun w hw v hv => ?_, fun w hw v hv hback => ?_, ?_⟩
  · have hperm := h.perm
    simpa [Search.ancestors, Task.left?] using hperm
  · refine (h.covered w hw v hv).imp_right fun hsub => ?_
    cases hsub with
    | cons _ hsub => exact hsub
  · rcases List.mem_append.1 hw with hw | hw
    · exact (h.ordered w hw v hv hback).trans (List.sublist_append_left ..)
    · -- The end of an edge from the node that is left has been left, or it is an ancestor.
      obtain rfl := List.mem_singleton.1 hw
      have hseen : v ∈ order ++ Search.ancestors ⟨seen, order, .leave w :: tasks⟩ :=
        h.perm.mem_iff.2 (h.mem_seen_of_leave hv)
      rcases List.mem_append.1 hseen with hv | hv
      · exact (List.singleton_sublist.2 hv).append (.refl [w])
      · rcases List.mem_cons.1 (Search.mem_ancestors.1 hv) with he | hv
        · cases he
          exact absurd .refl hback
        · exact absurd ((List.pairwise_cons.1 h.nested).1 _ hv v rfl) hback
  · rcases h.last with hs | hs | hs
    · cases hs
    · cases tasks with
      | nil =>
        obtain rfl : u = start := by simpa using hs
        exact .inr (.inr ⟨rfl, List.getLast?_concat⟩)
      | cons t tasks => exact .inr (.inl (List.getLast?_cons_cons ▸ hs))
    · cases hs.1

theorem pass (h : g.Searching start ⟨seen, order, .enter u :: tasks⟩) (hu : u ∈ seen) :
    g.Searching start ⟨seen, order, tasks⟩ := by
  refine ⟨h.perm, h.nodup, h.reached, fun t ht => h.found t (.tail _ ht), (List.pairwise_cons.1 h.nested).2,
    fun w hw v hv => ?_, h.ordered, ?_⟩
  · rcases h.covered w hw v hv with hv | hsub
    · exact .inl hv
    · cases hsub with
      | cons _ hsub => exact .inr hsub
      | cons_cons _ hsub => exact .inl hu
  · rcases h.last with hs | hs | hs
    · cases hs
      cases hu
    · cases tasks with
      | nil => simp at hs
      | cons t tasks => exact .inr (.inl (List.getLast?_cons_cons ▸ hs))
    · cases hs.1

theorem enter (h : g.Searching start ⟨seen, order, .enter u :: tasks⟩) (hu : u ∉ seen)
    (hfound : found.Sublist (g.succ u)) (hall : ∀ v ∈ g.succ u, v ∈ u :: seen ∨ v ∈ found) :
    g.Searching start ⟨u :: seen, order, found.map .enter ++ .leave u :: tasks⟩ := by
  have hreach : g.Reaches start u := h.found _ List.mem_cons_self
  have hedge : ∀ v ∈ found, v ∈ g.succ u := fun v hv => hfound.subset hv
  obtain ⟨habove, hnested⟩ := List.pairwise_cons.1 h.nested
  refine ⟨?_, List.nodup_cons.2 ⟨hu, h.nodup⟩, fun v hv => ?_, fun t ht => ?_, ?_, fun w hw v hv => ?_, h.ordered, ?_⟩
  · have hancestors : Search.ancestors ⟨u :: seen, order, found.map .enter ++ .leave u :: tasks⟩ =
        u :: Search.ancestors ⟨seen, order, tasks⟩ := by
      simp [Search.ancestors, Function.comp_def, Task.left?]
    rw [hancestors]
    exact List.perm_middle.trans (h.perm.cons u)
  · rcases List.mem_cons.1 hv with rfl | hv
    · exact hreach
    · exact h.reached v hv
  · rcases List.mem_append.1 ht with ht | ht
    · obtain ⟨v, hv, rfl⟩ := List.mem_map.1 ht
      exact hreach.tail (hedge v hv)
    · rcases List.mem_cons.1 ht with rfl | ht
      · exact hreach
      · exact h.found t (.tail _ ht)
  · refine List.pairwise_append.2 ⟨?_, List.pairwise_cons.2 ⟨habove, hnested⟩, fun t ht t' ht' w hw => ?_⟩
    · exact List.pairwise_map.2 (List.pairwise_of_forall nofun)
    · -- What has been found from an ancestor's descendant has been found from the ancestor.
      obtain ⟨v, hv, rfl⟩ := List.mem_map.1 ht
      rcases List.mem_cons.1 ht' with rfl | ht'
      · cases hw
        exact .single (hedge v hv)
      · exact (habove t' ht' w hw).tail (hedge v hv)
  · rcases List.mem_cons.1 hw with rfl | hw
    · refine (hall v hv).imp_right fun hv => ?_
      exact (List.singleton_sublist.2 (List.mem_map_of_mem hv)).append (List.singleton_sublist.2 List.mem_cons_self)
    · rcases h.covered w hw v hv with hv | hsub
      · exact .inl (.tail _ hv)
      · cases hsub with
        | cons _ hsub => exact .inr (hsub.trans ((List.sublist_cons_self ..).trans (List.sublist_append_right ..)))
        | cons_cons _ hsub => exact .inl List.mem_cons_self
  · refine .inr (.inl ?_)
    rcases h.last with hs | hs | hs
    · cases hs
      exact List.getLast?_concat
    · cases tasks with
      | nil => simp at hs
      | cons t tasks => simpa [List.getLast?_append] using hs
    · cases hs.1

end

theorem step (h : g.Searching start s) (hstep : Search.Step g s s') : g.Searching start s' := by
  cases hstep with
  | leave => exact h.leave
  | pass hu => exact h.pass hu
  | enter hu hfound hall => exact h.enter hu hfound hall

end Searching

/-! ## The end of a search -/

/-- The number of tasks that a search can still have. -/
def remaining (g : Digraph) (s : Search) : Nat :=
  ∑ u ∈ Finset.range g.size with u ∉ s.seen, ((g.succ u).length + 1) + s.tasks.length

theorem remaining_start (g : Digraph) (start : Nat) : g.remaining (.start start) = g.taskBound := by
  have hsum : ∑ u ∈ Finset.range g.size, ((g.succ u).length + 1) =
      ((List.range g.size).map fun u => (g.succ u).length + 1).sum := rfl
  rw [List.sum_eq_foldr, List.foldr_map] at hsum
  simp [remaining, taskBound, Search.start, ← hsum]

/-- A node that is entered will not be entered again, and brings no more tasks than it has counted for. -/
theorem Searching.remaining_lt (hg : g.Converse) (hstart : start < g.size) {s s' : Search} (h : g.Searching start s)
    (hstep : Search.Step g s s') : g.remaining s' < g.remaining s := by
  cases hstep with
  | leave => simp [remaining]
  | pass => simp [remaining]
  | @enter seen order found tasks u hu hfound hall =>
    have hsize : u < g.size := hg.lt_of_reaches hstart (h.found _ List.mem_cons_self)
    have herase : {v ∈ Finset.range g.size | v ∉ u :: seen} = {v ∈ Finset.range g.size | v ∉ seen}.erase u := by
      ext v
      simp only [Finset.mem_filter, Finset.mem_erase, List.mem_cons, not_or]
      tauto
    have hmem : u ∈ {v ∈ Finset.range g.size | v ∉ seen} := by simp [hsize, hu]
    have hsum := Finset.add_sum_erase _ (fun v => (g.succ v).length + 1) hmem
    have hlength := hfound.length_le
    simp only [remaining, herase, List.length_append, List.length_map, List.length_cons]
    omega

section

variable (hg : g.Converse) (hstart : start < g.size)
include hg hstart

/-- The search comes to an end by itself. -/
theorem exhausts_search : Exhausts (Search.next? g) (.start start) (g.search start) := by
  refine exhausts_exhaust (P := g.Searching start) (μ := g.remaining) (fun s s' h hs => ?_) (.begin g start)
    (g.remaining_start start).le
  have hstep := Search.step_of_next? hs
  exact ⟨h.step hstep, h.remaining_lt hg hstart hstep⟩

/-- In the end nothing is left to do. -/
theorem searching_search : g.Searching start (g.search start) ∧ (g.search start).tasks = [] :=
  have hend := (exhausts_search hg hstart).induction (P := g.Searching start)
    (fun _ _ h hs => h.step (Search.step_of_next? hs)) (.begin g start)
  ⟨hend.1, Search.next?_eq_none hend.2⟩

theorem perm_postorder : (g.postorder start).Perm (g.search start).seen := by
  obtain ⟨h, htasks⟩ := searching_search hg hstart
  have hperm := h.perm
  rw [Search.ancestors, htasks, List.filterMap_nil, List.append_nil] at hperm
  rwa [postorder, if_pos hstart]

theorem getLast?_postorder : (g.postorder start).getLast? = some start := by
  obtain ⟨h, htasks⟩ := searching_search hg hstart
  rw [postorder, if_pos hstart]
  rcases h.last with hs | hs | hs
  · rw [hs] at htasks
    cases htasks
  · rw [htasks] at hs
    cases hs
  · exact hs.2

end

/-- The nodes of a postorder are those that can be reached. -/
theorem Converse.mem_postorder (hg : g.Converse) {v : Nat} (hstart : start < g.size) :
    v ∈ g.postorder start ↔ g.Reaches start v := by
  obtain ⟨h, htasks⟩ := searching_search hg hstart
  have hperm := perm_postorder hg hstart
  refine ⟨fun hv => h.reached v (hperm.mem_iff.1 hv), fun hv => ?_⟩
  induction hv with
  | refl => exact List.mem_of_getLast? (getLast?_postorder hg hstart)
  | @tail u v _ hedge ih =>
    refine hperm.mem_iff.2 ((h.covered u (hperm.mem_iff.1 ih) v hedge).resolve_right fun hsub => ?_)
    rw [htasks] at hsub
    cases hsub

/-! ## Reachability -/

namespace Flood

/-- Going through a row adds the nodes that are not there yet, each once. -/
structure Grows (vs : List Nat) (f f' : Flood) : Prop where
  capacity : f'.seen.capacity = f.seen.capacity
  contains : ∀ v, f'.seen.contains v = true ↔ f.seen.contains v = true ∨ v ∈ vs
  work : ∀ v, v ∈ f'.work ↔ v ∈ f.work ∨ v ∈ vs ∧ f.seen.contains v = false
  count : f'.work.length + f.seen.count = f.work.length + f'.seen.count

theorem grows_foldl {vs : List Nat} {f : Flood} (h : ∀ v ∈ vs, v < f.seen.capacity) : Grows vs f (vs.foldl add f) := by
  induction vs generalizing f with
  | nil => exact ⟨rfl, by simp, by simp, rfl⟩
  | cons v vs ih =>
    have hv : v < f.seen.capacity := h v List.mem_cons_self
    rw [List.foldl_cons, add]
    split
    · rename_i hseen
      have hrest := ih fun w hw => h w (.tail _ hw)
      refine ⟨hrest.capacity, fun w => ?_, fun w => ?_, hrest.count⟩
      · rw [hrest.contains, List.mem_cons]
        grind
      · rw [hrest.work, List.mem_cons]
        grind
    · rename_i hseen
      have hrest := ih (f := ⟨f.seen.insert v, v :: f.work⟩) fun w hw => by
        rw [BitSet.capacity_insert]
        exact h w (.tail _ hw)
      have hinsert : ∀ w, (f.seen.insert v).contains w = true ↔ f.seen.contains w = true ∨ v = w := fun w => by
        simp [hv]
      refine ⟨hrest.capacity.trans (BitSet.capacity_insert ..), fun w => ?_, fun w => ?_, ?_⟩
      · rw [hrest.contains, hinsert, List.mem_cons]
        grind
      · rw [hrest.work, List.mem_cons, List.mem_cons, ← Bool.not_eq_true, hinsert, ← Bool.not_eq_true]
        grind
      · have hcount := hrest.count
        rw [BitSet.count_insert hv (Bool.not_eq_true _ ▸ hseen), List.length_cons] at hcount
        omega

end Flood

/-- A search without an order that is under way. -/
structure Flooding (g : Digraph) (start : Nat) (f : Flood) : Prop where
  capacity : f.seen.capacity = g.size
  begun : f.seen.contains start = true
  reached : ∀ v, f.seen.contains v = true → g.Reaches start v
  found : ∀ v ∈ f.work, f.seen.contains v = true
  /-- The row of a node has been gone through, or this is still to be done. -/
  covered : ∀ u, f.seen.contains u = true → u ∈ f.work ∨ ∀ v ∈ g.succ u, f.seen.contains v = true

/-- The number of rows that may still be gone through. -/
def rowsLeft (g : Digraph) (f : Flood) : Nat := f.work.length + (g.size - f.seen.count)

theorem Flooding.step (hg : g.Converse) {f f' : Flood} (h : g.Flooding start f) (hs : f.next? g = some f') :
    g.Flooding start f' ∧ g.rowsLeft f' < g.rowsLeft f := by
  obtain ⟨seen, work⟩ := f
  cases work with
  | nil => cases hs
  | cons u work =>
    cases hs
    have hu : seen.contains u = true := h.found u List.mem_cons_self
    have hsize : ∀ v ∈ g.succ u, v < seen.capacity := fun v hv => h.capacity ▸ (hg.lt_size u v hv).2
    have hgrows : Flood.Grows (g.succ u) ⟨seen, work⟩ ((g.succ u).foldl Flood.add ⟨seen, work⟩) :=
      Flood.grows_foldl hsize
    generalize (g.succ u).foldl Flood.add ⟨seen, work⟩ = f' at hgrows ⊢
    have hcapacity : f'.seen.capacity = g.size := hgrows.capacity.trans h.capacity
    refine ⟨⟨hcapacity, (hgrows.contains _).2 (.inl h.begun), fun v hv => ?_, fun v hv => ?_, fun v hv => ?_⟩, ?_⟩
    · rcases (hgrows.contains v).1 hv with hv | hv
      · exact h.reached v hv
      · exact (h.reached u hu).tail hv
    · rcases (hgrows.work v).1 hv with hv | hv
      · exact (hgrows.contains v).2 (.inl (h.found v (.tail _ hv)))
      · exact (hgrows.contains v).2 (.inr hv.1)
    · -- For a node seen before nothing changes, but that the row of `u` has now been looked through.
      by_cases hold : seen.contains v = true
      · rcases h.covered v hold with hwork | hrow
        · rcases List.mem_cons.1 hwork with rfl | hwork
          · exact .inr fun w hw => (hgrows.contains w).2 (.inr hw)
          · exact .inl ((hgrows.work v).2 (.inl hwork))
        · exact .inr fun w hw => (hgrows.contains w).2 (.inl (hrow w hw))
      · have hrow := ((hgrows.contains v).1 hv).resolve_left hold
        exact .inl ((hgrows.work v).2 (.inr ⟨hrow, Bool.not_eq_true _ ▸ hold⟩))
    · have hcount := hgrows.count
      have hle := f'.seen.count_le
      have hle' := seen.count_le
      have hsame := h.capacity
      simp only [rowsLeft, List.length_cons] at hcount hsame ⊢
      omega

theorem Flooding.begin (hstart : start < g.size) :
    g.Flooding start (.add ⟨.empty g.size, []⟩ start) ∧ g.rowsLeft (.add ⟨.empty g.size, []⟩ start) ≤ g.size := by
  have hadd : Flood.add ⟨.empty g.size, []⟩ start = ⟨(BitSet.empty g.size).insert start, [start]⟩ := by
    simp [Flood.add]
  have hmem : ∀ v, ((BitSet.empty g.size).insert start).contains v = true ↔ start = v := fun v => by
    simp [show (BitSet.empty g.size).capacity = g.size from rfl, hstart]
  rw [hadd]
  refine ⟨⟨BitSet.capacity_insert .., (hmem _).2 rfl, fun v hv => ?_, fun v hv => ?_, fun u hu => ?_⟩, ?_⟩
  · exact (hmem v).1 hv ▸ .refl
  · exact (hmem v).2 (List.mem_singleton.1 hv).symm
  · exact .inl (List.mem_singleton.2 ((hmem u).1 hu).symm)
  · have hcount := BitSet.count_insert (s := .empty g.size) hstart (BitSet.contains_empty ..)
    simp only [rowsLeft, hcount, List.length_singleton]
    omega

theorem exhausts_flood (hg : g.Converse) (hstart : start < g.size) :
    Exhausts (Flood.next? g) (.add ⟨.empty g.size, []⟩ start) (g.flood start) :=
  exhausts_exhaust (P := g.Flooding start) (μ := g.rowsLeft) (fun _ _ h hs => h.step hg hs)
    (Flooding.begin hstart).1 (Flooding.begin hstart).2

/-- The search without an order finds what can be reached. -/
theorem Converse.contains_reachable (hg : g.Converse) {v : Nat} (hstart : start < g.size) :
    (g.reachable start).contains v = true ↔ g.Reaches start v := by
  obtain ⟨h, hnone⟩ := (exhausts_flood hg hstart).induction (P := g.Flooding start)
    (fun _ _ h hs => (h.step hg hs).1) (Flooding.begin hstart).1
  have hwork : (g.flood start).work = [] := by
    rw [Flood.next?] at hnone
    split at hnone
    · assumption
    · cases hnone
  rw [reachable, if_pos hstart]
  refine ⟨h.reached v, fun hv => ?_⟩
  induction hv with
  | refl => exact h.begun
  | tail _ hedge ih =>
    refine (h.covered _ ih).resolve_left (fun hmem => ?_) _ hedge
    rw [hwork] at hmem
    cases hmem

/-! ## Traversals are exact -/

/-- Depth-first search comes to an end, and lists the nodes that can be reached once each, the one that it began at
last. The end of an edge comes before the node that the edge leads from, unless the node can be reached from there.
The search without an order comes to an end as well, and finds what can be reached; on the predecessors, what a node
can be reached from. -/
theorem Converse.traversals_exact (hg : g.Converse) (hstart : start < g.size) :
    (∃ s, Exhausts (Search.next? g) (.start start) s ∧ s.order = g.postorder start) ∧
    (g.postorder start).Nodup ∧ (∀ v, v ∈ g.postorder start ↔ g.Reaches start v) ∧
    (g.postorder start).getLast? = some start ∧
    (∀ u ∈ g.postorder start, ∀ v ∈ g.succ u, g.Reaches v u ∨ [v, u].Sublist (g.postorder start)) ∧
    (∃ f, Exhausts (Flood.next? g) (.add ⟨.empty g.size, []⟩ start) f ∧ f.seen = g.reachable start) ∧
    (∀ v, (g.reachable start).contains v = true ↔ g.Reaches start v) ∧
    (∃ f, Exhausts (Flood.next? g.reverse) (.add ⟨.empty g.size, []⟩ start) f ∧ f.seen = g.reaching start) ∧
    ∀ v, (g.reaching start).contains v = true ↔ g.Reaches v start := by
  obtain ⟨h, -⟩ := searching_search hg hstart
  have horder : g.postorder start = (g.search start).order := if_pos hstart
  have hreachable : g.reachable start = (g.flood start).seen := if_pos hstart
  have hreaching : g.reaching start = (g.reverse.flood start).seen := if_pos hstart
  refine ⟨⟨_, exhausts_search hg hstart, horder.symm⟩, (perm_postorder hg hstart).nodup_iff.2 h.nodup,
    fun v => hg.mem_postorder hstart, getLast?_postorder hg hstart, fun u hu v hv => ?_,
    ⟨_, exhausts_flood hg hstart, hreachable.symm⟩, fun v => hg.contains_reachable hstart,
    ⟨_, exhausts_flood hg.reverse hstart, hreaching.symm⟩, fun v => ?_⟩
  · rw [horder] at hu ⊢
    exact or_iff_not_imp_left.2 (h.ordered u hu v hv)
  · exact (hg.reverse.contains_reachable hstart).trans hg.reaches_reverse

/-- A loop that is entered in two places, with a loop of one node, an edge that is there twice, and a node from which
alone the others can be reached, but not the other way. -/
def braid : Digraph :=
  .ofEdges 7 [(0, 1), (0, 2), (1, 3), (1, 3), (2, 3), (3, 2), (3, 3), (3, 4), (4, 1), (2, 5), (6, 3)]

theorem traversals_exact_braid : braid.Converse ∧ braid.postorder 0 = [5, 2, 4, 3, 1, 0] ∧
    braid.Reaches 0 5 ∧ ¬ braid.Reaches 0 6 ∧ braid.Reaches 6 1 ∧ ¬ braid.Reaches 5 2 ∧
    (∃ s, Exhausts (Search.next? braid) (.start 0) s ∧ s.order = [5, 2, 4, 3, 1, 0]) ∧
    ([5, 2] : List Nat).Sublist (braid.postorder 0) := by
  have hbraid : braid.Converse := converse_ofEdges (by decide)
  have hpostorder : braid.postorder 0 = [5, 2, 4, 3, 1, 0] := by decide +kernel
  obtain ⟨hend, -, hmem, -, hedge, -⟩ := hbraid.traversals_exact (show 0 < braid.size by decide)
  have hfive : ¬ braid.Reaches 5 2 := fun h =>
    absurd (((hbraid.traversals_exact (show 5 < braid.size by decide)).2.2.1 2).2 h) (by decide +kernel)
  rw [hpostorder] at hend hmem
  refine ⟨hbraid, hpostorder, (hmem 5).1 (by decide), fun h => absurd ((hmem 6).2 h) (by decide), ?_, hfive, hend, ?_⟩
  · obtain ⟨-, -, -, -, -, -, -, -, hreaching⟩ := hbraid.traversals_exact (show 1 < braid.size by decide)
    exact (hreaching 6).1 (by decide +kernel)
  · refine (hedge 2 ?_ 5 (by decide)).resolve_left hfive
    rw [hpostorder]
    decide

end ThreeAddress.Digraph

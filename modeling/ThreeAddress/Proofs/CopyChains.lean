import Mathlib.Data.Finset.Card
import ThreeAddress.Proofs.Recorded
/-!
# Chains of copies

A chain of copies that has an end comes to it in as many looks as there are copies, since a longer chain passes
some temporary twice and then goes on for ever (`endless_of_follow`). So the copies that stay are those of endless
chains (`lookup_resolved_eq_none_iff`). They keep their sources, and nothing else becomes a copy that can be done
without (`spare_propagate`). Copy propagation on its own output finds only endless chains and changes nothing.
-/

namespace ThreeAddress.CopyPropagation

variable {c : Cfg} {x t : Temp} {s s' o : Operand}

/-! ## Copies that can be done without -/

/-- A copy into a local that nothing else writes, of an immediate or of another local that is written at most
once. -/
structure Spare (c : Cfg) (x : Temp) (s : Operand) : Prop where
  mem : .copy x s ∈ c.bodies
  isLocal : x.isGlobal = false
  once : writes c x = 1
  source : ∀ t, s = .temp t → t ≠ x ∧ t.isGlobal = false ∧ writes c t ≤ 1

theorem mem_candidates_iff : (x, s) ∈ candidates c ↔ Spare c x s := by
  have hprop : isPropagatable c x s = true ↔ x.isGlobal = false ∧ writes c x = 1 ∧
      ∀ t, s = .temp t → t ≠ x ∧ t.isGlobal = false ∧ writes c t ≤ 1 := by
    cases s <;> simp [isPropagatable, and_assoc]
  constructor
  · intro h
    obtain ⟨i, hi, he⟩ := List.mem_filterMap.1 h
    cases i with
    | copy dest source =>
      dsimp only at he
      split at he
      · rename_i hp
        cases he
        obtain ⟨hlocal, honce, hsource⟩ := hprop.1 hp
        exact ⟨hi, hlocal, honce, hsource⟩
      · cases he
    | _ => cases he
  · intro h
    refine List.mem_filterMap.2 ⟨_, h.mem, ?_⟩
    simp [hprop.2 ⟨h.isLocal, h.once, h.source⟩]

/-- The copy is all that writes its destination. -/
theorem Spare.unique (h : Spare c x s) (h' : Spare c x s') : s = s' := by
  obtain ⟨i, hi⟩ := List.length_eq_one_iff.1 h.once
  have hall : ∀ {s}, .copy x s ∈ c.bodies → .copy x s = i := fun hmem =>
    List.mem_singleton.1 (hi ▸ List.mem_filter.2 ⟨hmem, by simp [Instr.defines, Instr.dest?]⟩)
  cases (hall h.mem).trans (hall h'.mem).symm
  rfl

theorem lookup_candidates : (candidates c).lookup x = some s ↔ Spare c x s := by
  refine ⟨fun h => mem_candidates_iff.1 (mem_of_lookup h), fun h => ?_⟩
  cases hlookup : (candidates c).lookup x with
  | none => simpa using List.lookup_eq_none_iff.1 hlookup _ (mem_candidates_iff.2 h)
  | some s' => rw [h.unique (mem_candidates_iff.1 (mem_of_lookup hlookup))]

/-! ## Chains -/

section

variable {copies : List (Temp × Operand)} {n : Nat}

/-- An operand that is the destination of a copy. -/
def Copied (copies : List (Temp × Operand)) (o : Operand) : Prop := ∃ t, o = .temp t ∧ ∃ s, copies.lookup t = some s

/-- Each operand of the chain that begins at `o` is the destination of another copy. -/
def Endless (copies : List (Temp × Operand)) (o : Operand) : Prop := ∀ i, Copied copies ((replace copies)^[i] o)

theorem Endless.next (h : Endless copies o) : Endless copies (replace copies o) := fun i => h (i + 1)

theorem follow_succ_eq_none :
    follow copies (n + 1) o = none ↔ Copied copies o ∧ follow copies n (replace copies o) = none := by
  cases o with
  | imm v => simp [follow, Copied]
  | temp t => cases hlookup : copies.lookup t <;> simp [follow, Copied, replace, hlookup]

/-- All operands that have been looked at are destinations of copies, where the end has not been found. -/
theorem follow_eq_none : follow copies n o = none ↔ ∀ i < n, Copied copies ((replace copies)^[i] o) := by
  induction n generalizing o with
  | zero => simp [follow]
  | succ n ih => rw [follow_succ_eq_none, ih, Nat.forall_lt_succ_left']; rfl

theorem Endless.follow (h : Endless copies o) (n : Nat) : follow copies n o = none :=
  follow_eq_none.2 fun i _ => h i

/-- Among one look more than there are copies, two are at the same operand. -/
theorem exists_repeated (h : follow copies (copies.length + 1) o = none) :
    ∃ i j, i < j ∧ j ≤ copies.length ∧ (replace copies)^[i] o = (replace copies)^[j] o := by
  let keys : Finset Operand := (copies.map fun e => .temp e.1).toFinset
  have hcard : keys.card < (Finset.range (copies.length + 1)).card := by
    rw [Finset.card_range]
    exact Nat.lt_succ_of_le ((List.toFinset_card_le _).trans_eq (by simp))
  have hmaps : Set.MapsTo (fun i => (replace copies)^[i] o) (Finset.range (copies.length + 1)) keys := by
    intro i hi
    obtain ⟨t, ht, s, hs⟩ := follow_eq_none.1 h i (Finset.mem_range.1 hi)
    exact List.mem_toFinset.2 (List.mem_map.2 ⟨(t, s), mem_of_lookup hs, ht.symm⟩)
  obtain ⟨i, hi, j, hj, hne, heq⟩ := Finset.exists_ne_map_eq_of_card_lt_of_maps_to hcard hmaps
  rw [Finset.mem_range] at hi hj
  rcases Nat.lt_or_gt_of_ne hne with hlt | hlt
  · exact ⟨i, j, hlt, Nat.le_of_lt_succ hj, heq⟩
  · exact ⟨j, i, hlt, Nat.le_of_lt_succ hi, heq.symm⟩

/-- Behind two equal operands the chain is the same. -/
theorem iterate_of_repeated {f : Operand → Operand} {i j : Nat} (heq : f^[i] o = f^[j] o) (k : Nat) :
    f^[k + i] o = f^[k + j] o := by
  rw [Function.iterate_add_apply, Function.iterate_add_apply, heq]

/-- A chain that has no end in as many looks has none at all. -/
theorem endless_of_follow (h : follow copies (copies.length + 1) o = none) : Endless copies o := by
  obtain ⟨i, j, hlt, hj, heq⟩ := exists_repeated h
  intro m
  induction m using Nat.strongRecOn with
  | ind m ih =>
    by_cases hm : m < copies.length + 1
    · exact follow_eq_none.1 h m hm
    · have hback := iterate_of_repeated heq (m - j)
      rw [Nat.sub_add_cancel (by omega)] at hback
      exact hback ▸ ih (m - j + i) (by omega)

end

/-! ## Copies that stay -/

theorem replace_of_spare (h : Spare c x s) : replace (candidates c) (.temp x) = s := by
  simp [replace, lookup_candidates.2 h]

/-- The copies that are not deleted begin endless chains. -/
theorem lookup_resolved_eq_none_iff (h : Spare c x s) :
    (resolved c).lookup x = none ↔ Endless (candidates c) (.temp x) := by
  constructor
  · intro hnone
    refine endless_of_follow (follow_succ_eq_none.2 ⟨⟨x, rfl, s, lookup_candidates.2 h⟩, ?_⟩)
    rw [replace_of_spare h, Option.eq_none_iff_forall_ne_some]
    intro o ho
    have hmem : (x, o) ∈ resolved c := List.mem_filterMap.2 ⟨(x, s), mem_candidates_iff.2 h, by simp [ho]⟩
    simpa using List.lookup_eq_none_iff.1 hnone _ hmem
  · intro hendless
    rw [Option.eq_none_iff_forall_ne_some]
    intro o ho
    obtain ⟨source, n, hmem, hfollow⟩ := mem_resolved ho
    have hnext := hendless.next.follow n
    rw [replace_of_spare (mem_candidates_iff.1 hmem), hfollow] at hnext
    cases hnext

/-- An endless chain goes on by copies that are not deleted. -/
theorem Endless.spare (h : Endless (candidates c) (.temp x)) : ∃ t, Spare c x (.temp t) ∧
    replace (candidates c) (.temp x) = .temp t ∧ (resolved c).lookup x = none := by
  obtain ⟨y, hy, s, hs⟩ := h 0
  cases hy
  have hspare := lookup_candidates.1 hs
  obtain ⟨t, ht, -⟩ := h 1
  obtain rfl : s = .temp t := (replace_of_spare hspare).symm.trans ht
  exact ⟨t, hspare, ht, (lookup_resolved_eq_none_iff hspare).2 h⟩

/-! ## The graph after copy propagation -/

theorem bodies_propagate (c : Cfg) : (propagate c).cfg.bodies =
    (c.bodies.filter (!isDeleted (resolved c) ·)).map (·.mapOperands (replace (resolved c))) := by
  simp [propagate, Cfg.bodies, Cfg.mapBlocks, replaceIn, Block.mapInstrs, List.flatMap_map, List.filter_flatMap,
    List.map_flatMap]

theorem copy_mem_bodies_propagate : .copy x s ∈ (propagate c).cfg.bodies ↔
    (resolved c).lookup x = none ∧ ∃ s₀, .copy x s₀ ∈ c.bodies ∧ replace (resolved c) s₀ = s := by
  rw [bodies_propagate]
  constructor
  · intro h
    obtain ⟨i, hi, he⟩ := List.mem_map.1 h
    obtain ⟨hi, hkept⟩ := List.mem_filter.1 hi
    cases i <;> cases he
    exact ⟨by simpa [isDeleted] using hkept, _, hi, rfl⟩
  · rintro ⟨hnone, s₀, hi, rfl⟩
    exact List.mem_map.2 ⟨.copy x s₀, List.mem_filter.2 ⟨hi, by simp [isDeleted, hnone]⟩, rfl⟩

/-- What is not deleted is written as often as before. -/
theorem writes_propagate (h : (resolved c).lookup t = none) : writes (propagate c).cfg t = writes c t := by
  rw [writes, writes, bodies_propagate, List.filter_map, List.length_map, List.filter_filter]
  refine congrArg List.length (List.filter_congr fun i _ => ?_)
  cases i with
  | copy dest source =>
    by_cases hdest : dest = t <;> simp [isDeleted, Instr.defines, Instr.dest?, Instr.mapOperands, hdest, h]
  | _ => simp [isDeleted, Instr.defines, Instr.dest?, Instr.mapOperands]

/-- The copies that can be done without are those that stayed, with the sources that they had. -/
theorem spare_propagate : Spare (propagate c).cfg x s ↔ Spare c x s ∧ (resolved c).lookup x = none := by
  constructor
  · intro h
    obtain ⟨hnone, s₀, hmem, hs⟩ := copy_mem_bodies_propagate.1 h.mem
    have honce : writes c x = 1 := (writes_propagate hnone).symm.trans h.once
    suffices hsame : Spare c x s₀ ∧ replace (resolved c) s₀ = s₀ by
      rw [hsame.2] at hs
      exact ⟨hs ▸ hsame.1, hnone⟩
    cases s₀ with
    | imm v => exact ⟨⟨hmem, h.isLocal, honce, nofun⟩, rfl⟩
    | temp t =>
      cases ht : (resolved c).lookup t with
      | none =>
        have hreplace : replace (resolved c) (.temp t) = .temp t := by simp [replace, ht]
        refine ⟨⟨hmem, h.isLocal, honce, ?_⟩, hreplace⟩
        rintro u ⟨⟩
        rw [← writes_propagate ht]
        exact h.source t (hs.symm.trans hreplace)
      | some o =>
        -- The source is deleted, so that its chain has an end, and so has the chain of the copy.
        obtain ⟨source, n, hsource, -⟩ := mem_resolved ht
        have hdeleted := mem_candidates_iff.1 hsource
        have hspare : Spare c x (.temp t) := by
          refine ⟨hmem, h.isLocal, honce, ?_⟩
          rintro u ⟨⟩
          exact ⟨fun htx => by simp [← htx, ht] at hnone, hdeleted.isLocal, hdeleted.once.le⟩
        have hendless := ((lookup_resolved_eq_none_iff hspare).1 hnone).next
        rw [replace_of_spare hspare] at hendless
        cases ht.symm.trans ((lookup_resolved_eq_none_iff hdeleted).2 hendless)
  · rintro ⟨h, hnone⟩
    have hendless := (lookup_resolved_eq_none_iff h).1 hnone
    obtain ⟨t, ht, hnext, -⟩ := hendless.spare
    obtain rfl := h.unique ht
    obtain ⟨-, -, -, htnone⟩ := (hnext ▸ hendless.next).spare
    refine ⟨copy_mem_bodies_propagate.2 ⟨hnone, _, h.mem, by simp [replace, htnone]⟩, h.isLocal,
      (writes_propagate hnone).trans h.once, ?_⟩
    rintro u ⟨⟩
    rw [writes_propagate htnone]
    exact h.source t rfl

/-- A copy that stays although it could be done without begins a chain that runs in a circle. -/
theorem exists_chain (h : Spare (propagate c).cfg x s) : ∃ chain : Nat → Temp, chain 0 = x ∧
    (∀ i, Spare (propagate c).cfg (chain i) (.temp (chain (i + 1)))) ∧
    ∃ start period, 0 < period ∧ ∀ i, start ≤ i → chain (i + period) = chain i := by
  obtain ⟨hspare, hnone⟩ := spare_propagate.1 h
  have hendless := (lookup_resolved_eq_none_iff hspare).1 hnone
  choose chain hchain hlookup using id hendless
  have hzero : chain 0 = x := by cases hchain 0; rfl
  have hbehind : ∀ i, Endless (candidates c) (.temp (chain i)) := fun i k => by
    rw [← hchain i, ← Function.iterate_add_apply]
    exact hendless (k + i)
  refine ⟨chain, hzero, fun i => ?_, ?_⟩
  · obtain ⟨t, ht, hnext, htnone⟩ := (hbehind i).spare
    have hlink : Operand.temp t = .temp (chain (i + 1)) := by
      rw [← hnext, ← hchain i, ← hchain (i + 1), Function.iterate_succ_apply']
    exact hlink ▸ spare_propagate.2 ⟨ht, htnone⟩
  · obtain ⟨i, j, hlt, -, heq⟩ := exists_repeated (hendless.follow _)
    refine ⟨i, j - i, by omega, fun m hm => ?_⟩
    have hback := iterate_of_repeated heq (m - i)
    rw [Nat.sub_add_cancel hm, show m - i + j = m + (j - i) by omega, hchain, hchain] at hback
    exact (Operand.temp.inj hback).symm

/-- Only chains that run in a circle are found again, and nothing is deleted. -/
theorem resolved_propagate (c : Cfg) : resolved (propagate c).cfg = [] := by
  refine List.filterMap_eq_nil_iff.2 fun ⟨x, s⟩ hmem => Option.map_eq_none_iff.2 ?_
  have hspare := mem_candidates_iff.1 hmem
  obtain ⟨chain, rfl, hlinks, -⟩ := exists_chain hspare
  have hendless : Endless (candidates (propagate c).cfg) (.temp (chain 0)) := by
    have hiterate : ∀ i, (replace (candidates (propagate c).cfg))^[i] (.temp (chain 0)) = .temp (chain i) := by
      intro i
      induction i with
      | zero => rfl
      | succ i ih => rw [Function.iterate_succ_apply', ih, replace_of_spare (hlinks i)]
    exact fun i => ⟨chain i, hiterate i, _, lookup_candidates.2 (hlinks i)⟩
  have hnext := hendless.next
  rw [replace_of_spare hspare] at hnext
  exact hnext.follow _

theorem propagate_of_resolved (h : resolved c = []) : propagate c = ⟨c, [], false⟩ := by
  have hcfg : c.mapBlocks (replaceIn []) = c := Cfg.mapBlocks_eq_self fun b _ => replaceIn_nil b
  have hlog : events [] c = [] := by
    refine List.flatMap_eq_nil_iff.2 fun b _ => List.map_eq_nil_iff.2 (List.filter_eq_nil_iff.2 fun i _ => ?_)
    cases i <;> simp [isDeleted]
  simp [propagate, h, hcfg, hlog]

/-- After copy propagation nothing reads a temporary whose copy was deleted; the copies that stay although they could
be done without begin chains that run in a circle; and copy propagation does nothing when it is run again. -/
theorem propagate_settles (c : Cfg) :
    (∀ x s, .copy x s ∈ c.bodies → (∀ s', .copy x s' ∉ (propagate c).cfg.bodies) →
      ∀ i ∈ (propagate c).cfg.instrs, x ∉ i.usedTemps) ∧
    (∀ x s, Spare (propagate c).cfg x s → ∃ chain : Nat → Temp, chain 0 = x ∧
      (∀ i, Spare (propagate c).cfg (chain i) (.temp (chain (i + 1)))) ∧
      ∃ start period, 0 < period ∧ ∀ i, start ≤ i → chain (i + period) = chain i) ∧
    propagate (propagate c).cfg = ⟨(propagate c).cfg, [], false⟩ := by
  refine ⟨fun x s hcopy hdeleted i hi hread => ?_, fun x s h => exists_chain h,
    propagate_of_resolved (resolved_propagate c)⟩
  obtain ⟨b', hb', hi⟩ := List.mem_flatMap.1 hi
  obtain ⟨b, hb, rfl⟩ := Cfg.mem_mapBlocks.1 hb'
  obtain ⟨j, rfl⟩ : ∃ j : Instr, j.mapOperands (replace (resolved c)) = i := by
    rcases List.mem_append.1 hi with hi | hi <;> exact (List.mem_map.1 hi).imp fun _ h => h.2
  obtain ⟨o, -, ho⟩ := Instr.mem_usedTemps_mapOperands.1 hread
  exact hdeleted _ (copy_mem_bodies_propagate.2 ⟨lookup_of_replace ho, s, hcopy, rfl⟩)

end ThreeAddress.CopyPropagation

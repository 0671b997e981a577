import ThreeAddress.Proofs.Fresh
import ThreeAddress.Proofs.Improvement
import ThreeAddress.Ssa
/-!
# Instructions under versions

What renaming makes of instructions is a relation, `Renames vs is is' vs'`, in which the names of the
versions are left open. That they are new is said apart from it: `Issued` follows the counters through
the body of a block and through the blocks.
-/

namespace ThreeAddress.Ssa

/-! ## Renaming -/

/-- An instruction under versions, and the versions behind it. -/
inductive Step (vs : Versions) : Instr → Instr → Versions → Prop
  | keep {i : Instr} : i.localDest? = none → Step vs i (renameUses vs i) vs
  | write {i : Instr} {t x : Temp} : i.localDest? = some t → x.isGlobal = false →
      (∃ n, x = t.withVersion n) → Step vs i ((renameUses vs i).withDest x) (vs.set t x)

/-- Instructions under versions, one after another. -/
inductive Renames : Versions → List Instr → List Instr → Versions → Prop
  | nil (vs : Versions) : Renames vs [] [] vs
  | cons {vs vs₁ vs' : Versions} {i i' : Instr} {is is' : List Instr} :
      Step vs i i' vs₁ → Renames vs₁ is is' vs' → Renames vs (i :: is) (i' :: is') vs'

variable {vs vs₁ vs' : Versions} {i i' : Instr} {is is' : List Instr} {t x : Temp}

@[simp] theorem dest?_renameUses (vs : Versions) (i : Instr) : (renameUses vs i).dest? = i.dest? := by
  unfold renameUses
  split <;> simp

@[simp] theorem isPhi_renameUses (vs : Versions) (i : Instr) : (renameUses vs i).isPhi = i.isPhi := by
  unfold renameUses
  split <;> simp

@[simp] theorem isTerminator_renameUses (vs : Versions) (i : Instr) :
    (renameUses vs i).isTerminator = i.isTerminator := by
  unfold renameUses
  split <;> simp

@[simp] theorem label?_renameUses (vs : Versions) (i : Instr) : (renameUses vs i).label? = i.label? := by
  unfold renameUses
  split <;> simp

@[simp] theorem called?_renameUses (vs : Versions) (i : Instr) : (renameUses vs i).called? = i.called? := by
  unfold renameUses
  split <;> simp

@[simp] theorem target?_renameUses (vs : Versions) (i : Instr) : (renameUses vs i).target? = i.target? := by
  unfold renameUses
  split <;> simp

theorem renameUses_of_not_phi (vs : Versions) (h : i.isPhi = false) :
    renameUses vs i = i.mapOperands (rename vs) := by
  simp [renameUses, h]

theorem rename_temp (vs : Versions) (t : Temp) : rename vs (.temp t) = .temp ((vs.get? t).getD t) := rfl

namespace Step

theorem isPhi_eq (h : Step vs i i' vs') : i'.isPhi = i.isPhi := by
  cases h <;> simp

theorem isTerminator_eq (h : Step vs i i' vs') : i'.isTerminator = i.isTerminator := by
  cases h <;> simp

theorem label?_eq (h : Step vs i i' vs') : i'.label? = i.label? := by
  cases h <;> simp

theorem called?_eq (h : Step vs i i' vs') : i'.called? = i.called? := by
  cases h <;> simp

/-- Where a local was written there is a version of it now. -/
theorem localDest?_cases (h : Step vs i i' vs') : (i.localDest? = none ∧ i'.localDest? = none) ∨
    ∃ t x, i.localDest? = some t ∧ i'.localDest? = some x ∧ x.kind = .versioned := by
  cases h with
  | keep hnone => exact .inl ⟨hnone, by simpa [Instr.localDest?] using hnone⟩
  | @write t x hsome hx hversion =>
    obtain ⟨hd, ht⟩ := Instr.localDest?_eq_some.1 hsome
    obtain ⟨n, rfl⟩ := hversion
    have hd' : (renameUses vs i).dest? = some t := by rwa [dest?_renameUses]
    exact .inr ⟨t, _, hsome, Instr.localDest?_eq_some.2 ⟨Instr.dest?_withDest hd', hx⟩, Temp.kind_withVersion ht n⟩

theorem uses_eq (h : Step vs i i' vs') (hi : i.isPhi = false) : i'.uses = i.uses.map (rename vs) := by
  cases h <;> simp [renameUses_of_not_phi vs hi]

theorem acts_eq (h : Step vs i i' vs') (hi : i.isPhi = false) (calls : Calls) :
    i'.Acts calls = i.Acts calls := by
  cases h <;> simp only [Instr.acts_withDest, renameUses_of_not_phi vs hi, Instr.acts_mapOperands]

/-- A phi keeps its sources until all blocks are renamed. -/
theorem phi {dest : Temp} {sources : PhiSources} (h : Step vs i (.phi dest sources) vs') :
    ∃ t, i = .phi t sources ∧ t.isGlobal = dest.isGlobal ∧ (t.isGlobal = true → dest = t) := by
  have hphi : i.isPhi = true := h.isPhi_eq.symm
  have huses : renameUses vs i = i := by simp [renameUses, hphi]
  cases i with
  | phi t s =>
    generalize hj : Instr.phi dest sources = j at h
    cases h with
    | keep =>
      rw [huses] at hj
      cases hj
      exact ⟨_, rfl, rfl, fun _ => rfl⟩
    | write hd hx =>
      rw [huses] at hj
      cases hj
      have hlocal := (Instr.localDest?_eq_some.1 hd).2
      cases (Instr.localDest?_eq_some.1 hd).1
      exact ⟨_, rfl, hlocal.trans hx.symm, fun hg => by simp [hg] at hlocal⟩
  | _ => simp [Instr.isPhi] at hphi

theorem of_phi {dest : Temp} {sources : PhiSources} (h : Step vs (.phi dest sources) i' vs') :
    ∃ x, i' = .phi x sources := by
  cases h with
  | keep => exact ⟨dest, rfl⟩
  | @write t x => exact ⟨x, rfl⟩

/-- A version is that of before, or the new name of the destination. -/
theorem get? (h : Step vs i i' vs') (ht : vs'.get? t = some x) :
    (vs.get? t = some x ∧ i.localDest? ≠ some t) ∨
      (i.localDest? = some t ∧ i'.dest? = some x ∧ x.isGlobal = false) := by
  cases h with
  | keep hd => exact .inl ⟨ht, by simp [hd]⟩
  | @write u y hd hy =>
    rw [Table.get?_set] at ht
    split at ht
    · rename_i htu
      cases ht
      exact .inr ⟨htu ▸ hd, Instr.dest?_withDest (by simpa using (Instr.localDest?_eq_some.1 hd).1), hy⟩
    · rename_i htu
      exact .inl ⟨ht, fun he => htu (Option.some.inj (he.symm.trans hd))⟩

/-- What is versioned stays versioned, and what is written is. -/
theorem isSome_get? (h : Step vs i i' vs') (ht : (vs.get? t).isSome = true ∨ i.localDest? = some t) :
    (vs'.get? t).isSome = true := by
  cases h with
  | keep hd =>
    refine ht.resolve_right fun he => ?_
    rw [hd] at he
    cases he
  | @write u y hd =>
    rw [Table.get?_set]
    split
    · rfl
    · rename_i htu
      refine ht.resolve_right fun he => htu ?_
      rw [hd] at he
      exact (Option.some.inj he).symm

end Step

namespace Renames

theorem append_iff {is js ks : List Instr} : Renames vs (is ++ js) ks vs' ↔
    ∃ is' js' vs₁, ks = is' ++ js' ∧ Renames vs is is' vs₁ ∧ Renames vs₁ js js' vs' := by
  induction is generalizing vs ks with
  | nil =>
    constructor
    · exact fun h => ⟨[], ks, vs, rfl, .nil vs, h⟩
    · rintro ⟨is', js', vs₁, rfl, h, h'⟩
      cases h
      exact h'
  | cons i is ih =>
    constructor
    · intro h
      cases h with
      | cons hstep h =>
        obtain ⟨is', js', vs₁, rfl, h, h'⟩ := ih.1 h
        exact ⟨_ :: is', js', vs₁, rfl, .cons hstep h, h'⟩
    · rintro ⟨is', js', vs₁, rfl, h, h'⟩
      cases h with
      | cons hstep h => exact .cons hstep (ih.2 ⟨_, _, _, rfl, h, h'⟩)

/-- A place of the renamed instructions comes from one of the old ones. -/
theorem exists_of_split (h : Renames vs is is' vs') {before' after' : List Instr}
    (hsplit : is' = before' ++ i' :: after') : ∃ before i after vs₁ vs₂, is = before ++ i :: after ∧
      Renames vs before before' vs₁ ∧ Step vs₁ i i' vs₂ ∧ Renames vs₂ after after' vs' := by
  induction h generalizing before' with
  | nil => simp at hsplit
  | @cons vs vs₁ vs' j j' is is' hstep h ih =>
    cases before' with
    | nil =>
      cases hsplit
      exact ⟨[], j, is, vs, vs₁, rfl, .nil vs, hstep, h⟩
    | cons k before' =>
      obtain ⟨rfl, htail⟩ := List.cons.inj hsplit
      obtain ⟨before, i, after, vs₂, vs₃, rfl, hbefore, hi, hafter⟩ := ih htail
      exact ⟨j :: before, i, after, vs₂, vs₃, rfl, .cons hstep hbefore, hi, hafter⟩

theorem exists_of_mem (h : Renames vs is is' vs') (hi : i' ∈ is') :
    ∃ i ∈ is, ∃ vs₁ vs₂, Step vs₁ i i' vs₂ := by
  obtain ⟨before', after', hsplit⟩ := List.append_of_mem hi
  obtain ⟨before, i, after, vs₁, vs₂, rfl, -, hstep, -⟩ := h.exists_of_split hsplit
  exact ⟨i, by simp, vs₁, vs₂, hstep⟩

/-- Every instruction is renamed. -/
theorem exists_of_mem_left (h : Renames vs is is' vs') (hi : i ∈ is) :
    ∃ i' ∈ is', ∃ vs₁ vs₂, Step vs₁ i i' vs₂ := by
  induction h with
  | nil => cases hi
  | @cons vs vs₁ _ _ j' _ _ hstep _ ih =>
    rcases List.mem_cons.1 hi with rfl | hi
    · exact ⟨j', List.mem_cons_self, vs, vs₁, hstep⟩
    · obtain ⟨i', hi', hstep'⟩ := ih hi
      exact ⟨i', .tail _ hi', hstep'⟩

theorem isPhi (h : Renames vs is is' vs') {p : Bool} (hp : ∀ i ∈ is, i.isPhi = p) :
    ∀ i ∈ is', i.isPhi = p := by
  intro i' hi'
  obtain ⟨i, hi, _, _, hstep⟩ := h.exists_of_mem hi'
  exact hstep.isPhi_eq.trans (hp i hi)

/-- A version was there before, or it is written by the last instruction that writes the local. -/
theorem get? (h : Renames vs is is' vs') (ht : vs'.get? t = some x) :
    (vs.get? t = some x ∧ ∀ j ∈ is, j.localDest? ≠ some t) ∨
    ∃ before i after before' i' after', is = before ++ i :: after ∧ is' = before' ++ i' :: after' ∧
      i.localDest? = some t ∧ i'.dest? = some x ∧ x.isGlobal = false ∧
      (∀ j ∈ after, j.localDest? ≠ some t) ∧ ∃ vs₁ vs₂, Step vs₁ i i' vs₂ := by
  induction h with
  | nil => exact .inl ⟨ht, nofun⟩
  | @cons vs vs₁ vs' j j' is is' hstep _ ih =>
    rcases ih ht with ⟨ht, hlater⟩ | ⟨before, i, after, before', i', after', rfl, rfl, hi⟩
    · rcases hstep.get? ht with ⟨ht, hj⟩ | ⟨hd, hd', hx⟩
      · exact .inl ⟨ht, List.forall_mem_cons.2 ⟨hj, hlater⟩⟩
      · exact .inr ⟨[], j, is, [], j', is', rfl, rfl, hd, hd', hx, hlater, vs, vs₁, hstep⟩
    · exact .inr ⟨j :: before, i, after, j' :: before', i', after', rfl, rfl, hi⟩

/-- A version from the head of a block is written in the block. -/
theorem writes_of_get? (h : Renames ∅ is is' vs') (ht : vs'.get? t = some x) :
    ∃ i ∈ is', i.dest? = some x := by
  rcases h.get? ht with ⟨ht, -⟩ | ⟨before, i, after, before', i', after', -, rfl, -, hi', -⟩
  · simp at ht
  · exact ⟨i', by simp, hi'⟩

theorem isLocal_of_get? (h : Renames ∅ is is' vs') (ht : vs'.get? t = some x) :
    (∃ i ∈ is, i.localDest? = some t) ∧ x.isGlobal = false := by
  rcases h.get? ht with ⟨ht, -⟩ | ⟨before, i, after, before', i', after', rfl, -, hi, -, hx, -⟩
  · simp at ht
  · exact ⟨⟨i, by simp, hi⟩, hx⟩

/-- A version has the base of the local and a number. -/
theorem exists_withVersion (h : Renames ∅ is is' vs') (ht : vs'.get? t = some x) : ∃ n, x = t.withVersion n := by
  rcases h.get? ht with ⟨ht, -⟩ | ⟨before, i, after, before', i', after', -, -, hi, hi', -, -, vs₁, vs₂, hstep⟩
  · simp at ht
  · cases hstep with
    | keep hd => cases hd.symm.trans hi
    | write hd _ hn =>
      rw [Instr.dest?_withDest (by simpa using (Instr.localDest?_eq_some.1 hd).1)] at hi'
      cases hi'
      cases hd.symm.trans hi
      exact hn

theorem get?_of_global (h : Renames ∅ is is' vs') (ht : t.isGlobal = true) : vs'.get? t = none := by
  cases hv : vs'.get? t with
  | none => rfl
  | some x =>
    obtain ⟨⟨i, -, hi⟩, -⟩ := h.isLocal_of_get? hv
    rw [(Instr.localDest?_eq_some.1 hi).2] at ht
    cases ht

theorem isSome_get? (h : Renames vs is is' vs')
    (ht : (vs.get? t).isSome = true ∨ ∃ i ∈ is, i.localDest? = some t) : (vs'.get? t).isSome = true := by
  induction h with
  | nil => simpa using ht
  | cons hstep _ ih =>
    refine ih ?_
    rcases ht with ht | ⟨j, hj, hjt⟩
    · exact .inl (hstep.isSome_get? (.inl ht))
    · rcases List.mem_cons.1 hj with rfl | hj
      · exact .inl (hstep.isSome_get? (.inr hjt))
      · exact .inr ⟨j, hj, hjt⟩

/-- Versions of locals are locals and globals stay what they are. -/
theorem isGlobal_getD (h : Renames ∅ is is' vs') (t : Temp) :
    ((vs'.get? t).getD t).isGlobal = t.isGlobal := by
  cases hv : vs'.get? t with
  | none => rfl
  | some x =>
    obtain ⟨⟨i, -, hi⟩, hx⟩ := h.isLocal_of_get? hv
    exact hx.trans (Instr.localDest?_eq_some.1 hi).2.symm

end Renames

/-! ## New names -/

/-- The names that have been given out so far: they differ, none is taken, and the counters are past
them. -/
structure Issued (taken : List Temp) (counters : Counters) (names : List Temp) : Prop where
  nodup : names.Nodup
  notMem : ∀ x ∈ names, x ∉ taken
  lt {t : Temp} {n : Nat} : t.withVersion n ∈ names → n < (counters.get? t.base).getD 0

theorem issued_nil (taken : List Temp) : Issued taken ∅ [] := ⟨.nil, nofun, nofun⟩

theorem Issued.fresh {taken : List Temp} {counters : Counters} {names : List Temp}
    (h : Issued taken counters names) (t : Temp) :
    Issued taken (fresh taken counters t).2 (names ++ [(fresh taken counters t).1]) := by
  have hle := @le_firstFree _ _ taken t.withVersion ((counters.get? t.base).getD 0)
  have hfree := @firstFree_notMem _ _ taken _ t.withVersion_injective ((counters.get? t.base).getD 0)
  unfold Ssa.fresh
  generalize firstFree taken t.withVersion ((counters.get? t.base).getD 0) = n at hle hfree
  refine ⟨?_, ?_, ?_⟩
  · rw [List.nodup_append]
    refine ⟨h.nodup, List.nodup_singleton _, ?_⟩
    rintro x hx _ hy rfl
    rw [List.mem_singleton.1 hy] at hx
    exact Nat.not_lt.2 hle (h.lt hx)
  · intro x hx
    rcases List.mem_append.1 hx with hx | hx
    · exact h.notMem x hx
    · exact List.mem_singleton.1 hx ▸ hfree
  · -- Counters stay ahead of all versions that have been given for their base.
    intro u m hm
    dsimp only
    rw [Table.get?_set]
    rcases List.mem_append.1 hm with hm | hm
    · have := h.lt hm
      split
      · rename_i hbase
        rw [hbase] at this
        simp only [Option.getD_some]
        omega
      · exact this
    · obtain ⟨hbase, rfl⟩ := Temp.eq_of_withVersion_eq (List.mem_singleton.1 hm)
      simp [hbase]

/-- The locals that instructions write. -/
def dests (is : List Instr) : List Temp := is.filterMap Instr.localDest?

theorem renameBody_spec {taken names : List Temp} (is : List Instr) {counters : Counters}
    (h : Issued taken counters names) (vs : Versions) :
    Renames vs is (renameBody taken counters vs is).1 (renameBody taken counters vs is).2.2 ∧
      Issued taken (renameBody taken counters vs is).2.1
        (names ++ dests (renameBody taken counters vs is).1) := by
  induction is generalizing counters names vs with
  | nil => exact ⟨.nil vs, by simpa [renameBody, dests] using h⟩
  | cons i is ih =>
    have hdest : (renameUses vs i).localDest? = i.localDest? := by simp [Instr.localDest?]
    unfold renameBody
    cases hi : i.localDest? with
    | none =>
      obtain ⟨hrenames, hissued⟩ := ih h vs
      simp only [hdest, hi]
      exact ⟨.cons (.keep hi) hrenames, by simpa [dests, hdest, hi] using hissued⟩
    | some t =>
      obtain ⟨hd, hlocal⟩ := Instr.localDest?_eq_some.1 hi
      have hx : (fresh taken counters t).1.isGlobal = false :=
        (t.isGlobal_withVersion _).trans hlocal
      obtain ⟨hrenames, hissued⟩ := ih (h.fresh t) (vs.set t (fresh taken counters t).1)
      have hnew : ((renameUses vs i).withDest (fresh taken counters t).1).localDest? =
          some (fresh taken counters t).1 :=
        Instr.localDest?_eq_some.2 ⟨Instr.dest?_withDest (by simpa using hd), hx⟩
      simp only [hdest, hi]
      refine ⟨.cons (.write hi hx ⟨_, rfl⟩) hrenames, ?_⟩
      simpa only [dests, List.filterMap_cons, hnew, List.append_assoc, List.singleton_append] using hissued

/-- A block and what renaming makes of it. -/
def RenamesBlock (b : Block) (r : Renamed) : Prop :=
  r.block.label = b.label ∧ Renames ∅ b.body r.block.body r.exits ∧
    r.block.jumps = b.jumps.map (renameUses r.exits)

/-- Every block is renamed, and nothing else. -/
theorem renameBlocks_spec {taken names : List Temp} (bs : List Block) {counters : Counters}
    (h : Issued taken counters names) :
    (∀ b ∈ bs, ∃ r ∈ renameBlocks taken counters bs, RenamesBlock b r) ∧
      (∀ r ∈ renameBlocks taken counters bs, ∃ b ∈ bs, RenamesBlock b r) ∧
      ∃ counters', Issued taken counters'
        (names ++ (renameBlocks taken counters bs).flatMap fun r => dests r.block.body) := by
  induction bs generalizing counters names with
  | nil => exact ⟨nofun, nofun, counters, by simpa [renameBlocks] using h⟩
  | cons b bs ih =>
    obtain ⟨hbody, hissued⟩ := renameBody_spec b.body h ∅
    obtain ⟨hall, honly, counters', hissued'⟩ := ih hissued
    unfold renameBlocks
    refine ⟨?_, ?_, counters', by simpa using hissued'⟩
    · intro d hd
      rcases List.mem_cons.1 hd with rfl | hd
      · exact ⟨_, List.mem_cons_self, rfl, hbody, rfl⟩
      · obtain ⟨r, hr, hdr⟩ := hall d hd
        exact ⟨r, .tail _ hr, hdr⟩
    · intro r hr
      rcases List.mem_cons.1 hr with rfl | hr
      · exact ⟨b, List.mem_cons_self, rfl, hbody, rfl⟩
      · obtain ⟨d, hd, hdr⟩ := honly r hr
        exact ⟨d, .tail _ hd, hdr⟩

end ThreeAddress.Ssa

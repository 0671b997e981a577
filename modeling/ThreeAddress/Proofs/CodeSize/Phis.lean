import ThreeAddress.Proofs.PhiMinimization
import ThreeAddress.Proofs.CodeSize.Linear
/-!
# Phis that stay

The deletion of phis makes a graph no larger (`shrinks_minimize`). Each renaming takes an instruction away, so that a
round renames as long as there is something to rename, and then deletes what yields itself. So after the first round
already no phi is redundant (`irredundant_minimize`), and none that stays has just one source.
-/

namespace ThreeAddress

namespace Instr

/-- A phi that has not just one source. -/
def isChoice (i : Instr) : Bool := i.isPhi && i.sources?.any (·.labels.length ≠ 1)

theorem isPhi_of_isChoice {i : Instr} (h : i.isChoice = true) : i.isPhi = true := (Bool.and_eq_true_iff.1 h).1

theorem isChoice_mapOperands (f : Operand → Operand) (i : Instr) : (i.mapOperands f).isChoice = i.isChoice := by
  cases i with
  | phi dest sources => simp [isChoice, isPhi, mapOperands, sources?]
  | _ => rfl

theorem isChoice_withDest (i : Instr) (t : Temp) : (i.withDest t).isChoice = i.isChoice := by
  cases i with
  | call dest? target argc => cases dest? <;> rfl
  | _ => rfl

end Instr

namespace PhiMinimization

variable {P : Instr → Bool} {c : Cfg}

/-! ## Sizes -/

theorem shrinks_apply (hP : ∀ f i, P (i.mapOperands f) = P i) (c : Cfg) (r : Renamable) :
    c.Shrinks P (apply c r) := by
  have herase : c.Shrinks P (c.modify r.block fun b => { b with body := b.body.eraseIdx r.index }) := by
    refine .mapBlocks (fun b => ?_) (fun b _ => ?_) fun b _ => ?_
    · split <;> rfl
    · split <;> exact .refl _
    · split
      · exact (List.eraseIdx_sublist ..).countP_le
      · exact le_rfl
  refine herase.trans (.mapBlocks (fun _ => rfl) (fun b _ => .map (fun _ => rfl) b.jumps) fun b _ => ?_)
  rw [Block.subst, Block.mapInstrs, List.countP_map]
  exact (List.countP_congr fun i _ => by rw [Function.comp_apply, Instr.subst, hP]).le

theorem shrinks_removeNullChoices (c : Cfg) : c.Shrinks P (removeNullChoices c).cfg :=
  .mapBlocks (fun _ => rfl) (fun b _ => .refl b.jumps) fun _ _ => List.filter_sublist.countP_le

theorem shrinks_minimize (hP : ∀ f i, P (i.mapOperands f) = P i) (c : Cfg) (rounds : Nat) :
    c.Shrinks P (minimize rounds c).cfg :=
  minimize_induction (P := c.Shrinks P) (fun c' r _ h => h.trans (shrinks_apply hP c' r))
    (fun c' h => h.trans (shrinks_removeNullChoices c')) (.refl P c) rounds

/-! ## Renaming to the end -/

/-- Nothing is found where no phi yields one source. -/
theorem findRenamable?_eq_none : findRenamable? c = none ↔ ∀ b ∈ c.blocks, ∀ dest sources,
    .phi dest sources ∈ b.body → singleSource? dest sources = none := by
  have hbody : ∀ b : Block, b.body.zipIdx.findSome? (renamable? b.label) = none ↔ ∀ dest sources,
      .phi dest sources ∈ b.body → singleSource? dest sources = none := by
    intro b
    rw [List.findSome?_eq_none_iff]
    constructor
    · intro h dest sources hi
      obtain ⟨n, hn⟩ := List.mem_iff_getElem?.1 hi
      exact Option.map_eq_none_iff.1 (h (_, n) (List.mem_zipIdx_iff_getElem?.2 hn))
    · rintro h ⟨i, n⟩ he
      cases i with
      | phi dest sources =>
        have hi := List.mem_of_getElem? (List.mem_zipIdx_iff_getElem?.1 he)
        exact Option.map_eq_none_iff.2 (h dest sources hi)
      | _ => rfl
  simp only [findRenamable?, List.findSome?_eq_none_iff, hbody]

/-- What is found is a phi that yields one source, at its place in a block with its label. -/
theorem exists_of_findRenamable? {r : Renamable} (h : findRenamable? c = some r) :
    ∃ b ∈ c.blocks, b.label = r.block ∧ ∃ sources, b.body[r.index]? = some (.phi r.dest sources) ∧
      singleSource? r.dest sources = some r.source := by
  obtain ⟨b, hb, h⟩ := List.exists_of_findSome?_eq_some h
  obtain ⟨⟨i, n⟩, he, h⟩ := List.exists_of_findSome?_eq_some h
  have hi := List.mem_zipIdx_iff_getElem?.1 he
  cases i with
  | phi dest sources =>
    obtain ⟨source, hs, rfl⟩ := Option.map_eq_some_iff.1 h
    exact ⟨b, hb, rfl, sources, hi, hs⟩
  | _ => cases h

/-- The number of instructions in the bodies. -/
abbrev bodySize (c : Cfg) : Nat := c.count fun _ => true

/-- Renaming takes an instruction away. -/
theorem bodySize_apply_lt {r : Renamable} (h : findRenamable? c = some r) : bodySize (apply c r) < bodySize c := by
  obtain ⟨b, hb, hlabel, sources, hi, -⟩ := exists_of_findRenamable? h
  have hlt := (List.getElem?_eq_some_iff.1 hi).1
  have hsubst : bodySize (apply c r) =
      bodySize (c.modify r.block fun b => { b with body := b.body.eraseIdx r.index }) := by
    simp [apply, bodySize, Cfg.count_eq_sum, Cfg.subst, Cfg.mapBlocks, Block.subst, Block.mapInstrs,
      Function.comp_def]
  rw [hsubst]
  refine Cfg.count_mapBlocks_lt (fun d _ => ?_) ⟨b, hb, ?_⟩
  · split
    · exact (List.eraseIdx_sublist ..).countP_le
    · exact le_rfl
  · simp only [if_pos hlabel, List.countP_true, List.length_eraseIdx, if_pos hlt]
    omega

theorem findRenamable?_renameUpTo {n : Nat} (h : bodySize c ≤ n) : findRenamable? (renameUpTo n c).1 = none := by
  induction n generalizing c with
  | zero =>
    cases hr : findRenamable? c with
    | none => exact hr
    | some r =>
      have := bodySize_apply_lt hr
      omega
  | succ n ih =>
    unfold renameUpTo
    cases hr : findRenamable? c with
    | none => exact hr
    | some r =>
      have := bodySize_apply_lt hr
      exact ih (by omega)

theorem findRenamable?_rename (c : Cfg) : findRenamable? (rename c).cfg = none := by
  refine findRenamable?_renameUpTo ?_
  rw [bodySize, Cfg.count, List.countP_true, Cfg.size, Cfg.bodies, Cfg.instrs, List.length_flatMap,
    List.length_flatMap]
  exact List.sum_le_sum fun b _ => by simp [Block.instrs]

/-! ## Redundant phis -/

/-- No phi yields one of its sources, or itself alone. -/
structure Irredundant (c : Cfg) : Prop where
  renamed : findRenamable? c = none
  removed : ∀ b ∈ c.blocks, ∀ i ∈ b.body, isNullChoice i = false

theorem irredundant_removeNullChoices (h : findRenamable? c = none) : Irredundant (removeNullChoices c).cfg := by
  refine ⟨findRenamable?_eq_none.2 fun b' hb' dest sources hi => ?_, fun b' hb' i hi => ?_⟩ <;>
    obtain ⟨b, hb, rfl⟩ := Cfg.mem_mapBlocks.1 hb'
  · exact findRenamable?_eq_none.1 h b hb dest sources (List.mem_filter.1 hi).1
  · simpa using (List.mem_filter.1 hi).2

/-- One round is enough to delete what is redundant. -/
theorem irredundant_minimize (rounds : Nat) (c : Cfg) : Irredundant (minimize (rounds + 1) c).cfg := by
  have hround : Irredundant (removeNullChoices (rename c).cfg).cfg :=
    irredundant_removeNullChoices (findRenamable?_rename c)
  induction rounds generalizing c with
  | zero =>
    unfold minimize
    dsimp only
    split <;> exact hround
  | succ rounds ih =>
    unfold minimize
    dsimp only
    split
    · exact ih _ (irredundant_removeNullChoices (findRenamable?_rename _))
    · exact hround

/-- Where no phi is redundant, none has just one source. -/
theorem Irredundant.isChoice (h : Irredundant c) {b : Block} (hb : b ∈ c.blocks) {i : Instr} (hi : i ∈ b.body)
    (hphi : i.isPhi = true) : i.isChoice = true := by
  cases i with
  | phi dest sources =>
    have hnull := h.removed b hb _ hi
    have hsingle := findRenamable?_eq_none.1 h.renamed b hb dest sources hi
    by_contra hne
    have hlength : sources.operands.length = 1 := by
      simpa [Instr.isChoice, Instr.isPhi, Instr.sources?, PhiSources.labels, PhiSources.operands] using hne
    obtain ⟨o, ho⟩ := List.length_eq_one_iff.1 hlength
    have hempty : sources.isEmpty = false := by
      rw [PhiSources.isEmpty, List.isEmpty_eq_false_iff, ← List.length_pos_iff, ← List.length_map Prod.snd]
      exact Nat.lt_of_lt_of_eq Nat.one_pos hlength.symm
    cases hreads : o.reads dest with
    | true => simp [isNullChoice, hempty, ho, hreads] at hnull
    | false => simp [singleSource?, ho, hreads, List.eraseDups_cons] at hsingle
  | _ => cases hphi

theorem Irredundant.count_isPhi (h : Irredundant c) : c.count Instr.isPhi = c.count Instr.isChoice := by
  refine List.countP_congr fun i hi => ?_
  obtain ⟨b, hb, hi⟩ := List.mem_flatMap.1 hi
  exact ⟨h.isChoice hb hi, Instr.isPhi_of_isChoice⟩

end PhiMinimization

end ThreeAddress

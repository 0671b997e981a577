import Mathlib.Data.List.InsertIdx
import ThreeAddress.PhiMinimization
import ThreeAddress.Proofs.Respelling.Basic
/-!
# Deleting phis of respelled code

Whether a phi is redundant, and the place of the first one that is, do not depend on how names are spelled. So the
deletion of phis takes the same turns on a respelled graph, and leaves the respelled result
(`PhiMinimization.cfg_minimize_respell`). The turns go on as long as something changes; what is compared is the graph
and whether it is said to have changed.
-/

namespace ThreeAddress.PhiMinimization

variable (σ : Respelling) (c : Cfg)

/-! ## Phis that yield themselves -/

theorem isNullChoice_respell (i : Instr) : isNullChoice (i.respell σ) = isNullChoice i := by
  cases i <;> simp [isNullChoice, Instr.respell, Function.comp_def]

theorem cfg_removeNullChoices_respell :
    (removeNullChoices (c.respell σ)).cfg = (removeNullChoices c).cfg.respell σ :=
  c.mapBlocks_respell σ fun b => by
    simp [Block.respell, Block.mapInstrs, List.filter_map, Function.comp_def, isNullChoice_respell]

/-- Something is deleted just where some phi yields itself. -/
theorem changed_removeNullChoices :
    (removeNullChoices c).changed = c.blocks.any fun b => b.body.any isNullChoice := by
  rw [Bool.eq_iff_iff]
  simp [removeNullChoices]

theorem changed_removeNullChoices_respell :
    (removeNullChoices (c.respell σ)).changed = (removeNullChoices c).changed := by
  simp [changed_removeNullChoices, Function.comp_def, isNullChoice_respell]

/-! ## Phis that yield one source -/

theorem singleSource?_respell (dest : Temp) (sources : PhiSources) :
    singleSource? (σ dest) (sources.respell σ) = (singleSource? dest sources).map (Operand.respell σ) := by
  have hothers : ((sources.respell σ).operands.filter (!·.reads (σ dest))).eraseDups =
      ((sources.operands.filter (!·.reads dest)).eraseDups).map (Operand.respell σ) := by
    rw [PhiSources.operands_respell, List.filter_map, eraseDups_map (Operand.respell_injective σ)]
    simp [Function.comp_def]
  unfold singleSource?
  rw [hothers]
  generalize (sources.operands.filter (!·.reads dest)).eraseDups = others
  rcases others with - | ⟨o, - | _⟩ <;> rfl

def Renamable.respell (r : Renamable) : Renamable := ⟨r.block, r.index, σ r.dest, r.source.respell σ⟩

theorem renamable?_respell (l : Label) (i : Instr) (n : Nat) :
    renamable? l (i.respell σ, n) = (renamable? l (i, n)).map (Renamable.respell σ) := by
  cases i with
  | phi dest sources =>
    simp only [Instr.respell, renamable?, singleSource?_respell]
    cases singleSource? dest sources <;> rfl
  | _ => rfl

theorem findRenamable?_respell : findRenamable? (c.respell σ) = (findRenamable? c).map (Renamable.respell σ) := by
  have hbody : ∀ (l : Label) (is : List Instr) (n : Nat),
      ((is.map (Instr.respell σ)).zipIdx n).findSome? (renamable? l) =
        ((is.zipIdx n).findSome? (renamable? l)).map (Renamable.respell σ) := by
    intro l is
    induction is with
    | nil => exact fun _ => rfl
    | cons i is ih =>
      intro n
      rw [List.map_cons, List.zipIdx_cons, List.zipIdx_cons, List.findSome?_cons, List.findSome?_cons,
        renamable?_respell, ih]
      cases renamable? l (i, n) <;> rfl
  simp only [findRenamable?, Cfg.blocks_respell]
  induction c.blocks with
  | nil => rfl
  | cons b bs ih =>
    rw [List.map_cons, List.findSome?_cons, List.findSome?_cons, Block.body_respell, Block.label_respell, hbody, ih]
    cases (b.body.zipIdx).findSome? (renamable? b.label) <;> rfl

theorem apply_respell (r : Renamable) : apply (c.respell σ) (r.respell σ) = (apply c r).respell σ := by
  have herase : ∀ b : Block, ({ b.respell σ with body := (b.respell σ).body.eraseIdx r.index } : Block) =
      ({ b with body := b.body.eraseIdx r.index } : Block).respell σ := by
    intro b
    simp [Block.respell, Block.mapInstrs, List.eraseIdx_map]
  unfold apply
  rw [← Cfg.subst_respell]
  exact congrArg (Cfg.subst · (σ r.dest) (r.source.respell σ)) (c.modify_respell σ r.block herase)

theorem renameUpTo_respell (n : Nat) : (renameUpTo n (c.respell σ)).1 = (renameUpTo n c).1.respell σ ∧
    (renameUpTo n (c.respell σ)).2.isEmpty = (renameUpTo n c).2.isEmpty := by
  induction n generalizing c with
  | zero => exact ⟨rfl, rfl⟩
  | succ n ih =>
    unfold renameUpTo
    rw [findRenamable?_respell]
    cases findRenamable? c with
    | none => exact ⟨rfl, rfl⟩
    | some r =>
      simp only [Option.map_some, apply_respell]
      exact ⟨(ih (apply c r)).1, rfl⟩

/-! ## The pass -/

/-- Every round finds the same to delete. -/
theorem cfg_minimize_respell (rounds : Nat) :
    (minimize rounds (c.respell σ)).cfg = (minimize rounds c).cfg.respell σ := by
  induction rounds generalizing c with
  | zero => rfl
  | succ rounds ih =>
    have hcfg : (rename (c.respell σ)).cfg = (rename c).cfg.respell σ := by
      rw [rename, rename, Cfg.size_respell]
      exact (renameUpTo_respell σ c c.size).1
    have hchanged : (rename (c.respell σ)).changed = (rename c).changed := by
      rw [rename, rename, Cfg.size_respell]
      exact congrArg (!·) (renameUpTo_respell σ c c.size).2
    unfold minimize
    simp only [hcfg, hchanged, changed_removeNullChoices_respell, cfg_removeNullChoices_respell]
    split
    · exact ih _
    · rfl

end ThreeAddress.PhiMinimization

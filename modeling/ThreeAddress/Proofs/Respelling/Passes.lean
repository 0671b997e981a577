import ThreeAddress.Proofs.Pipeline
import ThreeAddress.Proofs.Respelling.Constants
import ThreeAddress.Proofs.Respelling.Phis
import ThreeAddress.Proofs.Respelling.Subexprs
/-!
# Passes over respelled code

Copies are found by their destinations and followed by their sources, so that the same ones are deleted under other
names (`CopyPropagation.cfg_propagate_respell`). With that each pass does the same on a respelled graph. It finds the
same defects of the graph and a violation of SSA form just if there was one, so a list of passes ends on both graphs or
on neither, and the graphs that it leaves are respelled in the same way (`runPasses_respell`).
-/

namespace ThreeAddress

variable (σ : Respelling)

/-! ## Copies -/

namespace CopyPropagation

theorem writes_respell (c : Cfg) (t : Temp) : writes (c.respell σ) (σ t) = writes c t := by
  rw [writes, Cfg.bodies_respell, List.filter_map, List.length_map, writes]
  simp [Function.comp_def]

theorem isPropagatable_respell (c : Cfg) (dest : Temp) (source : Operand) :
    isPropagatable (c.respell σ) (σ dest) (source.respell σ) = isPropagatable c dest source := by
  cases source <;> simp [isPropagatable, Operand.respell, writes_respell]

/-- A copy under other names. -/
def respellCopy (e : Temp × Operand) : Temp × Operand := (σ e.1, e.2.respell σ)

theorem lookup_respell (copies : List (Temp × Operand)) (t : Temp) :
    (copies.map (respellCopy σ)).lookup (σ t) = (copies.lookup t).map (Operand.respell σ) :=
  lookup_map σ.injective _ t copies

theorem candidates_respell (c : Cfg) : candidates (c.respell σ) = (candidates c).map (respellCopy σ) := by
  rw [candidates, Cfg.bodies_respell, List.filterMap_map, candidates, List.map_filterMap]
  refine List.filterMap_congr fun i _ => ?_
  cases i with
  | copy dest source =>
    simp only [Function.comp_apply, Instr.respell, isPropagatable_respell]
    split <;> rfl
  | _ => rfl

theorem follow_respell (copies : List (Temp × Operand)) (n : Nat) (o : Operand) :
    follow (copies.map (respellCopy σ)) n (o.respell σ) = (follow copies n o).map (Operand.respell σ) := by
  induction n generalizing o with
  | zero => rfl
  | succ n ih =>
    cases o with
    | imm v => rfl
    | temp t =>
      simp only [Operand.respell, follow, lookup_respell]
      cases copies.lookup t with
      | none => rfl
      | some next => exact ih next

theorem resolved_respell (c : Cfg) : resolved (c.respell σ) = (resolved c).map (respellCopy σ) := by
  simp only [resolved, candidates_respell, List.length_map, List.filterMap_map, List.map_filterMap]
  refine List.filterMap_congr fun e _ => ?_
  have hfollow := follow_respell σ (candidates c) (candidates c).length e.2
  simp only [Function.comp_apply, respellCopy, hfollow, Option.map_map]
  rfl

theorem isDeleted_respell (copies : List (Temp × Operand)) (i : Instr) :
    isDeleted (copies.map (respellCopy σ)) (i.respell σ) = isDeleted copies i := by
  cases i <;> simp [isDeleted, Instr.respell, lookup_respell]

theorem replace_respell (copies : List (Temp × Operand)) (o : Operand) :
    replace (copies.map (respellCopy σ)) (o.respell σ) = (replace copies o).respell σ := by
  cases o with
  | imm v => rfl
  | temp t =>
    simp only [Operand.respell, replace, lookup_respell]
    cases copies.lookup t <;> rfl

/-- The respelled graph loses the same copies. -/
theorem cfg_propagate_respell (c : Cfg) : (propagate (c.respell σ)).cfg = (propagate c).cfg.respell σ := by
  unfold propagate
  rw [resolved_respell]
  refine c.mapBlocks_respell σ fun b => ?_
  have hinstr : ∀ i : Instr, (i.respell σ).mapOperands (replace ((resolved c).map (respellCopy σ))) =
      (i.mapOperands (replace (resolved c))).respell σ :=
    fun i => i.mapOperands_respell σ (replace_respell σ (resolved c))
  simp [replaceIn, Block.respell, Block.mapInstrs, List.filter_map, Function.comp_def, isDeleted_respell, hinstr]

end CopyPropagation

/-! ## Any pass -/

namespace Pass

theorem cfg_apply_respell (p : Pass) (c : Cfg) : (p.apply (c.respell σ)).1.cfg = (p.apply c).1.cfg.respell σ := by
  cases p with
  | minimizePhis rounds => exact PhiMinimization.cfg_minimize_respell σ c (max rounds 1)
  | foldConstants => exact (Constants.foldConstants_respell σ c).1
  | eliminateSubexprs => exact CommonSubexpr.cfg_eliminate_respell σ c
  | propagateCopies => exact CopyPropagation.cfg_propagate_respell σ c

theorem isSome_apply_respell (p : Pass) (c : Cfg) : (p.apply (c.respell σ)).2.isSome = (p.apply c).2.isSome := by
  cases p with
  | foldConstants => exact (Constants.foldConstants_respell σ c).2
  | _ => rfl

/-- A pass succeeds where it reports no violation and leaves a valid graph. -/
theorem isOk_run (p : Pass) (c : Cfg) :
    (p.run c).isOk = ((p.apply c).2.isNone && (p.apply c).1.cfg.validate.isOk) := by
  simp only [run]
  cases (p.apply c).2 with
  | some u => rfl
  | none => cases (p.apply c).1.cfg.validate <;> rfl

/-- A pass fails on both graphs, or it leaves respelled graphs. -/
theorem run_respell (p : Pass) (c : Cfg) :
    (∃ e e', p.run c = .error e ∧ p.run (c.respell σ) = .error e') ∨
      ∃ r r', p.run c = .ok r ∧ p.run (c.respell σ) = .ok r' ∧ r'.cfg = r.cfg.respell σ := by
  have hok : (p.run (c.respell σ)).isOk = (p.run c).isOk := by
    have hsome := p.isSome_apply_respell σ c
    rw [isOk_run, isOk_run, cfg_apply_respell, Cfg.validate_respell, ← Option.not_isSome, hsome, Option.not_isSome]
  cases hr : p.run c with
  | error e =>
    cases hr' : p.run (c.respell σ) with
    | error e' => exact .inl ⟨e, e', rfl, rfl⟩
    | ok r' => simp [hr, hr', Except.isOk, Except.toBool] at hok
  | ok r =>
    cases hr' : p.run (c.respell σ) with
    | error e' => simp [hr, hr', Except.isOk, Except.toBool] at hok
    | ok r' => exact .inr ⟨r, r', rfl, rfl, by rw [cfg_of_run hr', cfg_apply_respell, cfg_of_run hr]⟩

end Pass

/-- So it is with passes in a row. -/
theorem runPasses_respell (passes : List Pass) (c : Cfg) :
    (∃ e e', runPasses passes c = .error e ∧ runPasses passes (c.respell σ) = .error e') ∨
      ∃ r r', runPasses passes c = .ok r ∧ runPasses passes (c.respell σ) = .ok r' ∧ r'.cfg = r.cfg.respell σ := by
  induction passes generalizing c with
  | nil => exact .inr ⟨_, _, rfl, rfl, rfl⟩
  | cons p passes ih =>
    rcases p.run_respell σ c with ⟨e, e', he, he'⟩ | ⟨first, first', hfirst, hfirst', hcfg⟩
    · exact .inl ⟨e, e', bind_eq_error.2 (.inl he), bind_eq_error.2 (.inl he')⟩
    · rcases ih first.cfg with ⟨e, e', he, he'⟩ | ⟨rest, rest', hrest, hrest', hcfg'⟩
      · rw [← hcfg] at he'
        exact .inl ⟨e, e', bind_eq_error.2 (.inr ⟨first, hfirst, bind_eq_error.2 (.inl he)⟩),
          bind_eq_error.2 (.inr ⟨first', hfirst', bind_eq_error.2 (.inl he')⟩)⟩
      · rw [← hcfg] at hrest'
        exact .inr ⟨_, _, bind_eq_ok.2 ⟨first, hfirst, bind_eq_ok.2 ⟨rest, hrest, rfl⟩⟩,
          bind_eq_ok.2 ⟨first', hfirst', bind_eq_ok.2 ⟨rest', hrest', rfl⟩⟩, hcfg'⟩

end ThreeAddress

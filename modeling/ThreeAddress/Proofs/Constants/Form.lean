import ThreeAddress.Proofs.Constants.Folding
import ThreeAddress.Proofs.Improvement
/-!
# Folding constants restores SSA form

The edges that are left are those that the analysis found to execute, and these are also the ones that
phis keep sources for.
-/

namespace ThreeAddress.Constants

variable {f : Facts} {c : Cfg}

theorem eq_of_fold {o : Operand} {t : Temp} (h : fold f o = .temp t) : o = .temp t := by
  cases o with
  | imm k => cases h
  | temp u =>
    simp only [fold] at h
    split at h
    · cases h
    · exact h

theorem fold_global (hf : f.Closed c) {t : Temp} (ht : t.isGlobal = true) :
    fold f (.temp t) = .temp t := by
  simp [fold, hf.value_of_global ht, Value.constant?]

/-- The jumps that remain read nothing new. -/
theorem mem_uses_resolveJumps {js : List Instr} {j : Instr} (hj : j ∈ resolveJumps f js) {o : Operand}
    (ho : o ∈ j.uses) : ∃ i ∈ js, o ∈ i.uses := by
  rcases mem_resolveJumps hj with hnil | ⟨hj, -⟩
  · rw [hnil] at ho
    cases ho
  · exact ⟨j, hj, ho⟩

/-- The edges that are left are those that execute. -/
theorem edge_folded {k l : Label} : (Folding.folded ⟨analyze c, c⟩).Edge k l ↔
    (analyze c).follows k l = true := by
  constructor
  · rintro ⟨b', hb', rfl, ht⟩
    obtain ⟨b, hb, hx, rfl⟩ := mem_folded.1 hb'
    rw [targets_foldBlock] at ht
    have hfollows : (analyze c).follows b.label l = true := (Facts.closed_analyze c).edge hb hx ht
    exact hfollows
  · intro h
    obtain ⟨b, hb, hx, rfl, ht⟩ := Facts.open_of_follows h
    exact ⟨_, mem_folded.2 ⟨b, hb, hx, rfl⟩, rfl, targets_foldBlock _ b ▸ ht⟩

theorem tidy_folded (c : Cfg) :
    (rewriting (analyze c)).Tidy (fun b => !isDead (analyze c) c b)
      (fun b => (foldBlock (analyze c) b).jumps) c (Folding.folded ⟨analyze c, c⟩) := by
  have hf := Facts.closed_analyze c
  refine ⟨rfl, folded_blocks _ c, ?_, ?_, ?_, ?_, ?_, ?_⟩
  · intro b _ t ht
    have ht : t ∈ (foldBlock (analyze c) b).targets := ht
    rw [targets_foldBlock] at ht
    exact Facts.mem_targets_of_openTargets ht
  · intro b _ j' hj' o' ho'
    obtain ⟨j, hj, rfl⟩ := List.mem_map.1 hj'
    obtain ⟨o, ho, rfl⟩ := Instr.mem_uses_mapOperands.1 ho'
    obtain ⟨i, hi, hoi⟩ := mem_uses_resolveJumps hj ho
    exact ⟨i, hi, o, hoi, rfl⟩
  · exact fun o t ho _ => .inl (eq_of_fold ho)
  · exact fun t ht => fold_global hf ht
  · exact fun o t ho _ => eq_of_fold ho
  · exact fun b _ _ l _ => edge_folded.symm

theorem ssaForm_folded {params : List Temp} (h : c.SsaForm params) :
    (Folding.folded ⟨analyze c, c⟩).SsaForm params :=
  have hclosed := closed_folded h.closed
  (tidy_folded c).ssaForm h hclosed.toValid hclosed.endsOnce

/-- Folding constants keeps the form and all that the graph does. -/
theorem improves_folded {env : Surroundings} {params : List Temp} (h : c.SsaForm params)
    (hparams : ∀ t ∈ params, t.isVersioned = false) :
    c.Improves env params (Folding.folded ⟨analyze c, c⟩) where
  ssaForm := ssaForm_folded h
  refines := refines_folded h.toValid h.phisFirst hparams
  keeps := (tidy_folded c).keeps
  keyed := (tidy_folded c).keyed

end ThreeAddress.Constants

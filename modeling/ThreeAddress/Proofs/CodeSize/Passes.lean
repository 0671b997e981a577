import ThreeAddress.Proofs.CodeSize.Phis
import ThreeAddress.Proofs.Pipeline
/-!
# Passes make no code

No pass leaves more instructions of a kind than there were: deleting and rewriting instructions one by one makes no
more of them, a computation becomes one copy, and folding deletes blocks together with all jumps to them
(`Pass.shrinks_apply`, `shrinks_runPasses`).
-/

namespace ThreeAddress

variable {P : Instr → Bool} {c : Cfg}

/-! ## Rewriting and reuse -/

namespace Rewriting

theorem countP_body_le (hP : Instr.Coarse P) (r : Rewriting) (l : Label) (is : List Instr) :
    (r.body l is).countP P ≤ is.countP P := by
  have hinstr : P ∘ r.instr l = P := funext fun i => hP (r.isPhi_instr l i) (r.label?_instr l i)
  rw [body, List.countP_map, hinstr]
  exact List.filter_sublist.countP_le

theorem shrinks (hP : Instr.Coarse P) (r : Rewriting) (c : Cfg) : c.Shrinks P (c.mapBlocks r.block) :=
  .mapBlocks (fun _ => rfl) (fun b _ => .map (fun _ => rfl) b.jumps) fun b _ => r.countP_body_le hP b.label b.body

end Rewriting

namespace Cfg

theorem Reused.countP_eq (hP : Instr.Coarse P) {l : Label} {pre is is' : List Instr} (h : c.Reused l pre is is') :
    is'.countP P = is.countP P := by
  induction h with
  | nil => rfl
  | cons hi _ ih => rw [List.countP_cons, List.countP_cons, ih, hP hi.isPhi_eq hi.label?_eq]

theorem Reuses.shrinks (hP : Instr.Coarse P) {f : Block → List Instr} (h : c.Reuses f) :
    c.Shrinks P (c.withBodies f) :=
  .mapBlocks (fun _ => rfl) (fun b _ => .refl b.jumps) fun b hb => ((h b hb).countP_eq hP).le

end Cfg

theorem CommonSubexpr.shrinks_eliminate (hP : Instr.Coarse P) (h : c.Valid) : c.Shrinks P (eliminate c).cfg := by
  have hlocal := reuses_local c
  refine (hlocal.shrinks hP).trans ?_
  exact eliminateGlobal_induction (hlocal.valid h) (.refl P _) fun hc' hshrinks hd =>
    hshrinks.trans ((reuses_visit hc' fun k hk => (hd k hk).2).shrinks hP)

/-! ## Folding -/

namespace Constants

variable {f : Facts}

theorem resolveJumps_ne_nil (f : Facts) (js : List Instr) : resolveJumps f js ≠ [] := by
  unfold resolveJumps
  dsimp only
  split
  · simp
  · intro hnil
    simp_all [isOpen]

theorem fewer_resolveJumps {branches : List Instr} {last : Instr}
    (hb : ∀ j ∈ branches, ∃ cond v l, j = .branch cond v l) (hl : last.isFinal = true) (f : Facts) :
    Fewer (resolveJumps f (branches ++ [last])) (branches ++ [last]) := by
  induction branches with
  | nil =>
    cases last with
    | jump l => exact .refl _
    | ret v? =>
      cases v? with
      | none => exact .refl _
      | some v =>
        rw [List.nil_append, resolveJumps_ret]
        split
        · exact .inr ⟨le_rfl, fun t ht => by cases ht⟩
        · exact .refl _
    | _ => cases hl
  | cons j branches ih =>
    obtain ⟨⟨cond, v, l, rfl⟩, hbranches⟩ := List.forall_mem_cons.1 hb
    have hrest := ih hbranches
    rw [List.cons_append]
    cases hv : f.operand v with
    | unused =>
      refine .inl ?_
      simp [resolveJumps_unused hv]
    | varies =>
      rw [resolveJumps_varies hv]
      exact hrest.cons (resolveJumps_ne_nil f _) (by simp) _
    | constant k =>
      refine .inl ?_
      by_cases hk : cond.holds k
      · simp [resolveJumps_taken hv hk]
      · rw [resolveJumps_skipped hv hk]
        exact Nat.lt_succ_of_le hrest.length_le

theorem fewer_foldBlock {b : Block} (h : b.EndsOnce) (f : Facts) : Fewer (foldBlock f b).jumps b.jumps := by
  obtain ⟨branches, last, hj, hb, hl⟩ := h
  have hfewer := fewer_resolveJumps hb hl f
  rw [← hj] at hfewer
  exact (Fewer.map (fun _ => rfl) _).trans hfewer

theorem shrinks_folded (hP : Instr.Coarse P) (h : c.Closed) : c.Shrinks P (Folding.folded ⟨analyze c, c⟩) := by
  have hlabel : ∀ b, (foldBlock (analyze c) b).label = b.label := fun _ => rfl
  have hjumps : ∀ b ∈ c.blocks, Fewer (foldBlock (analyze c) b).jumps b.jumps :=
    fun b hb => fewer_foldBlock (h.endsOnce b hb) _
  refine .of_blocks hlabel (folded_blocks (analyze c) c) (fun b hb hkeep d hd ht => ?_) (fun b hb _ => hjumps b hb)
    fun b _ => (rewriting (analyze c)).countP_body_le hP b.label b.body
  -- what a block that executes still jumps to executes as well
  have hx := executes_of_not_isDead (by simpa using hkeep)
  have hmem := (valid_folded h.toValid).target _ (mem_folded.2 ⟨b, hb, hx, rfl⟩) d.label ht
  simpa using not_isDead_of_executes (c := c) (mem_labels_folded.1 hmem).2

end Constants

/-! ## Any pass -/

theorem Pass.shrinks_apply (hP : Instr.Coarse P) (p : Pass) (h : c.Closed) : c.Shrinks P (p.apply c).1.cfg := by
  cases p with
  | minimizePhis rounds =>
    have hsubst : ∀ f i, P (Instr.mapOperands f i) = P i :=
      fun f i => hP (Instr.isPhi_mapOperands f i) (Instr.label?_mapOperands f i)
    exact PhiMinimization.shrinks_minimize hsubst c _
  | foldConstants => exact Constants.shrinks_folded hP h
  | eliminateSubexprs => exact CommonSubexpr.shrinks_eliminate hP h.toValid
  | propagateCopies =>
    have hrewriting := (CopyPropagation.rewriting c).shrinks hP c
    rwa [← CopyPropagation.propagate_cfg] at hrewriting

theorem shrinks_runPasses (hP : Instr.Coarse P) {passes : List Pass} {r : Transformed} (h : c.Closed)
    (hr : runPasses passes c = .ok r) : c.Shrinks P r.cfg := by
  induction passes generalizing c r with
  | nil =>
    cases hr
    exact .refl P c
  | cons p passes ih =>
    obtain ⟨r', hr', heq⟩ := runPasses_cons hr
    exact heq ▸ (p.shrinks_apply hP h).trans (ih (p.closed_apply h) hr')

end ThreeAddress

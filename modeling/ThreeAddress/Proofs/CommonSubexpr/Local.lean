import ThreeAddress.CommonSubexpr.Elimination
import ThreeAddress.Proofs.CommonSubexpr.Held
import ThreeAddress.Proofs.CommonSubexpr.Reuse
/-!
# Reusing expressions within blocks

The expressions with which a block is read are available: they have been computed before in the block,
and their temporaries still hold their values (`truthful_after`). So the body does what it did
(`body_reuseBody`).
-/

namespace ThreeAddress.CommonSubexpr

variable {params : List Temp} {c : Cfg}

/-! ## What is available -/

/-- What is available behind an instruction was so before and is spared, or is computed by it. -/
theorem mem_after {av : Available} {i : Instr} {e : Expr} {t : Temp} (h : (e, t) ∈ av.after i) :
    ((e, t) ∈ av ∧ i.Spares e t) ∨ (i.dest? = some t ∧ Available.computed? i t = some e) := by
  unfold Available.after at h
  split at h
  · rename_i hdest
    exact .inl ⟨h, fun x hx => by simp [hdest] at hx⟩
  · rename_i dest hdest
    have hkill : ∀ {e t}, (e, t) ∈ av.kill dest → (e, t) ∈ av ∧ i.Spares e t := by
      intro e t h
      obtain ⟨hmem, hspared⟩ := List.mem_filter.1 h
      exact ⟨hmem, Instr.spares_of_dest hdest hspared⟩
    split at h
    · rename_i x hx
      dsimp only at h
      split at h
      · exact .inl (hkill h)
      · rcases List.mem_append.1 h with h | h
        · exact .inl (hkill h)
        · obtain ⟨rfl, rfl⟩ := Prod.mk.inj (List.mem_singleton.1 h)
          exact .inr ⟨hdest, hx⟩
    · exact .inl (hkill h)

theorem mem_foldl_after {group : List Instr} (hphis : ∀ i ∈ group, i.isPhi = true) {av : Available}
    {e : Expr} {t : Temp} (h : (e, t) ∈ group.foldl Available.after av) :
    (e, t) ∈ av ∧ ∀ i ∈ group, i.Spares e t := by
  induction group generalizing av with
  | nil => exact ⟨h, nofun⟩
  | cons i group ih =>
    obtain ⟨hmem, hgroup⟩ := ih (fun j hj => hphis j (.tail _ hj)) h
    have hi := Available.computed?_of_isPhi (hphis i List.mem_cons_self) t
    obtain ⟨hmem, hspares⟩ := (mem_after hmem).resolve_right fun ⟨_, hc⟩ => by simp [hi] at hc
    exact ⟨hmem, List.forall_mem_cons.2 ⟨hspares, hgroup⟩⟩

theorem truthful_after {calls : Calls} {is : List Instr} {σ σ' : Store} {av : Available} {i : Instr}
    (h : Truthful is σ fun e t => (e, t) ∈ av) (hl : σ.Lasting calls is) (hi : i ∈ is)
    (hexec : σ.Exec calls i σ') : Truthful is σ' fun e t => (e, t) ∈ av.after i :=
  h.exec hl hi hexec fun _ _ => mem_after

/-- What is available has been computed before. -/
def Computes (av : Available) (pre : List Instr) : Prop :=
  ∀ e t, (e, t) ∈ av → Result pre e t

theorem Computes.after {av : Available} {pre : List Instr} (h : Computes av pre) (i : Instr) :
    Computes (av.after i) (pre ++ [i]) := by
  intro e t hmem
  rcases mem_after hmem with ⟨hmem, -⟩ | ⟨hd, hcomputed⟩
  · obtain ⟨j, hj, hjet⟩ := h e t hmem
    exact ⟨j, List.mem_append_left _ hj, hjet⟩
  · exact ⟨i, by simp, (Option.filter_eq_some_iff.1 hcomputed).1, hd⟩

/-! ## The form -/

theorem replaced_reuse {l : Label} {av : Available} {pre : List Instr} (h : Computes av pre) (i : Instr) :
    c.Replaced l pre i (reuse av i) := by
  unfold reuse
  split
  · rename_i e x he hx
    split
    · rename_i t ht
      obtain ⟨j, hj, -, hjt⟩ := h e t (mem_of_lookup ht)
      exact .copy he hx (.inl ⟨j, hj, hjt⟩)
    · exact .same i
  · exact .same i

theorem reused_reuseBody {l : Label} {av : Available} {pre is : List Instr} (h : Computes av pre) :
    c.Reused l pre is (reuseBody av is) := by
  induction is generalizing av pre with
  | nil => exact .nil pre
  | cons i is ih => exact .cons (replaced_reuse h i) (ih (h.after i))

theorem reuses_local (c : Cfg) : c.Reuses fun b => reuseBody [] b.body :=
  fun _ _ => reused_reuseBody nofun

/-! ## Behaviour -/

theorem reuse_of_isPhi {i : Instr} (hi : i.isPhi = true) (av : Available) : reuse av i = i := by
  cases i <;> first | rfl | cases hi

@[simp] theorem isPhi_reuse (av : Available) (i : Instr) : (reuse av i).isPhi = i.isPhi := by
  unfold reuse
  split
  · rename_i e x he hx
    split
    · exact (Expr.plain_of_of? he).1.symm
    · rfl
  · rfl

theorem takeWhile_reuseBody (av : Available) (is : List Instr) :
    (reuseBody av is).takeWhile Instr.isPhi = is.takeWhile Instr.isPhi := by
  induction is generalizing av with
  | nil => rfl
  | cons i is ih =>
    by_cases hi : i.isPhi = true
    · simp [reuseBody, hi, ih, reuse_of_isPhi hi]
    · simp [reuseBody, hi]

theorem dropWhile_reuseBody (av : Available) (is : List Instr) :
    (reuseBody av is).dropWhile Instr.isPhi =
      reuseBody ((is.takeWhile Instr.isPhi).foldl Available.after av) (is.dropWhile Instr.isPhi) := by
  induction is generalizing av with
  | nil => rfl
  | cons i is ih =>
    by_cases hi : i.isPhi = true
    · simp [reuseBody, hi, ih]
    · simp [reuseBody, hi]

/-- Copies of what is available do what the computations did. -/
theorem exec_reuse {calls : Calls} {is : List Instr} {σ σ' : Store} {av : Available} {i : Instr}
    (h : Truthful is σ fun e t => (e, t) ∈ av) : σ.Exec calls (reuse av i) σ' ↔ σ.Exec calls i σ' := by
  unfold reuse
  split
  · rename_i e x he hx
    split
    · rename_i t ht
      exact (h e t (mem_of_lookup ht)).2.exec_copy_iff he hx
    · rfl
  · rfl

/-- A body that reuses what is available does what it did. -/
theorem body_reuseBody {calls : Calls} {is body : List Instr} {prev? : Option Label} {σ σ' : Store}
    {av : Available} (hsub : body ⊆ is) (hl : σ.Lasting calls is)
    (h : Truthful is σ fun e t => (e, t) ∈ av) :
    (Store.Body calls prev? (reuseBody av body) σ σ' ↔ Store.Body calls prev? body σ σ') ∧
      (Store.Body calls prev? body σ σ' → σ'.Lasting calls is) := by
  refine (Store.Body.carry_iff (R := fun body body' σ => body ⊆ is ∧ σ.Lasting calls is ∧
    ∃ av, (Truthful is σ fun e t => (e, t) ∈ av) ∧ body' = reuseBody av body) ?_ ?_
    ⟨hsub, hl, av, h, rfl⟩).imp_right fun h hbody => (h hbody).2.1
  · rintro _ σ ⟨-, -, av, -, rfl⟩
    rfl
  · rintro i body _ σ ⟨hsub, hl, av, h, rfl⟩
    have hi : i ∈ is := hsub List.mem_cons_self
    refine ⟨_, _, rfl, ⟨fun σ₁ => exec_reuse h, fun σ₁ hexec => ?_⟩, fun hphi => ?_⟩
    · exact ⟨fun j hj => hsub (.tail _ hj), hl.exec hi hexec, _, truthful_after h hl hi hexec, rfl⟩
    · have hphi : i.isPhi = true := by simpa using hphi
      have hgroup : ∀ j ∈ i :: body.takeWhile Instr.isPhi, j.isPhi = true :=
        List.forall_mem_cons.2 ⟨hphi, List.all_eq_true.1 List.all_takeWhile⟩
      refine ⟨reuse_of_isPhi hphi av, takeWhile_reuseBody _ _, fun l σ₁ hphis => ?_⟩
      exact ⟨fun j hj => hsub (.tail _ ((List.dropWhile_sublist _).subset hj)), hl.congr hphis.toMemory, _,
        h.phis hphis fun e t hmem => mem_foldl_after hgroup hmem, dropWhile_reuseBody _ _⟩

/-- Reuse within blocks keeps all that the graph does. -/
theorem refines_local {env : Surroundings} (hk : env.Keeps c.bodies) :
    c.Refines env params (eliminateLocal c).cfg := by
  intro calls σ f ho _ hrun
  refine hrun.simulate (R := fun _ _ σ τ => τ = σ ∧ σ.Lasting calls c.bodies) ?_ ⟨rfl, hk.lasting ho⟩
  rintro prev? l _ σ σ' b e ⟨rfl, hl⟩ hb hbody he
  have hsub : b.body ⊆ c.bodies := fun i hi => Cfg.mem_bodies.2 ⟨b, Cfg.mem_of_block? hb, hi⟩
  have hnone : Truthful c.bodies σ fun e t => (e, t) ∈ ([] : Available) := nofun
  obtain ⟨hiff, hl'⟩ := body_reuseBody hsub hl hnone
  exact ⟨_, σ', Cfg.block?_withBodies hb, hiff.2 hbody, he, rfl, fun _ _ => ⟨rfl, hl' hbody⟩⟩

end ThreeAddress.CommonSubexpr

import ThreeAddress.Proofs.Constants.Fixpoint
import ThreeAddress.Proofs.Fresh
import ThreeAddress.Proofs.LinearRun
/-!
# What the analysis of constants says of stores

Facts cover a store if each value that it holds is the constant that they say, or one of several.
Closed facts that cover a store keep covering it: behind each instruction of a block that executes
(`Covers.exec`), behind the phis of a block that is entered by an edge that executes (`Covers.phis`),
and where the jumps of a block lead is where they find that control can go (`Covers.exit`).
-/

namespace ThreeAddress.Constants.Facts

/-- Every value that a store holds is among those that the facts allow. -/
def Covers (f : Facts) (σ : Store) : Prop :=
  ∀ t v, σ.temp? t = some v → .constant v ≤ f.value t

variable {c : Cfg} {f : Facts}

/-! ## Names that vary -/

theorem Closed.value_of_not_versioned (hf : f.Closed c) {t : Temp} (ht : t.isVersioned = false) :
    f.value t = .varies := by
  have := hf.initial t
  rwa [Value.initial, if_neg (by simp [ht]), Value.varies_le] at this

theorem Closed.value_of_global (hf : f.Closed c) {t : Temp} (ht : t.isGlobal = true) :
    f.value t = .varies :=
  hf.value_of_not_versioned (Temp.isVersioned_of_global ht)

/-- Only the locals of a store matter. -/
theorem Closed.covers (hf : f.Closed c) {σ : Store}
    (h : ∀ t v, t.isGlobal = false → σ.locals.get? t = some v → .constant v ≤ f.value t) :
    f.Covers σ := by
  intro t v hv
  by_cases ht : t.isGlobal
  · exact hf.value_of_global ht ▸ Value.le_varies _
  · have ht : t.isGlobal = false := by simpa using ht
    exact h t v ht (Store.temp?_of_local ht σ ▸ hv)

/-- A procedure starts with values for its parameters alone. -/
theorem Closed.covers_start (hf : f.Closed c) {params : List Temp}
    (hp : ∀ t ∈ params, t.isVersioned = false) {σ : Store} (hσ : σ.OnlyParams params) : f.Covers σ := by
  refine hf.covers fun t v _ hv => ?_
  rw [hf.value_of_not_versioned (hp t (hσ t v hv))]
  exact Value.le_varies _

/-! ## Phis -/

theorem le_foldl_join (f : Facts) (os : List Operand) (a : Value) :
    a ≤ os.foldl (fun v o => v.join (f.operand o)) a ∧
      ∀ o ∈ os, f.operand o ≤ os.foldl (fun v o => v.join (f.operand o)) a := by
  induction os generalizing a with
  | nil => exact ⟨Value.le_refl a, by simp⟩
  | cons o os ih =>
    obtain ⟨h₁, h₂⟩ := ih (a.join (f.operand o))
    refine ⟨Value.le_trans (Value.le_join_left _ _) h₁, fun p hp => ?_⟩
    rcases List.mem_cons.1 hp with rfl | hp
    · exact Value.le_trans (Value.le_join_right _ _) h₁
    · exact h₂ p hp

/-- A phi takes in the source of every edge that executes. -/
theorem operand_le_phi {l p : Label} {sources : PhiSources} {o : Operand}
    (ho : sources.find? p = some o) (hp : f.follows p l = true) : f.operand o ≤ f.phi l sources := by
  refine (le_foldl_join f _ _).2 o (PhiSources.mem_operands (l := p) ?_)
  rw [PhiSources.find?_filter, if_pos hp, ho]

/-! ## What is kept -/

namespace Covers

variable {σ σ' : Store}

theorem operand (h : f.Covers σ) {o : Operand} {v : Int64} (ho : σ.value? o = some v) :
    .constant v ≤ f.operand o := by
  cases o with
  | temp t => exact h t v ho
  | imm k => cases ho; exact Value.le_refl _

/-- The result of an instruction is among those that it is evaluated to. -/
theorem result (h : f.Covers σ) {calls : Calls} {i : Instr} {vs : List Int64} {m m' : Memory}
    {w : Int64} (hv : i.uses.map σ.value? = vs.map some) (ha : i.Acts calls vs m m' (some w))
    (l : Label) : ∃ a, f.evaluate? l i = some a ∧ .constant w ≤ a := by
  cases i with
  | nop => simp [Instr.Acts] at ha
  | const d k =>
    obtain ⟨-, -, hw⟩ := ha
    cases hw
    exact ⟨_, rfl, Value.le_refl _⟩
  | copy d s =>
    obtain ⟨v, rfl, -, hw⟩ := ha
    cases hw
    exact ⟨_, rfl, h.operand (by simpa [Instr.uses] using hv)⟩
  | binary d op l r =>
    obtain ⟨u, v, k, rfl, he, -, hw⟩ := ha
    cases hw
    obtain ⟨hl, hr⟩ : σ.value? l = some u ∧ σ.value? r = some v := by simpa [Instr.uses] using hv
    simp only [evaluate?]
    rcases Value.constant_le.1 (h.operand hl) with hl | hl <;>
      rcases Value.constant_le.1 (h.operand hr) with hr | hr <;> simp only [hl, hr, binary?]
    · exact ⟨_, rfl, by simpa [he] using Value.le_refl _⟩
    all_goals exact ⟨_, rfl, Value.le_varies _⟩
  | unary d op o =>
    obtain ⟨v, rfl, -, hw⟩ := ha
    cases hw
    have ho : σ.value? o = some v := by simpa [Instr.uses] using hv
    simp only [evaluate?]
    rcases Value.constant_le.1 (h.operand ho) with ho | ho <;> simp only [ho, unary?]
    · exact ⟨_, rfl, Value.le_refl _⟩
    · exact ⟨_, rfl, Value.le_varies _⟩
  | param k o => simp [Instr.Acts] at ha
  | call d target argc => exact ⟨_, rfl, Value.le_varies _⟩
  | _ => exact absurd ha (by simp [Instr.Acts])

theorem exec (hf : f.Closed c) (h : f.Covers σ) {calls : Calls} {b : Block} {i : Instr}
    (hb : b ∈ c.blocks) (hx : f.executes b.label = true) (hi : i ∈ b.body) (he : σ.Exec calls i σ') :
    f.Covers σ' := by
  obtain ⟨vs, m, w, hv, ha, rfl⟩ := he
  refine hf.covers fun t v ht htv => ?_
  rw [← Store.temp?_of_local ht, Store.temp?_receive_local ht] at htv
  split at htv
  · rename_i hd
    subst htv
    obtain ⟨a, ha, hle⟩ := h.result hv ha b.label
    exact Value.le_trans hle (hf.value hb hx hi hd ha)
  · rw [Store.temp?_of_local ht, ← Store.temp?_of_local ht σ] at htv
    exact h t v htv

/-- A phi yields what one of its sources holds, that of an edge that executes. -/
theorem phis (hf : f.Closed c) (h : f.Covers σ) {b : Block} {l : Label} {group : List Instr}
    (hb : b ∈ c.blocks) (hl : f.follows l b.label = true) (hg : ∀ i ∈ group, i ∈ b.body)
    (hp : σ.Phis l group σ') : f.Covers σ' := by
  obtain ⟨ws, hws, rfl⟩ := hp
  refine hf.covers fun t v ht htv => ?_
  rcases Store.get?_putAll htv with hmem | htv
  · obtain ⟨sources, o, hi, ho, hv⟩ := Store.phiValues?_mem hws hmem
    have hle : f.phi b.label sources ≤ f.value t := hf.value hb (hf.target hl) (hg _ hi) rfl rfl
    exact Value.le_trans (h.operand hv.symm) (Value.le_trans (operand_le_phi ho hl) hle)
  · exact h t v (by rwa [Store.temp?_of_local ht])

/-- Jumps lead where they are found to lead. -/
theorem exit (h : f.Covers σ) {js : List Instr} {t : Label} (he : σ.exit? js = some (.to t)) :
    t ∈ f.openTargets js := by
  induction js with
  | nil => simp [Store.exit?] at he
  | cons j js ih =>
    cases j with
    | jump l => simpa [Store.exit?, openTargets, eq_comm] using he
    | branch cond v l =>
      cases hv : σ.value? v with
      | none => simp [Store.exit?, hv] at he
      | some k =>
        simp only [Store.exit?, hv] at he
        rcases Value.constant_le.1 (h.operand hv) with ho | ho <;> simp only [openTargets, ho]
        · split at he
          · cases he
            simp [‹cond.holds k = true›]
          · simp [‹¬ cond.holds k = true›, ih he]
        · split at he
          · cases he
            exact List.mem_cons_self
          · exact List.mem_cons_of_mem _ (ih he)
    | ret v? =>
      cases v? with
      | none => simp [Store.exit?] at he
      | some v => cases hv : σ.value? v <;> simp [Store.exit?, hv] at he
    | _ => simp [Store.exit?] at he

end Covers

end ThreeAddress.Constants.Facts

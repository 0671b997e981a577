import Mathlib.Tactic.ByContra
import ThreeAddress.Cfg.Basic
import ThreeAddress.Proofs.LinearRun
import ThreeAddress.Proofs.Validity
/-!
# Runs of graphs

`Cfg.Runs calls c prev? l σ f` says that control that enters the block `l` from the block `prev?`
with the store `σ` leads to a return with `f`. This is what the passes, which work on blocks, are
shown to preserve; `Layout` ties it to linear code.
-/

namespace ThreeAddress

/-! ## The shape of blocks -/

namespace Block

/-- The jumps of a block are conditional jumps and after them one jump or return. -/
def EndsOnce (b : Block) : Prop :=
  ∃ branches last, b.jumps = branches ++ [last] ∧
    (∀ j ∈ branches, ∃ cond v l, j = .branch cond v l) ∧ last.isFinal = true

/-- The phis of a block stand in front of its body. -/
def PhisFirst (b : Block) : Prop :=
  ∃ phis rest, b.body = phis ++ rest ∧ (∀ i ∈ phis, i.isPhi = true) ∧ ∀ i ∈ rest, i.isPhi = false

/-- No label stands in the body: labels belong to linear code. -/
def Unlabelled (b : Block) : Prop :=
  ∀ i ∈ b.body, i.label? = none

theorem endsOnce_iff {b : Block} : b.EndsOnce ↔ b.jumps.getLast?.any Instr.isFinal = true ∧
    ∀ j ∈ b.jumps.dropLast, j.isTerminator = true ∧ j.isFinal = false := by
  have hbranch : ∀ j : Instr, (∃ cond v l, j = .branch cond v l) ↔
      j.isTerminator = true ∧ j.isFinal = false := by
    intro j
    cases j <;> simp [Instr.isTerminator, Instr.isFinal]
  unfold EndsOnce
  simp only [hbranch]
  constructor
  · rintro ⟨branches, last, hj, hb, hl⟩
    simpa [hj, hl] using hb
  · rintro ⟨hl, hb⟩
    cases h : b.jumps.getLast? with
    | none => simp [h] at hl
    | some last =>
      obtain ⟨branches, hj⟩ := List.getLast?_eq_some_iff.1 h
      refine ⟨branches, last, hj, ?_, by simpa [h] using hl⟩
      simpa [hj] using hb

theorem EndsOnce.isTerminator_of_mem {b : Block} (h : b.EndsOnce) {j : Instr} (hj : j ∈ b.jumps) :
    j.isTerminator = true := by
  obtain ⟨branches, last, hjumps, hbranches, hlast⟩ := h
  rcases List.mem_append.1 (hjumps ▸ hj) with hj | hj
  · obtain ⟨cond, v, l, rfl⟩ := hbranches j hj
    rfl
  · exact Instr.isTerminator_of_isFinal (List.mem_singleton.1 hj ▸ hlast)

theorem EndsOnce.jumps_ne_nil {b : Block} (h : b.EndsOnce) : b.jumps ≠ [] := by
  obtain ⟨branches, last, hjumps, -⟩ := h
  simp [hjumps]

/-- What is left of the jumps of a block is the last one, or begins with a conditional jump. -/
theorem EndsOnce.of_suffix {b : Block} (h : b.EndsOnce) {j : Instr} {js : List Instr}
    (hs : j :: js <:+ b.jumps) :
    js = [] ∧ j.isFinal = true ∨ js ≠ [] ∧ ∃ cond v l, j = .branch cond v l := by
  obtain ⟨branches, last, hjumps, hbranches, hlast⟩ := h
  obtain ⟨before, hbefore⟩ := hs
  rw [hjumps] at hbefore
  rcases List.eq_nil_or_concat js with rfl | ⟨ks, k, rfl⟩
  · obtain rfl : j = last := List.singleton_inj.1 (List.append_inj' hbefore rfl).2
    exact .inl ⟨rfl, hlast⟩
  · rw [List.concat_eq_append, ← List.cons_append, ← List.append_assoc] at hbefore
    refine .inr ⟨by simp, hbranches j ?_⟩
    simp [← (List.append_inj' hbefore rfl).1]

/-- Other operands leave the shape of the jumps as it is. -/
theorem EndsOnce.map {b b' : Block} (h : b.EndsOnce) {f : Operand → Operand}
    (hj : b'.jumps = b.jumps.map (·.mapOperands f)) : b'.EndsOnce := by
  obtain ⟨branches, last, hjumps, hbranches, hlast⟩ := h
  refine ⟨branches.map (·.mapOperands f), last.mapOperands f, by simp [hj, hjumps], ?_, by simpa using hlast⟩
  intro j hj
  obtain ⟨i, hi, rfl⟩ := List.mem_map.1 hj
  obtain ⟨cond, v, l, rfl⟩ := hbranches i hi
  exact ⟨cond, f v, l, rfl⟩

theorem phisFirst_iff {b : Block} :
    b.PhisFirst ↔ ∀ i ∈ b.body.dropWhile Instr.isPhi, i.isPhi = false := by
  constructor
  · rintro ⟨phis, rest, hb, hphis, hrest⟩
    rw [hb, List.dropWhile_append_of_pos hphis]
    exact fun i hi => hrest i ((List.dropWhile_sublist _).subset hi)
  · exact fun h => ⟨b.body.takeWhile Instr.isPhi, b.body.dropWhile Instr.isPhi,
      List.takeWhile_append_dropWhile.symm, List.all_eq_true.1 List.all_takeWhile, h⟩

/-- A body has one division into phis and other instructions. -/
theorem eq_of_phisFirst {phis phis' rest rest' : List Instr} (h : phis ++ rest = phis' ++ rest')
    (hphis : ∀ i ∈ phis, i.isPhi = true) (hrest : ∀ i ∈ rest, i.isPhi = false)
    (hphis' : ∀ i ∈ phis', i.isPhi = true) (hrest' : ∀ i ∈ rest', i.isPhi = false) :
    phis = phis' ∧ rest = rest' := by
  have htake : ∀ {phis rest : List Instr}, (∀ i ∈ phis, i.isPhi = true) →
      (∀ i ∈ rest, i.isPhi = false) → (phis ++ rest).takeWhile Instr.isPhi = phis := by
    intro phis rest hp hr
    rw [List.takeWhile_append_of_pos hp]
    cases rest <;> simp [hr]
  have heq : phis = phis' := by rw [← htake hphis hrest, h, htake hphis' hrest']
  exact ⟨heq, List.append_cancel_left (heq ▸ h)⟩

instance (b : Block) : Decidable b.EndsOnce := decidable_of_iff _ endsOnce_iff.symm

instance (b : Block) : Decidable b.PhisFirst := decidable_of_iff _ phisFirst_iff.symm

instance (b : Block) : Decidable b.Unlabelled :=
  inferInstanceAs (Decidable (∀ i ∈ b.body, i.label? = none))

end Block

/-! ## Runs -/

/-- Runs blocks until the procedure returns. -/
inductive Cfg.Runs (calls : Calls) (c : Cfg) : Option Label → Label → Store → Final → Prop
  | ret {prev? : Option Label} {l : Label} {b : Block} {σ σ' : Store} {v? : Option Int64} :
      c.block? l = some b → Store.Body calls prev? b.body σ σ' → σ'.exit? b.jumps = some (.ret v?) →
      Runs calls c prev? l σ (σ'.final v?)
  | step {prev? : Option Label} {l t : Label} {b : Block} {σ σ' : Store} {f : Final} :
      c.block? l = some b → Store.Body calls prev? b.body σ σ' → σ'.exit? b.jumps = some (.to t) →
      Runs calls c (some l) t σ' f → Runs calls c prev? l σ f

namespace Cfg

/-- Leaves a block, of which so much of its body and so many of its jumps are still to come, and
runs on to the return of the procedure. -/
def Leaves (calls : Calls) (c : Cfg) (prev? : Option Label) (l : Label) (body jumps : List Instr)
    (σ : Store) (f : Final) : Prop :=
  ∃ σ', Store.Body calls prev? body σ σ' ∧
    ((∃ v?, σ'.exit? jumps = some (.ret v?) ∧ f = σ'.final v?) ∨
      ∃ t, σ'.exit? jumps = some (.to t) ∧ c.Runs calls (some l) t σ' f)

theorem runs_iff_leaves {calls : Calls} {c : Cfg} {prev? : Option Label} {l : Label} {b : Block}
    {σ : Store} {f : Final} (hb : c.block? l = some b) :
    c.Runs calls prev? l σ f ↔ c.Leaves calls prev? l b.body b.jumps σ f := by
  constructor
  · intro h
    cases h with
    | ret hb' hbody he =>
      cases hb.symm.trans hb'
      exact ⟨_, hbody, .inl ⟨_, he, rfl⟩⟩
    | step hb' hbody he hrun =>
      cases hb.symm.trans hb'
      exact ⟨_, hbody, .inr ⟨_, he, hrun⟩⟩
  · rintro ⟨σ', hbody, ⟨v?, he, rfl⟩ | ⟨t, he, hrun⟩⟩
    · exact .ret hb hbody he
    · exact .step hb hbody he hrun

theorem Runs.block? {calls : Calls} {c : Cfg} {prev? : Option Label} {l : Label} {σ : Store} {f : Final}
    (h : c.Runs calls prev? l σ f) : ∃ b, c.block? l = some b := by
  cases h with
  | ret hb | step hb => exact ⟨_, hb⟩

/-- If every block that a run comes through is matched by one that ends in the same way, a run of
one graph is a run of the other. `R` relates the stores at the heads of blocks. -/
theorem Runs.simulate {calls : Calls} {c c' : Cfg} {R : Option Label → Label → Store → Store → Prop}
    (hblock : ∀ {prev? l σ τ σ' b e}, R prev? l σ τ → c.block? l = some b →
      Store.Body calls prev? b.body σ σ' → σ'.exit? b.jumps = some e →
      ∃ b' τ', c'.block? l = some b' ∧ Store.Body calls prev? b'.body τ τ' ∧
        τ'.exit? b'.jumps = some e ∧ τ'.toMemory = σ'.toMemory ∧ ∀ t, e = .to t → R (some l) t σ' τ')
    {prev? : Option Label} {l : Label} {σ τ : Store} {f : Final} (h : c.Runs calls prev? l σ f)
    (hR : R prev? l σ τ) : c'.Runs calls prev? l τ f := by
  induction h generalizing τ with
  | ret hb hbody he =>
    obtain ⟨b', τ', hb', hbody', he', hm, -⟩ := hblock hR hb hbody he
    rw [← Store.final_congr hm]
    exact .ret hb' hbody' he'
  | step hb hbody he _ ih =>
    obtain ⟨b', τ', hb', hbody', he', -, hnext⟩ := hblock hR hb hbody he
    exact .step hb' hbody' he' (ih (hnext _ rfl))

/-- `c'` returns whatever `c` returns in the surroundings when the parameters are given. -/
def Refines (env : Surroundings) (params : List Temp) (c c' : Cfg) : Prop :=
  ∀ ⦃calls : Calls⦄ ⦃σ : Store⦄ ⦃f : Final⦄, env.Offers calls σ.globals → σ.OnlyParams params →
    c.Runs calls none c.entry σ f → c'.Runs calls none c'.entry σ f

theorem Refines.refl (env : Surroundings) (params : List Temp) (c : Cfg) : c.Refines env params c :=
  fun _ _ _ _ _ hrun => hrun

theorem Refines.trans {env : Surroundings} {params : List Temp} {c c' c'' : Cfg}
    (h : c.Refines env params c') (h' : c'.Refines env params c'') : c.Refines env params c'' :=
  fun _ _ _ hq hσ hrun => h' hq hσ (h hq hσ hrun)

end Cfg

/-! ## Bodies with their phis in front -/

namespace Store

/-- Executes the phis in front of a body, where there are any. -/
def Enter (prev? : Option Label) (phis : List Instr) (σ σ₁ : Store) : Prop :=
  if phis = [] then σ₁ = σ else ∃ l, prev? = some l ∧ σ.Phis l phis σ₁

/-- Where control comes from a block, no phis at all are executed like any others. -/
theorem enter_some_iff {l : Label} {phis : List Instr} {σ σ₁ : Store} :
    Enter (some l) phis σ σ₁ ↔ σ.Phis l phis σ₁ := by
  by_cases h : phis = []
  · simp [Enter, h, Phis, phiValues?]
  · simp [Enter, h]

/-- A body is its phis, executed at once, and then its other instructions. -/
theorem body_append_iff {calls : Calls} {prev? : Option Label} {phis rest : List Instr}
    {σ σ₂ : Store} (hp : ∀ i ∈ phis, i.isPhi = true) (hr : ∀ i ∈ rest, i.isPhi = false) :
    Body calls prev? (phis ++ rest) σ σ₂ ↔
      ∃ σ₁, Enter prev? phis σ σ₁ ∧ Body calls prev? rest σ₁ σ₂ := by
  cases phis with
  | nil => simp [Enter]
  | cons i phis =>
    have hi : i.isPhi = true := hp i List.mem_cons_self
    have hphis : ∀ j ∈ phis, j.isPhi = true := fun j hj => hp j (.tail _ hj)
    have htake : (phis ++ rest).takeWhile Instr.isPhi = phis := by
      rw [List.takeWhile_append_of_pos hphis]
      cases rest <;> simp [hr]
    have hdrop : (phis ++ rest).dropWhile Instr.isPhi = rest := by
      rw [List.dropWhile_append_of_pos hphis]
      cases rest <;> simp [hr]
    simp only [Enter, reduceCtorEq, if_false, List.cons_append]
    constructor
    · intro h
      cases h with
      | exec he => simp [he.plain.1] at hi
      | phis _ hl hg hbody =>
        rw [htake] at hg
        rw [hdrop] at hbody
        exact ⟨_, ⟨_, hl, hg⟩, hbody⟩
    · rintro ⟨σ₁, ⟨l, hl, hg⟩, hbody⟩
      rw [← htake] at hg
      rw [← hdrop] at hbody
      exact .phis hi hl hg hbody

end Store

/-- Control that comes from no block can enter those without phis alone. -/
theorem Cfg.Runs.isPhi_of_none {calls : Calls} {c : Cfg} {l : Label} {σ : Store} {f : Final}
    (h : c.Runs calls none l σ f) {b : Block} (hb : c.block? l = some b) (hp : b.PhisFirst) :
    ∀ i ∈ b.body, i.isPhi = false := by
  obtain ⟨phis, rest, hsplit, hphis, hrest⟩ := hp
  obtain ⟨σ', hbody, -⟩ := (runs_iff_leaves hb).1 h
  rw [hsplit, Store.body_append_iff hphis hrest] at hbody
  obtain ⟨σ₁, henter, -⟩ := hbody
  have hnil : phis = [] := by
    by_contra hne
    rw [Store.Enter, if_neg hne] at henter
    obtain ⟨l, hl, -⟩ := henter
    cases hl
  rwa [hsplit, hnil]

end ThreeAddress

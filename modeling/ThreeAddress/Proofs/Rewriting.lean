import ThreeAddress.Proofs.Simulation
/-!
# Rewriting by deletion and substitution

Most passes delete instructions and phi sources, and read other operands in the place of those that
stood there. Such a `Rewriting` is sound (`Rewriting.Sound`) if at every point of a run of the old
graph the new operands hold what the old ones hold, and if nothing that stays reads what only deleted
instructions write, the hidden temporaries. The new graph may give temporaries values that have none
in the old one; it never reads them.
-/

namespace ThreeAddress

/-! ## Stores that agree but for hidden temporaries -/

/-- `τ` has all that `σ` has, hidden temporaries apart. -/
structure Simulates (hidden : Temp → Prop) (σ τ : Store) : Prop where
  memory : σ.toMemory = τ.toMemory
  temp? {t : Temp} {v : Int64} :
    t.isGlobal = false → ¬ hidden t → σ.temp? t = some v → τ.temp? t = some v

/-- An operand has a value, and it does not read a hidden temporary. -/
def Shows (hidden : Temp → Prop) (σ : Store) (o : Operand) (v : Int64) : Prop :=
  σ.value? o = some v ∧ ∀ t, o = .temp t → t.isGlobal = false → ¬ hidden t

namespace Simulates

variable {hidden : Temp → Prop} {σ τ : Store}

theorem refl (hidden : Temp → Prop) (σ : Store) : Simulates hidden σ σ := ⟨rfl, fun _ _ h => h⟩

theorem value? (h : Simulates hidden σ τ) {o : Operand} {v : Int64} (ho : Shows hidden σ o v) :
    τ.value? o = some v := by
  cases o with
  | imm c => exact ho.1
  | temp t =>
    by_cases ht : t.isGlobal
    · rw [Store.value?_temp, ← Store.temp?_congr_of_global h.memory ht]
      exact ho.1
    · exact h.temp? (by simpa using ht) (ho.2 t rfl (by simpa using ht)) ho.1

/-- An instruction under an operand map that shows the same values. -/
theorem exec (h : Simulates hidden σ τ) {calls : Calls} {i : Instr} {σ' : Store}
    (hi : σ.Exec calls i σ') {f : Operand → Operand}
    (hf : ∀ o ∈ i.uses, ∀ v, σ.value? o = some v → Shows hidden σ (f o) v) :
    ∃ τ', τ.Exec calls (i.mapOperands f) τ' ∧ Simulates hidden σ' τ' := by
  obtain ⟨m, w, rfl, hexec⟩ := hi.transfer h.memory fun o ho v hv => h.value? (hf o ho v hv)
  refine ⟨_, hexec, Store.toMemory_receive _ _ _ _ _, fun {t v} ht hh hv => ?_⟩
  rw [Store.temp?_receive_local ht] at hv ⊢
  by_cases hd : i.dest? = some t
  · rwa [if_pos hd] at hv ⊢
  · rw [if_neg hd, Store.temp?_of_local ht] at hv ⊢
    have := h.temp? ht hh ((Store.temp?_of_local ht σ).trans hv)
    rwa [Store.temp?_of_local ht] at this

/-- An instruction that is deleted, with a hidden destination. -/
theorem skip (h : Simulates hidden σ τ) {calls : Calls} {i : Instr} {σ' : Store}
    (hi : σ.Exec calls i σ') (hp : ∀ k v, i ≠ .param k v) (hc : ∀ d t n, i ≠ .call d t n)
    (hd : ∀ t, i.dest? = some t → t.isGlobal = false ∧ hidden t) : Simulates hidden σ' τ := by
  refine ⟨?_, fun {t v} ht hh hv => ?_⟩
  · obtain ⟨vs, m, w, _, ha, rfl⟩ := hi
    obtain rfl := ha.memory_eq hp hc
    cases hdest : i.dest? with
    | none => exact h.memory
    | some t => exact (Store.toMemory_receive_local _ (hd t hdest).1 w).trans h.memory
  · have hne : i.dest? ≠ some t := fun e => hh (hd t e).2
    exact h.temp? ht hh (hi.temp?_of_ne ht hne ▸ hv)

/-- Jumps under an operand map that shows the same values. -/
theorem exit? (h : Simulates hidden σ τ) {js : List Instr} {f : Operand → Operand}
    (hf : ∀ j ∈ js, ∀ o ∈ j.uses, ∀ v, σ.value? o = some v → Shows hidden σ (f o) v) {e : Store.Exit}
    (he : σ.exit? js = some e) : τ.exit? (js.map (·.mapOperands f)) = some e :=
  Store.exit?_mapOperands (fun j hj o ho v hv => h.value? (hf j hj o ho v hv)) he

end Simulates

/-! ## Rewritings -/

/-- What a pass does to the bodies of a graph. -/
structure Rewriting where
  /-- The instructions that stay. -/
  keeps : Instr → Bool
  /-- What is read in the place of an operand. -/
  operand : Operand → Operand
  /-- Which sources stay in the phis of a block. -/
  source : (block source : Label) → Bool

namespace Rewriting

/-- An instruction of the block `l` after the rewriting. -/
def instr (r : Rewriting) (l : Label) : Instr → Instr
  | .phi dest sources => .phi dest ((sources.filter (r.source l)).mapOperands fun _ => r.operand)
  | i => i.mapOperands r.operand

/-- Instructions of the block `l` after the rewriting. -/
def body (r : Rewriting) (l : Label) (is : List Instr) : List Instr :=
  (is.filter r.keeps).map (r.instr l)

variable (r : Rewriting) (l : Label)

theorem instr_of_not_phi {i : Instr} (h : i.isPhi = false) : r.instr l i = i.mapOperands r.operand := by
  cases i <;> first | rfl | simp [Instr.isPhi] at h

@[simp] theorem isPhi_instr (i : Instr) : (r.instr l i).isPhi = i.isPhi := by
  cases i <;> rfl

@[simp] theorem dest?_instr (i : Instr) : (r.instr l i).dest? = i.dest? := by
  cases i <;> rfl

@[simp] theorem isTerminator_instr (i : Instr) : (r.instr l i).isTerminator = i.isTerminator := by
  cases i <;> rfl

@[simp] theorem label?_instr (i : Instr) : (r.instr l i).label? = i.label? := by
  cases i <;> rfl

@[simp] theorem body_nil : r.body l [] = [] := rfl

@[simp] theorem body_append (is js : List Instr) : r.body l (is ++ js) = r.body l is ++ r.body l js := by
  simp [body]

theorem body_cons_of_keeps {i : Instr} (h : r.keeps i = true) (is : List Instr) :
    r.body l (i :: is) = r.instr l i :: r.body l is := by
  simp [body, h]

theorem body_cons_of_drops {i : Instr} (h : r.keeps i = false) (is : List Instr) :
    r.body l (i :: is) = r.body l is := by
  simp [body, h]

theorem isPhi_body {is : List Instr} {p : Bool} (h : ∀ i ∈ is, i.isPhi = p) :
    ∀ i ∈ r.body l is, i.isPhi = p := by
  intro i hi
  obtain ⟨j, hj, rfl⟩ := List.mem_map.1 hi
  rw [isPhi_instr]
  exact h j (List.mem_filter.1 hj).1

/-! ## Soundness -/

/-- What makes a graph whose bodies are rewritten do all that the old one does. -/
structure Sound (calls : Calls) (c c' : Cfg) (At : Block → List Instr → Store → Prop)
    (hidden : Temp → Prop) : Prop extends c.Invariant calls At where
  found {b : Block} {pre : List Instr} {σ : Store} : b ∈ c.blocks → At b pre σ →
    ∃ b', c'.block? b.label = some b' ∧ b'.body = r.body b.label b.body
  /-- An instruction that stays reads the same values. -/
  read {b : Block} {pre post : List Instr} {i : Instr} {o : Operand} {σ : Store} {v : Int64} :
    b ∈ c.blocks → b.body = pre ++ i :: post → i.isPhi = false → r.keeps i = true → At b pre σ →
    o ∈ i.uses → σ.value? o = some v → Shows hidden σ (r.operand o) v
  /-- An instruction that is deleted and executed does nothing but write a hidden temporary. -/
  drop {b : Block} {pre post : List Instr} {i : Instr} {σ σ₁ : Store} :
    b ∈ c.blocks → b.body = pre ++ i :: post → r.keeps i = false → At b pre σ → σ.Exec calls i σ₁ →
    (∀ k v, i ≠ .param k v) ∧ (∀ d t n, i ≠ .call d t n) ∧
      ∀ t, i.dest? = some t → t.isGlobal = false ∧ hidden t
  /-- A phi that stays keeps the source of an edge that is followed, and it has the same value. -/
  source {p b : Block} {dest : Temp} {sources : PhiSources} {o : Operand} {σ : Store} :
    p ∈ c.blocks → b ∈ c.blocks → At p p.body σ → σ.exit? p.jumps = some (.to b.label) →
    .phi dest sources ∈ b.body → r.keeps (.phi dest sources) = true →
    sources.find? p.label = some o → r.source b.label p.label = true ∧
      (dest.isGlobal = false → ¬ hidden dest →
        ∀ v, σ.value? o = some v → Shows hidden σ (r.operand o) v)
  /-- A phi that is deleted and executed writes a hidden temporary. -/
  dropPhi {p b : Block} {dest : Temp} {sources : PhiSources} {σ : Store} :
    p ∈ c.blocks → b ∈ c.blocks → At p p.body σ → σ.exit? p.jumps = some (.to b.label) →
    .phi dest sources ∈ b.body → r.keeps (.phi dest sources) = false → dest.isGlobal = false →
    hidden dest
  /-- The jumps lead to the same place. -/
  exit {b b' : Block} {σ τ : Store} {e : Store.Exit} :
    b ∈ c.blocks → At b b.body σ → σ.exit? b.jumps = some e → Simulates hidden σ τ →
    c'.block? b.label = some b' → τ.exit? b'.jumps = some e

namespace Sound

variable {r} {calls : Calls} {c c' : Cfg} {At : Block → List Instr → Store → Prop}
  {hidden : Temp → Prop}

/-- The phis of a block, one after another; `L` and `L'` are the locals that they have made so far. -/
theorem phiValues? (h : r.Sound calls c c' At hidden) {p b : Block} (hp : p ∈ c.blocks)
    (hb : b ∈ c.blocks) {σ τ : Store} (hat : At p p.body σ)
    (he : σ.exit? p.jumps = some (.to b.label)) (hs : Simulates hidden σ τ) {phis : List Instr}
    (hphis : ∀ i ∈ phis, i.isPhi = true ∧ i ∈ b.body) {ws : List (Temp × Option Int64)}
    (hws : σ.phiValues? p.label phis = some ws) :
    ∃ ws', τ.phiValues? p.label (r.body b.label phis) = some ws' ∧
      ∀ L L' : Table Temp Int64,
        (∀ t v, t.isGlobal = false → ¬ hidden t → L.get? t = some v → L'.get? t = some v) →
        ∀ t v, t.isGlobal = false → ¬ hidden t →
          (Store.putAll L ws).get? t = some v → (Store.putAll L' ws').get? t = some v := by
  induction phis generalizing ws with
  | nil =>
    cases hws
    exact ⟨[], rfl, fun L L' h => h⟩
  | cons i phis ih =>
    have hrest := fun j hj => hphis j (.tail _ hj)
    obtain ⟨hphi, hmem⟩ := hphis i List.mem_cons_self
    rcases Store.phiValues?_cons hws with ⟨dest, sources, o, ws₀, rfl, ho, hws₀, rfl⟩ | ⟨hn, -⟩
    · obtain ⟨ws', hws', hput⟩ := ih hrest hws₀
      by_cases hk : r.keeps (.phi dest sources)
      · obtain ⟨hsource, hread⟩ := h.source hp hb hat he hmem hk ho
        refine ⟨(dest, τ.value? (r.operand o)) :: ws', ?_, fun L L' hL => ?_⟩
        · rw [r.body_cons_of_keeps b.label hk]
          simp [instr, Store.phiValues?, hsource, ho, hws']
        · refine hput _ _ fun t v ht hh hv => ?_
          rw [Table.get?_put] at hv ⊢
          by_cases htd : t = dest
          · rw [if_pos htd] at hv ⊢
            exact hs.value? (hread (htd ▸ ht) (htd ▸ hh) v hv)
          · rw [if_neg htd] at hv ⊢
            exact hL t v ht hh hv
      · -- What a deleted phi writes is hidden, and nothing is said of it.
        have hk : r.keeps (.phi dest sources) = false := by simpa using hk
        refine ⟨ws', by rwa [r.body_cons_of_drops b.label hk], fun L L' hL => ?_⟩
        refine hput _ _ fun t v ht hh hv => ?_
        have htd : t ≠ dest := fun e => hh (e ▸ h.dropPhi hp hb hat he hmem hk (e ▸ ht))
        rw [Table.get?_put, if_neg htd] at hv
        exact hL t v ht hh hv
    · simp [hn] at hphi

/-- A sound rewriting is a simulation. -/
theorem simulation (h : r.Sound calls c c' At hidden) : c.Simulation calls c' fun b rest rest' σ τ =>
    b ∈ c.blocks ∧ (∀ i ∈ rest, i.isPhi = false) ∧ rest' = r.body b.label rest ∧
      (∃ pre, b.body = pre ++ rest ∧ At b pre σ) ∧ Simulates hidden σ τ where
  enter := by
    rintro p b phis rest σ σ₁ τ ⟨hp, -, -, ⟨pre, hpre, hat⟩, hs⟩ he hb hsplit hphis hrest ⟨ws, hws, rfl⟩
    rw [List.append_nil] at hpre
    subst hpre
    have hmem := Cfg.mem_of_block? hb
    have hat₁ := h.toInvariant.enter hp hmem hat he hsplit hphis hrest ⟨ws, hws, rfl⟩
    obtain ⟨b', hb', hbody⟩ := h.found hmem hat₁
    obtain ⟨ws', hws', hput⟩ := h.phiValues? hp hmem hat he hs
      (fun i hi => ⟨hphis i hi, hsplit ▸ List.mem_append_left _ hi⟩) hws
    refine ⟨b', r.body b.label phis, r.body b.label rest, _, hb', ?_, r.isPhi_body _ hphis,
      r.isPhi_body _ hrest, ⟨ws', hws', rfl⟩, hmem, hrest, rfl, ⟨phis, hsplit, hat₁⟩, hs.memory, ?_⟩
    · rw [hbody, hsplit, body_append]
    · intro t v ht hh hv
      rw [Store.temp?_of_local ht] at hv ⊢
      refine hput _ _ (fun u w hu hhu hw => ?_) t v ht hh hv
      rw [← Store.temp?_of_local hu] at hw ⊢
      exact hs.temp? hu hhu hw
  exec := by
    rintro b i rest rest' σ σ₁ τ ⟨hb, hrest, rfl, ⟨pre, hpre, hat⟩, hs⟩ hexec
    have hpre' : b.body = (pre ++ [i]) ++ rest := by simp [hpre]
    have hat' := h.exec hb hpre hat hexec
    have hrest' := fun j hj => hrest j (.tail _ hj)
    -- An instruction that is deleted is a step of the old graph alone.
    by_cases hk : r.keeps i
    · obtain ⟨τ', hexec', hs'⟩ := hs.exec hexec (f := r.operand) fun o ho v hv =>
        h.read hb hpre hexec.plain.1 hk hat ho hv
      rw [← r.instr_of_not_phi b.label hexec.plain.1] at hexec'
      exact .inr ⟨_, _, τ', r.body_cons_of_keeps b.label hk rest, hexec', hb, hrest', rfl,
        ⟨_, hpre', hat'⟩, hs'⟩
    · have hk : r.keeps i = false := by simpa using hk
      obtain ⟨hparam, hcall, hd⟩ := h.drop hb hpre hk hat hexec
      exact .inl ⟨hb, hrest', r.body_cons_of_drops b.label hk rest, ⟨_, hpre', hat'⟩,
        hs.skip hexec hparam hcall hd⟩
  nil := by
    rintro b rest' σ τ ⟨-, -, rfl, -⟩
    rfl
  exit := by
    rintro b σ τ e ⟨hb, -, -, ⟨pre, hpre, hat⟩, hs⟩ he
    rw [List.append_nil] at hpre
    subst hpre
    obtain ⟨b', hb', -⟩ := h.found hb hat
    exact ⟨b', hb', h.exit hb hat he hs hb', hs.memory.symm⟩

/-- The rewritten graph returns whatever the old one returns. -/
theorem runs (h : r.Sound calls c c' At hidden) (hp : ∀ b ∈ c.blocks, b.PhisFirst)
    (hentry : c'.entry = c.entry) {σ : Store} {f : Final}
    (hstart : ∀ b ∈ c.blocks, b.label = c.entry → At b [] σ) (hrun : c.Runs calls none c.entry σ f) :
    c'.Runs calls none c'.entry σ f := by
  rw [hentry]
  refine h.simulation.runs hp (fun b hb hbody => ?_) hrun
  have hmem := Cfg.mem_of_block? hb
  have hlabel := Cfg.label_of_block? hb
  have hat := hstart b hmem hlabel
  obtain ⟨b', hb', hbody'⟩ := h.found hmem hat
  exact ⟨b', hlabel ▸ hb', hmem, hbody, hbody', ⟨[], rfl, hat⟩, .refl hidden σ⟩

end Sound

end Rewriting

end ThreeAddress

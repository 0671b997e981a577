import ThreeAddress.Proofs.GraphRun
/-!
# Simulations between graphs

A graph returns whatever another returns if the points of their runs can be related.
`Rel b rest rest' σ τ` relates two runs within the block `b`: of its body the instructions `rest` are
still to come in the one graph, with the store `σ`, and `rest'` in the other, with the store `τ`. Each
instruction is matched by one of the other graph or by none, and each edge by the same edge.
-/

namespace ThreeAddress.Cfg

/-- What holds at the points of the runs of a graph: `At b pre σ` where so much as `pre` of the body of
`b` has been executed. -/
structure Invariant (calls : Calls) (c : Cfg) (At : Block → List Instr → Store → Prop) : Prop where
  /-- Control follows an edge, and the phis of the block are executed. -/
  enter {p b : Block} {phis rest : List Instr} {σ σ₁ : Store} :
    p ∈ c.blocks → b ∈ c.blocks → At p p.body σ → σ.exit? p.jumps = some (.to b.label) →
    b.body = phis ++ rest → (∀ i ∈ phis, i.isPhi = true) → (∀ i ∈ rest, i.isPhi = false) →
    σ.Phis p.label phis σ₁ → At b phis σ₁
  exec {b : Block} {pre post : List Instr} {i : Instr} {σ σ₁ : Store} :
    b ∈ c.blocks → b.body = pre ++ i :: post → At b pre σ → σ.Exec calls i σ₁ → At b (pre ++ [i]) σ₁

/-- A relation between points of runs that every step of `c` carries over to `c'`. -/
structure Simulation (calls : Calls) (c c' : Cfg)
    (Rel : Block → List Instr → List Instr → Store → Store → Prop) : Prop where
  /-- Control follows an edge, and the phis of the block are executed. -/
  enter {p b : Block} {phis rest : List Instr} {σ σ₁ τ : Store} :
    Rel p [] [] σ τ → σ.exit? p.jumps = some (.to b.label) → c.block? b.label = some b →
    b.body = phis ++ rest → (∀ i ∈ phis, i.isPhi = true) → (∀ i ∈ rest, i.isPhi = false) →
    σ.Phis p.label phis σ₁ →
    ∃ b' phis' rest' τ₁, c'.block? b.label = some b' ∧ b'.body = phis' ++ rest' ∧
      (∀ i ∈ phis', i.isPhi = true) ∧ (∀ i ∈ rest', i.isPhi = false) ∧
      τ.Phis p.label phis' τ₁ ∧ Rel b rest rest' σ₁ τ₁
  /-- An instruction is executed, on one side or on both. -/
  exec {b : Block} {i : Instr} {rest rest' : List Instr} {σ σ₁ τ : Store} :
    Rel b (i :: rest) rest' σ τ → σ.Exec calls i σ₁ →
    Rel b rest rest' σ₁ τ ∨
      ∃ i' rest'' τ₁, rest' = i' :: rest'' ∧ τ.Exec calls i' τ₁ ∧ Rel b rest rest'' σ₁ τ₁
  nil {b : Block} {rest' : List Instr} {σ τ : Store} : Rel b [] rest' σ τ → rest' = []
  /-- The jumps lead to the same place, and what is shared is the same. -/
  exit {b : Block} {σ τ : Store} {e : Store.Exit} :
    Rel b [] [] σ τ → σ.exit? b.jumps = some e →
    ∃ b', c'.block? b.label = some b' ∧ τ.exit? b'.jumps = some e ∧ τ.toMemory = σ.toMemory

namespace Simulation

variable {calls : Calls} {c c' : Cfg} {Rel : Block → List Instr → List Instr → Store → Store → Prop}

/-- What is left of a body behind its phis. -/
theorem body (h : c.Simulation calls c' Rel) {prev? : Option Label} {rest : List Instr} {σ σ' : Store}
    (hbody : Store.Body calls prev? rest σ σ') :
    ∀ {b : Block} {rest' : List Instr} {τ : Store}, (∀ i ∈ rest, i.isPhi = false) →
      Rel b rest rest' σ τ → ∃ τ', Store.Body calls prev? rest' τ τ' ∧ Rel b [] [] σ' τ' := by
  induction hbody with
  | nil σ =>
    intro b rest' τ _ hrel
    obtain rfl := h.nil hrel
    exact ⟨τ, .nil τ, hrel⟩
  | exec hexec _ ih =>
    intro b rest' τ hphi hrel
    have hphi' := fun j hj => hphi j (.tail _ hj)
    rcases h.exec hrel hexec with hrel | ⟨i', rest'', τ₁, rfl, hexec', hrel⟩
    · exact ih hphi' hrel
    · obtain ⟨τ', hbody', hrel'⟩ := ih hphi' hrel
      exact ⟨τ', .exec hexec' hbody', hrel'⟩
  | phis hi =>
    intro b rest' τ hphi _
    simp [hphi _ List.mem_cons_self] at hi

/-- Runs that are related at the entry end in the same way. -/
theorem runs (h : c.Simulation calls c' Rel) (hp : ∀ b ∈ c.blocks, b.PhisFirst) {σ τ : Store} {f : Final}
    (hstart : ∀ b, c.block? c.entry = some b → (∀ i ∈ b.body, i.isPhi = false) →
      ∃ b', c'.block? c.entry = some b' ∧ Rel b b.body b'.body σ τ)
    (hrun : c.Runs calls none c.entry σ f) : c'.Runs calls none c.entry τ f := by
  refine hrun.simulate (R := fun prev? l σ τ =>
    (prev? = none ∧ ∀ b, c.block? l = some b → (∀ i ∈ b.body, i.isPhi = false) →
      ∃ b', c'.block? l = some b' ∧ Rel b b.body b'.body σ τ) ∨
    ∃ p, prev? = some p.label ∧ Rel p [] [] σ τ ∧ σ.exit? p.jumps = some (.to l)) ?_ (.inl ⟨rfl, hstart⟩)
  intro prev? l σ τ σ' b e hR hb hbody he
  obtain rfl := label_of_block? hb
  -- At the entry there are no phis, as they would ask for the block that control came from.
  obtain ⟨b', τ', hb', hbody', hrel⟩ : ∃ b' τ', c'.block? b.label = some b' ∧
      Store.Body calls prev? b'.body τ τ' ∧ Rel b [] [] σ' τ' := by
    obtain ⟨phis, rest, hsplit, hphis, hrest⟩ := hp b (mem_of_block? hb)
    rw [hsplit, Store.body_append_iff hphis hrest] at hbody
    obtain ⟨σ₁, henter, hbody⟩ := hbody
    rcases hR with ⟨rfl, hstart⟩ | ⟨p, rfl, hrel, hexit⟩
    · obtain ⟨rfl, rfl⟩ : phis = [] ∧ σ₁ = σ := by
        unfold Store.Enter at henter
        split at henter
        · exact ⟨‹_›, henter⟩
        · simp at henter
      rw [List.nil_append] at hsplit
      obtain ⟨b', hb', hrel⟩ := hstart b hb (hsplit ▸ hrest)
      obtain ⟨τ', hbody', hrel'⟩ := h.body hbody hrest (hsplit ▸ hrel)
      exact ⟨b', τ', hb', hbody', hrel'⟩
    · obtain ⟨b', phis', rest', τ₁, hb', hsplit', hphis', hrest', henter', hrel'⟩ :=
        h.enter hrel hexit hb hsplit hphis hrest (Store.enter_some_iff.1 henter)
      obtain ⟨τ', hbody', hrel''⟩ := h.body hbody hrest hrel'
      refine ⟨b', τ', hb', ?_, hrel''⟩
      rw [hsplit', Store.body_append_iff hphis' hrest']
      exact ⟨τ₁, Store.enter_some_iff.2 henter', hbody'⟩
  obtain ⟨b'', hb'', he', hm⟩ := h.exit hrel he
  cases hb'.symm.trans hb''
  exact ⟨b', τ', hb', hbody', he', hm, fun t ht => .inr ⟨b, rfl, hrel, ht ▸ he⟩⟩

end Simulation

end ThreeAddress.Cfg

import ThreeAddress.Proofs.Constants.Soundness
/-!
# The analysis of constants finds the least facts

Facts absorb a graph if they have what holds at the start, and whatever either rule makes of them. What
`analyze` finds does so and is below all that do (`analyze_least`): both rules make more of more
(`openTargets_mono`, `evaluate?_mono`), so no step leads out of what is below such facts (`Step.below`). That is
why the order of the steps does not matter.

The loop of rounds is watched through what it adds: it stops with the first round that neither takes in an edge
nor raises a temporary (`Stops`), and before that every round has less slack than the one before it
(`exists_stops`).
-/

namespace ThreeAddress.Constants

namespace Value

theorem le_antisymm {a b : Value} (h : a ≤ b) (h' : b ≤ a) : a = b := by
  rw [le_def] at h h'
  rw [← h, join_comm, h']

theorem unused_le (a : Value) : unused ≤ a := unused_join a

theorem join_le {a b w : Value} (ha : a ≤ w) (hb : b ≤ w) : a.join b ≤ w := by
  rw [le_def] at *
  rw [join_assoc, hb, ha]

end Value

namespace Facts

variable {c : Cfg} {f g : Facts}

/-! ## Facts in order -/

/-- All that has been found out in `f` has been found out in `g`. -/
structure Below (f g : Facts) : Prop where
  executes {l : Label} : f.executes l = true → g.executes l = true
  follows {k l : Label} : f.follows k l = true → g.follows k l = true
  value (t : Temp) : f.value t ≤ g.value t

namespace Below

theorem operand (h : f.Below g) (o : Operand) : f.operand o ≤ g.operand o := by
  cases o with
  | temp t => exact h.value t
  | imm k => exact Value.le_refl _

/-- Facts that are below one another say the same. -/
theorem agree (h : f.Below g) (h' : g.Below f) : (∀ l, f.executes l = g.executes l) ∧
    (∀ k l, f.follows k l = g.follows k l) ∧ ∀ t, f.value t = g.value t :=
  ⟨fun _ => Bool.eq_iff_iff.2 ⟨h.executes, h'.executes⟩, fun _ _ => Bool.eq_iff_iff.2 ⟨h.follows, h'.follows⟩,
    fun t => Value.le_antisymm (h.value t) (h'.value t)⟩

end Below

/-! ## More is made of more -/

theorem foldl_join_le {os : List Operand} {a w : Value} (ha : a ≤ w) (h : ∀ o ∈ os, f.operand o ≤ w) :
    os.foldl (fun v o => v.join (f.operand o)) a ≤ w := by
  induction os generalizing a with
  | nil => exact ha
  | cons o os ih => exact ih (Value.join_le ha (h o List.mem_cons_self)) fun p hp => h p (.tail _ hp)

/-- A phi takes in nothing but the sources of edges that execute. -/
theorem phi_le {l : Label} {sources : PhiSources} {w : Value}
    (h : ∀ p o, sources.find? p = some o → f.follows p l = true → f.operand o ≤ w) : f.phi l sources ≤ w := by
  refine foldl_join_le (Value.unused_le w) fun o ho => ?_
  obtain ⟨p, hp⟩ := PhiSources.exists_of_mem_operands ho
  rw [PhiSources.find?_filter] at hp
  split at hp
  · exact h p o hp ‹_›
  · cases hp

theorem binary?_varies_left (op : BinaryOp) (b : Value) : binary? op .varies b = some .varies := by
  cases b <;> rfl

theorem binary?_varies_right (op : BinaryOp) (a : Value) : binary? op a .varies = some .varies := by
  cases a <;> rfl

theorem binary?_mono {op : BinaryOp} {a a' b b' v : Value} (ha : a ≤ a') (hb : b ≤ b')
    (h : binary? op a b = some v) : ∃ w, binary? op a' b' = some w ∧ v ≤ w := by
  by_cases hvaries : a' = .varies ∨ b' = .varies
  · refine ⟨.varies, ?_, Value.le_varies v⟩
    rcases hvaries with rfl | rfl
    · exact binary?_varies_left op b'
    · exact binary?_varies_right op a'
  · -- neither operand varies below either, so both are constants already
    obtain ⟨ha', hb'⟩ := not_or.1 hvaries
    cases a with
    | varies => exact absurd (Value.varies_le.1 ha) ha'
    | unused =>
      cases b with
      | varies => exact absurd (Value.varies_le.1 hb) hb'
      | _ => cases h
    | constant u =>
      obtain rfl := (Value.constant_le.1 ha).resolve_right ha'
      cases b with
      | unused => cases h
      | varies => exact absurd (Value.varies_le.1 hb) hb'
      | constant k =>
        obtain rfl := (Value.constant_le.1 hb).resolve_right hb'
        exact ⟨v, h, Value.le_refl v⟩

theorem unary?_mono {op : UnaryOp} {a a' v : Value} (ha : a ≤ a') (h : unary? op a = some v) :
    ∃ w, unary? op a' = some w ∧ v ≤ w := by
  cases a with
  | unused => cases h
  | varies => exact Value.varies_le.1 ha ▸ ⟨v, h, Value.le_refl v⟩
  | constant u =>
    rcases Value.constant_le.1 ha with rfl | rfl
    · exact ⟨v, h, Value.le_refl v⟩
    · exact ⟨.varies, rfl, Value.le_varies v⟩

theorem evaluate?_mono (h : f.Below g) {l : Label} {i : Instr} {v : Value} (hv : f.evaluate? l i = some v) :
    ∃ w, g.evaluate? l i = some w ∧ v ≤ w := by
  cases i with
  | const d k => exact ⟨v, hv, Value.le_refl v⟩
  | copy d s =>
    cases hv
    exact ⟨_, rfl, h.operand s⟩
  | binary d op x y => exact binary?_mono (h.operand x) (h.operand y) hv
  | unary d op x => exact unary?_mono (h.operand x) hv
  | phi d sources =>
    cases hv
    refine ⟨_, rfl, phi_le fun p o ho hp => ?_⟩
    exact Value.le_trans (h.operand o) (operand_le_phi ho (h.follows hp))
  | call d target n => exact ⟨v, hv, Value.le_refl v⟩
  | _ => cases hv

/-! ## Facts that absorb a graph -/

/-- Facts that have what holds at the start, and whatever either rule makes of them. -/
structure Absorbs (c : Cfg) (g : Facts) : Prop where
  entry : g.executes c.entry = true
  initial (t : Temp) : Value.initial t ≤ g.value t
  jump {b : Block} {t : Label} : b ∈ c.blocks → g.executes b.label = true → t ∈ g.openTargets b.jumps →
    g.follows b.label t = true ∧ g.executes t = true
  value {b : Block} {i : Instr} {t : Temp} {v : Value} : b ∈ c.blocks → g.executes b.label = true →
    i ∈ b.body → i.dest? = some t → g.evaluate? b.label i = some v → v ≤ g.value t

theorem Closed.absorbs (h : f.Closed c) : f.Absorbs c where
  entry := h.entry
  initial := h.initial
  jump hb hx ht := ⟨h.edge hb hx ht, h.target (h.edge hb hx ht)⟩
  value := h.value

theorem Absorbs.start_below (h : g.Absorbs c) : (start c).Below g where
  executes {l} hl := by
    obtain rfl : l = c.entry := by simpa [start, executes] using hl
    exact h.entry
  follows {k l} hl := by simp [start, Facts.follows] at hl
  value t := h.initial t

/-- No step leads out of what is below facts that absorb the graph. -/
theorem Step.below {f f' : Facts} (hstep : Step c f f') (h : g.Absorbs c) (hf : f.Below g) : f'.Below g := by
  cases hstep with
  | @follow e he =>
    obtain ⟨b, hb, hx, hsource, ht⟩ := mem_openEdges.1 he
    obtain ⟨hfollows, hexecutes⟩ := h.jump hb (hf.executes hx) (openTargets_mono hf.value ht)
    refine ⟨fun {l} hl => ?_, fun {k l} hl => ?_, hf.value⟩
    · simp only [Facts.executes, List.contains_iff_mem, mem_blocks_addEdge] at hl
      rcases hl with rfl | hl
      · exact hexecutes
      · exact hf.executes (by simpa [Facts.executes] using hl)
    · simp only [Facts.follows, List.contains_iff_mem, mem_edges_addEdge] at hl
      rcases hl with rfl | hl
      · obtain rfl : k = b.label := hsource
        exact hfollows
      · exact hf.follows (by simpa [Facts.follows] using hl)
  | @visit b i hb hx hi =>
    unfold Facts.visit
    split
    · rename_i t v ht hv
      refine ⟨fun hl => hf.executes (by simpa [Facts.executes] using hl),
        fun hl => hf.follows (by simpa [Facts.follows] using hl), fun u => ?_⟩
      rw [value_lift]
      split
      · -- The join is below what both sides are below.
        subst u
        obtain ⟨w, hw, hle⟩ := evaluate?_mono hf hv
        exact Value.join_le (hf.value t) (Value.le_trans hle (h.value hb (hf.executes hx) hi ht hw))
      · exact hf.value u
    · exact hf

/-- Whatever steps lead to is below all facts that absorb the graph. -/
theorem below_of_steps (hsteps : Relation.ReflTransGen (Step c) (start c) f) (h : g.Absorbs c) : f.Below g := by
  induction hsteps with
  | refl => exact h.start_below
  | tail _ hstep ih => exact hstep.below h ih

/-! ## How many rounds there are -/

/-- A round takes in an edge, or raises a temporary. -/
def Grows (c : Cfg) (f : Facts) : Prop :=
  (∃ e ∈ (f.round c).edges, e ∉ f.edges) ∨ ∃ t, (f.round c).value t ≠ f.value t

/-- Rounds are repeated as long as they add something. The number counts all of them, the last one included. -/
inductive Stops (c : Cfg) : Nat → Facts → Facts → Prop
  | last {f : Facts} : ¬ f.Grows c → Stops c 1 f (f.round c)
  | more {n : Nat} {f g : Facts} : f.Grows c → Stops c n (f.round c) g → Stops c (n + 1) f g

/-- Where a round adds nothing, nothing else changes either. -/
theorem round_eq_self_iff (hf : f.Entered) : f.round c = f ↔ ¬ f.Grows c := by
  constructor
  · rintro h (⟨e, he, hnew⟩ | ⟨t, ht⟩)
    · exact hnew (h ▸ he)
    · exact ht (by rw [h])
  · intro h
    obtain ⟨hedges, hvalue⟩ := not_or.1 h
    refine (round_descends hf).2.resolve_right (Nat.not_lt.2 (slack_le_slack (fun e he => ?_) fun t => ?_))
    · exact Classical.byContradiction fun hnew => hedges ⟨e, he, hnew⟩
    · exact Classical.byContradiction fun hne => hvalue ⟨t, hne⟩

theorem Stops.of_round_eq_self (hf : f.Entered) (h : f.round c = f) : Stops c 1 f f := by
  have hlast := Stops.last ((round_eq_self_iff hf).1 h)
  rwa [h] at hlast

/-- The slack bounds the rounds that add something; one more adds nothing. -/
theorem exists_stops {n : Nat} (hf : f.Entered) (hn : f.slack c ≤ n) :
    ∃ m ≤ f.slack c + 1, Stops c m f (untilStable (round c) n f) := by
  induction n generalizing f with
  | zero =>
    have h : f.round c = f := (round_descends hf).2.resolve_right (by omega)
    exact ⟨1, by omega, .of_round_eq_self hf h⟩
  | succ n ih =>
    rw [untilStable]
    split
    · exact ⟨1, by omega, .of_round_eq_self hf ‹_›⟩
    · rename_i hne
      obtain ⟨hentered, hdown⟩ := round_descends (c := c) hf
      have hlt := hdown.resolve_left hne
      obtain ⟨m, hm, hstops⟩ := ih hentered (by omega)
      have hgrows : f.Grows c := Classical.not_not.1 fun h => hne ((round_eq_self_iff hf).2 h)
      exact ⟨m + 1, by omega, .more hgrows hstops⟩

end Facts

/-- The analysis stops within as many rounds as there are edges and twice the temporaries, and one more. It finds
the least facts that absorb the graph, which are also those that the steps come to in any other order. -/
theorem analyze_least (c : Cfg) :
    (∃ n ≤ c.edges.toFinset.card + 2 * (temps c).toFinset.card + 1,
      Facts.Stops c n (Facts.start c) (analyze c)) ∧
    (analyze c).Absorbs c ∧ (∀ g : Facts, g.Absorbs c → (analyze c).Below g) ∧
    ∀ g : Facts, Relation.ReflTransGen (Facts.Step c) (Facts.start c) g → g.Absorbs c →
      (∀ l, g.executes l = (analyze c).executes l) ∧ (∀ k l, g.follows k l = (analyze c).follows k l) ∧
        ∀ t, g.value t = (analyze c).value t := by
  have habsorbs := (Facts.closed_analyze c).absorbs
  have hleast : ∀ g : Facts, g.Absorbs c → (analyze c).Below g := fun g hg =>
    Facts.below_of_steps (Facts.steps_analyze c) hg
  refine ⟨?_, habsorbs, hleast, fun g hsteps hg => ?_⟩
  · obtain ⟨n, hn, hstops⟩ := Facts.exists_stops (f := Facts.start c) (by simp [Facts.Entered, Facts.start])
      (Facts.slack_le c _)
    exact ⟨n, hn.trans (Nat.succ_le_succ (Facts.slack_le_card c _)), hstops⟩
  · exact (Facts.below_of_steps hsteps habsorbs).agree (hleast g hg)

end ThreeAddress.Constants

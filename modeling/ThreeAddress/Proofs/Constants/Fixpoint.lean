import Mathlib.Algebra.Order.BigOperators.Group.Finset
import Mathlib.Algebra.Order.Group.Nat
import Mathlib.Data.Finset.Card
import Mathlib.Logic.Relation
import ThreeAddress.Constants.Analysis
import ThreeAddress.Proofs.Descent
/-!
# The analysis of constants comes to rest

Facts are closed if neither rule of the analysis adds to them. The facts that `analyze` finds are
(`closed_analyze`): every step that changes facts lowers their slack, the number of edges that do not
execute yet and of the ranks that temporaries may still rise.
-/

namespace ThreeAddress.Constants

namespace Value

/-! ## The order of knowledge -/

instance : LE Value := ⟨fun a b => a.join b = b⟩

theorem le_def {a b : Value} : a ≤ b ↔ a.join b = b := Iff.rfl

theorem le_refl (a : Value) : a ≤ a := join_self a

theorem le_trans {a b c : Value} (h : a ≤ b) (h' : b ≤ c) : a ≤ c := by
  rw [le_def] at *
  rw [← h', ← join_assoc, h]

theorem le_varies (a : Value) : a ≤ varies := join_varies a

theorem le_join_left (a b : Value) : a ≤ a.join b := by
  rw [le_def, ← join_assoc, join_self]

theorem le_join_right (a b : Value) : b ≤ a.join b := join_comm b a ▸ le_join_left b a

theorem join_eq_left {a b : Value} (h : a.join b = a) : b ≤ a := by
  rw [le_def, join_comm, h]

theorem constant_le {k : Int64} {a : Value} : constant k ≤ a ↔ a = constant k ∨ a = varies := by
  rw [le_def]
  cases a with
  | unused => simp [join]
  | constant c => by_cases h : k = c <;> simp [join, h, eq_comm]
  | varies => simp [join]

theorem varies_le {a : Value} : varies ≤ a ↔ a = varies := by
  rw [le_def, varies_join, eq_comm]

/-- How often a value has risen. -/
def rank : Value → Nat
  | unused => 0
  | constant _ => 1
  | varies => 2

theorem rank_le (a : Value) : a.rank ≤ 2 := by
  cases a <;> simp [rank]

theorem rank_lt_join {a b : Value} (h : a.join b ≠ a) : a.rank < (a.join b).rank := by
  cases a with
  | unused => cases b <;> simp_all [rank]
  | constant c =>
    cases b with
    | unused => simp at h
    | constant d => by_cases hcd : c = d <;> simp_all [join, rank]
    | varies => simp [rank]
  | varies => simp at h

end Value

namespace Facts

/-! ## What each step does to the values -/

theorem mem_including {α : Type} [BEq α] [LawfulBEq α] {x y : α} {xs : List α} :
    y ∈ (if xs.contains x then xs else xs ++ [x]) ↔ y = x ∨ y ∈ xs := by
  by_cases h : x ∈ xs
  · rw [if_pos (List.contains_iff_mem.2 h)]
    exact ⟨.inr, fun h' => h'.elim (· ▸ h) id⟩
  · rw [if_neg (mt List.contains_iff_mem.1 h), List.mem_append, List.mem_singleton]
    exact or_comm

@[simp] theorem value_addEdge (f : Facts) (e : Label × Label) (t : Temp) :
    (f.addEdge e).value t = f.value t := rfl

@[simp] theorem mem_edges_addEdge (f : Facts) (e d : Label × Label) :
    d ∈ (f.addEdge e).edges ↔ d = e ∨ d ∈ f.edges := mem_including

@[simp] theorem mem_blocks_addEdge (f : Facts) (e : Label × Label) (l : Label) :
    l ∈ (f.addEdge e).blocks ↔ l = e.2 ∨ l ∈ f.blocks := mem_including

theorem value_lift (f : Facts) (t u : Temp) (v : Value) :
    (f.lift t v).value u = if u = t then (f.value t).join v else f.value u := by
  by_cases h : (f.value t).join v = f.value t
  · by_cases hu : u = t <;> simp [lift, h, hu]
  · have : f.lift t v = { f with values := f.values.set t ((f.value t).join v) } := by simp [lift, h]
    rw [this]
    by_cases hu : u = t <;> simp [value, hu]

@[simp] theorem edges_lift (f : Facts) (t : Temp) (v : Value) : (f.lift t v).edges = f.edges := by
  by_cases h : (f.value t).join v = f.value t <;> simp [lift, h]

@[simp] theorem blocks_lift (f : Facts) (t : Temp) (v : Value) : (f.lift t v).blocks = f.blocks := by
  by_cases h : (f.value t).join v = f.value t <;> simp [lift, h]

theorem lift_eq_self {f : Facts} {t : Temp} {v : Value} (h : f.lift t v = f) : v ≤ f.value t := by
  have := value_lift f t t v
  rw [h, if_pos rfl] at this
  exact Value.join_eq_left this.symm

/-! ## Slack -/

/-- How far facts may still grow. -/
def slack (c : Cfg) (f : Facts) : Nat :=
  (c.edges.toFinset.filter (· ∉ f.edges)).card + ∑ t ∈ (temps c).toFinset, (2 - (f.value t).rank)

theorem slack_le_card (c : Cfg) (f : Facts) :
    f.slack c ≤ c.edges.toFinset.card + 2 * (temps c).toFinset.card := by
  have hedges : (c.edges.toFinset.filter (· ∉ f.edges)).card ≤ c.edges.toFinset.card :=
    Finset.card_filter_le _ _
  have htemps : ∑ t ∈ (temps c).toFinset, (2 - (f.value t).rank) ≤ ∑ _t ∈ (temps c).toFinset, 2 :=
    Finset.sum_le_sum fun t _ => by omega
  rw [Finset.sum_const_nat fun _ _ => rfl] at htemps
  unfold slack
  omega

theorem slack_le (c : Cfg) (f : Facts) : f.slack c ≤ rounds c := by
  have hslack := slack_le_card c f
  have hedges : c.edges.toFinset.card ≤ c.edges.length := c.edges.toFinset_card_le
  have htemps : (temps c).toFinset.card ≤ (temps c).length := (temps c).toFinset_card_le
  unfold rounds
  omega

/-- Where no edge and no temporary has risen, there is as much slack as before. -/
theorem slack_le_slack {c : Cfg} {f g : Facts} (hedges : ∀ e ∈ g.edges, e ∈ f.edges)
    (hvalue : ∀ t, g.value t = f.value t) : f.slack c ≤ g.slack c := by
  refine Nat.add_le_add (Finset.card_le_card fun e he => ?_) (Finset.sum_le_sum fun t _ => by rw [hvalue t])
  obtain ⟨hmem, hnew⟩ := Finset.mem_filter.1 he
  exact Finset.mem_filter.2 ⟨hmem, fun h => hnew (hedges e h)⟩

/-- Edges that execute lead to blocks that execute. -/
def Entered (f : Facts) : Prop := ∀ e ∈ f.edges, e.2 ∈ f.blocks

theorem addEdge_descends {c : Cfg} {f : Facts} (hf : f.Entered) {e : Label × Label} (he : e ∈ c.edges) :
    (f.addEdge e).Entered ∧ Descends (slack c) f (f.addEdge e) := by
  refine ⟨fun d hd => ?_, ?_⟩
  · rcases (mem_edges_addEdge f e d).1 hd with rfl | hd
    · simp
    · simp [hf d hd]
  · by_cases h : e ∈ f.edges
    · have := hf e h
      exact .inl (by simp [addEdge, h, this])
    · refine .inr (Nat.add_lt_add_of_lt_of_le (Finset.card_lt_card ?_) ?_)
      · refine Finset.ssubset_iff_subset_ne.2 ⟨fun d hd => ?_, fun heq => ?_⟩
        · obtain ⟨hmem, hd⟩ := Finset.mem_filter.1 hd
          exact Finset.mem_filter.2 ⟨hmem, fun h' => hd ((mem_edges_addEdge f e d).2 (.inr h'))⟩
        · have hold : e ∈ c.edges.toFinset.filter (· ∉ f.edges) :=
            Finset.mem_filter.2 ⟨List.mem_toFinset.2 he, h⟩
          rw [← heq] at hold
          exact (Finset.mem_filter.1 hold).2 ((mem_edges_addEdge f e e).2 (.inl rfl))
      · simp

theorem lift_descends {c : Cfg} {f : Facts} (hf : f.Entered) {t : Temp} (ht : t ∈ temps c) (v : Value) :
    (f.lift t v).Entered ∧ Descends (slack c) f (f.lift t v) := by
  refine ⟨by simpa [Entered] using hf, ?_⟩
  by_cases h : (f.value t).join v = f.value t
  · exact .inl (by simp [lift, h])
  · have hlt := Value.rank_lt_join h
    have hle := Value.rank_le ((f.value t).join v)
    refine .inr (Nat.add_lt_add_of_le_of_lt ?_ (Finset.sum_lt_sum (fun u _ => ?_) ⟨t, List.mem_toFinset.2 ht, ?_⟩))
    · simp
    · rw [value_lift]
      split
      · subst u; omega
      · exact Nat.le_refl _
    · rw [value_lift, if_pos rfl]
      omega

/-! ## Rounds -/

theorem mem_openEdges {f : Facts} {c : Cfg} {e : Label × Label} :
    e ∈ f.openEdges c ↔ ∃ b ∈ c.blocks, f.executes b.label = true ∧ e.1 = b.label ∧
      e.2 ∈ f.openTargets b.jumps := by
  simp only [openEdges, List.mem_flatMap, List.mem_filter, List.mem_map]
  constructor
  · rintro ⟨b, ⟨hb, hx⟩, t, ht, rfl⟩
    exact ⟨b, hb, hx, rfl, ht⟩
  · rintro ⟨b, hb, hx, h₁, h₂⟩
    exact ⟨b, ⟨hb, hx⟩, e.2, h₂, by rw [← h₁]⟩

/-- Only jumps lead anywhere. -/
theorem mem_targets_of_openTargets {f : Facts} {js : List Instr} {t : Label}
    (h : t ∈ f.openTargets js) : t ∈ js.filterMap Instr.target? := by
  induction js with
  | nil => simp [openTargets] at h
  | cons j js ih =>
    cases j with
    | jump l => simp_all [openTargets, Instr.target?]
    | branch cond v l =>
      simp only [openTargets] at h
      have ih := fun h => List.mem_cons_of_mem l (ih h)
      rw [List.filterMap_cons]
      simp only [Instr.target?]
      split at h
      · rcases List.mem_cons.1 h with rfl | h
        · exact List.mem_cons_self
        · exact ih h
      · simp at h
      · split at h
        · simp [List.mem_singleton.1 h]
        · exact ih h
    | _ => simp [openTargets] at h

theorem openEdges_subset {f : Facts} {c : Cfg} : ∀ e ∈ f.openEdges c, e ∈ c.edges := by
  intro e he
  obtain ⟨b, hb, -, h₁, h₂⟩ := mem_openEdges.1 he
  refine List.mem_flatMap.2 ⟨b, hb, List.mem_map.2 ⟨e.2, ?_, by rw [← h₁]⟩⟩
  exact List.mem_eraseDups.2 (mem_targets_of_openTargets h₂)

theorem followJumps_descends {c : Cfg} {f : Facts} (hf : f.Entered) :
    (f.followJumps c).Entered ∧ Descends (slack c) f (f.followJumps c) ∧
      (f.followJumps c = f → ∀ e ∈ f.openEdges c, f.addEdge e = f) :=
  Descends.foldl (P := Entered) (fun e he _ hf => addEdge_descends hf (openEdges_subset e he)) hf

theorem dest?_mem_temps {c : Cfg} {b : Block} (hb : b ∈ c.blocks) {i : Instr} (hi : i ∈ b.body)
    {t : Temp} (ht : i.dest? = some t) : t ∈ temps c := by
  have : i ∈ c.instrs := List.mem_flatMap.2 ⟨b, hb, List.mem_append_left _ hi⟩
  exact List.mem_eraseDups.2 (List.mem_flatMap.2 ⟨i, this, by simp [ht]⟩)

theorem visit_descends {c : Cfg} {b : Block} (hb : b ∈ c.blocks) {i : Instr} (hi : i ∈ b.body)
    {f : Facts} (hf : f.Entered) :
    (visit b.label f i).Entered ∧ Descends (slack c) f (visit b.label f i) := by
  unfold visit
  split
  · rename_i t v ht hv
    exact lift_descends hf (dest?_mem_temps hb hi ht) v
  · exact ⟨hf, .refl f⟩

theorem evaluateBlocks_descends {c : Cfg} {f : Facts} (hf : f.Entered) :
    (f.evaluateBlocks c).Entered ∧ Descends (slack c) f (f.evaluateBlocks c) ∧
      (f.evaluateBlocks c = f → ∀ b ∈ c.blocks, f.executes b.label = true → ∀ i ∈ b.body,
        visit b.label f i = f) := by
  have hbody : ∀ b ∈ c.blocks, ∀ f : Facts, f.Entered →
      (b.body.foldl (visit b.label) f).Entered ∧
      Descends (slack c) f (b.body.foldl (visit b.label) f) ∧
      (b.body.foldl (visit b.label) f = f → ∀ i ∈ b.body, visit b.label f i = f) :=
    fun b hb f hf => Descends.foldl (P := Entered) (fun i hi _ hf => visit_descends hb hi hf) hf
  have hblock : ∀ b ∈ c.blocks, ∀ f : Facts, f.Entered →
      (if f.executes b.label then b.body.foldl (visit b.label) f else f).Entered ∧
        Descends (slack c) f (if f.executes b.label then b.body.foldl (visit b.label) f else f) := by
    intro b hb f hf
    split
    · exact ⟨(hbody b hb f hf).1, (hbody b hb f hf).2.1⟩
    · exact ⟨hf, .refl f⟩
  obtain ⟨h₁, h₂, h₃⟩ := Descends.foldl hblock hf
  refine ⟨h₁, h₂, fun he b hb hx => (hbody b hb f hf).2.2 ?_⟩
  simpa only [hx, if_true] using h₃ he b hb

theorem round_descends {c : Cfg} {f : Facts} (hf : f.Entered) :
    (f.round c).Entered ∧ Descends (slack c) f (f.round c) := by
  obtain ⟨h₁, h₂, -⟩ := followJumps_descends (c := c) hf
  obtain ⟨h₃, h₄, -⟩ := evaluateBlocks_descends (c := c) h₁
  exact ⟨h₃, h₂.trans h₄⟩

/-! ## Closed facts -/

/-- Facts that neither rule adds to. -/
structure Closed (c : Cfg) (f : Facts) : Prop where
  entry : f.executes c.entry = true
  /-- Names that may be parameters vary. -/
  initial (t : Temp) : Value.initial t ≤ f.value t
  edge {b : Block} {t : Label} : b ∈ c.blocks → f.executes b.label = true →
    t ∈ f.openTargets b.jumps → f.follows b.label t = true
  target {l t : Label} : f.follows l t = true → f.executes t = true
  value {b : Block} {i : Instr} {t : Temp} {v : Value} : b ∈ c.blocks → f.executes b.label = true →
    i ∈ b.body → i.dest? = some t → f.evaluate? b.label i = some v → v ≤ f.value t

/-- Values only rise. -/
theorem value_le_lift (f : Facts) (t u : Temp) (v : Value) : f.value u ≤ (f.lift t v).value u := by
  rw [value_lift]
  split
  · subst u; exact Value.le_join_left _ _
  · exact Value.le_refl _

theorem openTargets_addEdge (f : Facts) (e : Label × Label) (js : List Instr) :
    (f.addEdge e).openTargets js = f.openTargets js := by
  induction js with
  | nil => rfl
  | cons j js ih =>
    cases j with
    | branch cond v l =>
      have : (f.addEdge e).operand v = f.operand v := by cases v <;> rfl
      simp only [openTargets, this, ih]
    | _ => rfl

/-- More is open where more is known. -/
theorem openTargets_mono {f f' : Facts} (h : ∀ t, f.value t ≤ f'.value t) {js : List Instr} {t : Label}
    (ht : t ∈ f.openTargets js) : t ∈ f'.openTargets js := by
  induction js with
  | nil => simp [openTargets] at ht
  | cons j js ih =>
    cases j with
    | jump l => exact ht
    | branch cond v l =>
      have hv : f.operand v ≤ f'.operand v := by
        cases v with
        | temp u => exact h u
        | imm k => exact Value.le_refl _
      simp only [openTargets] at ht ⊢
      split at ht
      · rename_i hf
        rw [hf, Value.varies_le] at hv
        rw [hv]
        exact (List.mem_cons.1 ht).elim (fun e => e ▸ .head _) fun h => .tail _ (ih h)
      · simp at ht
      · rename_i k hf
        rw [hf, Value.constant_le] at hv
        rcases hv with hv | hv <;> rw [hv] <;> dsimp only
        · split at ht
          · rwa [if_pos ‹_›]
          · rw [if_neg ‹_›]; exact ih ht
        · split at ht
          · exact List.mem_singleton.1 ht ▸ .head _
          · exact .tail _ (ih ht)
    | _ => exact ht

/-! ## Single steps -/

/-- One step of either rule: an edge that control can take is taken in, or an instruction of a block that
executes is evaluated. -/
inductive Step (c : Cfg) : Facts → Facts → Prop
  | follow {f : Facts} {e : Label × Label} : e ∈ f.openEdges c → Step c f (f.addEdge e)
  | visit {f : Facts} {b : Block} {i : Instr} : b ∈ c.blocks → f.executes b.label = true → i ∈ b.body →
      Step c f (f.visit b.label i)

theorem openEdges_addEdge {c : Cfg} {f : Facts} {e d : Label × Label} (hd : d ∈ f.openEdges c) :
    d ∈ (f.addEdge e).openEdges c := by
  obtain ⟨b, hb, hx, h₁, h₂⟩ := mem_openEdges.1 hd
  refine mem_openEdges.2 ⟨b, hb, ?_, h₁, by rwa [openTargets_addEdge]⟩
  simp only [executes, List.contains_iff_mem] at hx ⊢
  simp [hx]

@[simp] theorem executes_visit (f : Facts) (l k : Label) (i : Instr) :
    (f.visit l i).executes k = f.executes k := by
  unfold visit
  split
  · simp [executes]
  · rfl

/-- Edges that are open stay so while they are taken in. -/
theorem steps_foldl_addEdge {c : Cfg} {es : List (Label × Label)} {f : Facts} (hes : ∀ e ∈ es, e ∈ f.openEdges c) :
    Relation.ReflTransGen (Step c) f (es.foldl addEdge f) := by
  induction es generalizing f with
  | nil => exact .refl
  | cons e es ih =>
    exact .head (.follow (hes e List.mem_cons_self)) (ih fun d hd => openEdges_addEdge (hes d (.tail _ hd)))

theorem steps_foldl_visit {c : Cfg} {b : Block} (hb : b ∈ c.blocks) {is : List Instr} (his : ∀ i ∈ is, i ∈ b.body)
    {f : Facts} (hx : f.executes b.label = true) : Relation.ReflTransGen (Step c) f (is.foldl (visit b.label) f) := by
  induction is generalizing f with
  | nil => exact .refl
  | cons i is ih =>
    refine .head (.visit hb hx (his i List.mem_cons_self)) (ih (fun j hj => his j (.tail _ hj)) ?_)
    rwa [executes_visit]

theorem steps_evaluateBlocks (c : Cfg) (f : Facts) : Relation.ReflTransGen (Step c) f (f.evaluateBlocks c) := by
  have hsteps : ∀ {bs : List Block} {f : Facts}, (∀ b ∈ bs, b ∈ c.blocks) → Relation.ReflTransGen (Step c) f
      (bs.foldl (fun f b => if f.executes b.label then b.body.foldl (visit b.label) f else f) f) := by
    intro bs f hbs
    induction bs generalizing f with
    | nil => exact .refl
    | cons b bs ih =>
      refine .trans ?_ (ih fun d hd => hbs d (.tail _ hd))
      dsimp only
      split
      · exact steps_foldl_visit (hbs b List.mem_cons_self) (fun _ h => h) ‹_›
      · exact .refl
  exact hsteps fun _ h => h

/-- A round is made of steps. -/
theorem steps_round (c : Cfg) (f : Facts) : Relation.ReflTransGen (Step c) f (f.round c) :=
  (steps_foldl_addEdge fun _ h => h).trans (steps_evaluateBlocks c _)

/-- The analysis is made of steps. -/
theorem steps_analyze (c : Cfg) : Relation.ReflTransGen (Step c) (start c) (analyze c) :=
  untilStable_induction (P := Relation.ReflTransGen (Step c) (start c))
    (fun f hf => hf.trans (steps_round c f)) _ .refl

/-- What every step keeps holds in the end. -/
theorem analyze_induction {c : Cfg} {P : Facts → Prop} (start : P (start c))
    (edge : ∀ f e, P f → e ∈ f.openEdges c → P (f.addEdge e))
    (lift : ∀ f t v, P f → P (f.lift t v)) : P (analyze c) := by
  have hsteps := steps_analyze c
  generalize analyze c = g at hsteps
  induction hsteps with
  | refl => exact start
  | tail _ hstep ih =>
    cases hstep with
    | follow he => exact edge _ _ ih he
    | visit _ _ _ =>
      unfold visit
      split
      · exact lift _ _ _ ih
      · exact ih

theorem entered_analyze (c : Cfg) : (analyze c).Entered := by
  refine analyze_induction (P := Entered) (by simp [Entered, start]) ?_ ?_
  · intro f e hf he
    exact (addEdge_descends hf (openEdges_subset e he)).1
  · intro f t v hf
    simpa [Entered] using hf

theorem executes_entry_analyze (c : Cfg) : (analyze c).executes c.entry = true := by
  refine analyze_induction (P := fun f => f.executes c.entry = true) (by simp [start, executes]) ?_ ?_
  · intro f e hf _
    simp only [executes, List.contains_iff_mem] at hf ⊢
    simp [hf]
  · intro f t v hf
    simpa [executes] using hf

/-- Values only rise. -/
theorem initial_le_analyze (c : Cfg) (t : Temp) : Value.initial t ≤ (analyze c).value t := by
  refine analyze_induction (P := fun f => Value.initial t ≤ f.value t) (Value.le_refl _) ?_ ?_
  · exact fun f e hf _ => hf
  · exact fun f u v hf => Value.le_trans hf (value_le_lift f u t v)

/-- There are enough rounds: another one changes nothing. -/
theorem round_analyze (c : Cfg) : (analyze c).round c = analyze c :=
  untilStable_of_descends (fun _ hf => round_descends hf) (by simp [Entered, start]) (slack_le c _)

/-- What the analysis finds is closed. -/
theorem closed_analyze (c : Cfg) : (analyze c).Closed c := by
  obtain ⟨h₁, h₂, hjumps⟩ := followJumps_descends (c := c) (entered_analyze c)
  obtain ⟨-, h₄, hblocks⟩ := evaluateBlocks_descends (c := c) h₁
  -- Neither half of a round changes anything, as what one half changes the other cannot undo.
  have hsame : (analyze c).followJumps c = analyze c := h₂.eq_of_eq h₄ (round_analyze c)
  rw [hsame] at hblocks
  have hblocks := hblocks (by simpa only [round, hsame] using round_analyze c)
  refine ⟨executes_entry_analyze c, initial_le_analyze c, fun {b t} hb hx ht => ?_, fun {l t} h => ?_,
    fun {b i t v} hb hx hi ht hv => ?_⟩
  · have he := hjumps hsame (b.label, t) (mem_openEdges.2 ⟨b, hb, hx, rfl, ht⟩)
    have := (mem_edges_addEdge (analyze c) (b.label, t) (b.label, t)).2 (.inl rfl)
    simpa only [he, follows, List.contains_iff_mem] using this
  · simp only [follows, executes, List.contains_iff_mem] at h ⊢
    exact entered_analyze c _ h
  · have hvisit := hblocks b hb hx i hi
    simp only [visit, ht, hv] at hvisit
    exact lift_eq_self hvisit

/-- Nothing executes without a reason: an edge leaves a block that executes, whose jumps let control
go there. -/
theorem open_of_follows {c : Cfg} {l t : Label} (h : (analyze c).follows l t = true) :
    ∃ b ∈ c.blocks, (analyze c).executes b.label = true ∧ b.label = l ∧
      t ∈ (analyze c).openTargets b.jumps := by
  have key : ∀ e ∈ (analyze c).edges, e ∈ (analyze c).openEdges c := by
    refine analyze_induction (P := fun f => ∀ e ∈ f.edges, e ∈ f.openEdges c) (by simp [start]) ?_ ?_
    · intro f e hf he d hd
      exact openEdges_addEdge ((mem_edges_addEdge f e d).1 hd |>.elim (· ▸ he) (hf d))
    · intro f u v hf d hd
      obtain ⟨b, hb, hx, h₁, h₂⟩ := mem_openEdges.1 (hf d (by simpa using hd))
      exact mem_openEdges.2 ⟨b, hb, by simpa [executes] using hx, h₁,
        openTargets_mono (fun t => value_le_lift f u t v) h₂⟩
  obtain ⟨b, hb, hx, h₁, h₂⟩ := mem_openEdges.1 (key (l, t) (by simpa [follows] using h))
  exact ⟨b, hb, hx, h₁.symm, h₂⟩

end Facts

end ThreeAddress.Constants

import ThreeAddress.Proofs.Constants.Least
import ThreeAddress.Proofs.Constants.Total
/-!
# Folding twice

What is known of a folded graph is what was known of the graph before it was folded (`agrees_analyze`), so that
there is nothing left to fold (`foldConstants_fixed`).

One half of that is simple: what was known absorbs the folded graph. For the other half, what the second analysis
knows is brought back to the graph of the first one, with the constants that have been folded (`Facts.restored`).
Brought back it absorbs that graph, unless an instruction has been deleted that gave its destination a value. That
happens where one operand of a binary operator varies and the other one is never defined (`isHalfDefined`): the
operator is found to vary, and deleted for being undefined.
-/

namespace ThreeAddress.Constants

variable {f g r : Facts} {c : Cfg}

/-! ## Operands -/

theorem operand_fold (f : Facts) (o : Operand) : f.operand (fold f o) = f.operand o := by
  cases o with
  | imm k => rfl
  | temp t => cases h : f.value t <;> simp [fold, Facts.operand, Value.constant?, h]

theorem fold_of_constant {o : Operand} {k : Int64} (h : f.operand o = .constant k) : fold f o = .imm k := by
  cases o with
  | imm j => cases h; rfl
  | temp t =>
    have ht : f.value t = .constant k := h
    simp [fold, Value.constant?, ht]

theorem fold_of_varies {t : Temp} (h : f.value t = .varies) : fold f (.temp t) = .temp t := by
  simp [fold, Value.constant?, h]

theorem fold_of_unused {t : Temp} (h : f.value t = .unused) : fold f (.temp t) = .temp t := by
  simp [fold, Value.constant?, h]

/-! ## Facts brought back -/

namespace Facts

/-- Facts `r` about a graph that are in `g` about the graph folded by `f`: what they say of an operand is what `g`
says of the operand in its place. -/
structure Restores (f g r : Facts) : Prop where
  executes (l : Label) : r.executes l = g.executes l
  follows (k l : Label) : r.follows k l = g.follows k l
  operand (o : Operand) : r.operand o = g.operand (fold f o)
  below : r.Below f

theorem Restores.self (f : Facts) : Restores f f f where
  executes _ := rfl
  follows _ _ := rfl
  operand o := (operand_fold f o).symm
  below := ⟨id, id, fun _ => Value.le_refl _⟩

/-- The facts about a folded graph, with the constants that have been folded. -/
def restored (f g : Facts) : Facts :=
  { g with values := ⟨(f.values.entries ++ g.values.entries).map fun e => (e.1, g.operand (fold f (.temp e.1)))⟩ }

theorem value_restored (f g : Facts) (t : Temp) : (restored f g).value t = g.operand (fold f (.temp t)) := by
  have hlookup := lookup_map_key (fun t => g.operand (fold f (.temp t))) (f.values.entries ++ g.values.entries) t
  simp only [value, restored, Table.get?, hlookup]
  cases h : (f.values.entries ++ g.values.entries).lookup t with
  | some v => rfl
  | none =>
    -- neither has raised the temporary
    obtain ⟨hf, hg⟩ : f.values.entries.lookup t = none ∧ g.values.entries.lookup t = none := by
      simpa [List.lookup_append] using h
    have hvalue : f.value t = .initial t := by simp [value, Table.get?, hf]
    have hfold : fold f (.temp t) = .temp t := by
      cases ht : t.isVersioned with
      | false => exact fold_of_varies (by simp [hvalue, Value.initial, ht])
      | true => exact fold_of_unused (by simp [hvalue, Value.initial, ht])
    simp [hfold, operand, value, Table.get?, hg]

theorem restores_restored (h : g.Below f) : Restores f g (restored f g) where
  executes _ := rfl
  follows _ _ := rfl
  operand o := by
    cases o with
    | imm k => rfl
    | temp t => exact value_restored f g t
  below := by
    refine ⟨h.executes, h.follows, fun t => ?_⟩
    rw [value_restored]
    exact (operand_fold f (.temp t)).subst (h.operand (fold f (.temp t)))

end Facts

namespace Facts.Restores

/-- Control can go where it could. -/
theorem openTargets (h : Restores f g r) (js : List Instr) :
    g.openTargets ((resolveJumps f js).map (·.mapOperands (fold f))) = r.openTargets js := by
  induction js with
  | nil => rfl
  | cons j js ih =>
    cases j with
    | branch cond v l =>
      cases hv : f.operand v with
      | varies =>
        have hmap : (Instr.branch cond v l).mapOperands (fold f) = .branch cond (fold f v) l := rfl
        rw [resolveJumps_varies hv, List.map_cons, hmap]
        simp only [Facts.openTargets, ← h.operand, ih]
      | constant k =>
        have hr : r.operand v = .constant k := by
          rw [h.operand, fold_of_constant hv]
          rfl
        simp only [Facts.openTargets, hr]
        by_cases hk : cond.holds k = true
        · rw [resolveJumps_taken hv hk, if_pos hk]
          rfl
        · rw [resolveJumps_skipped hv hk, if_neg hk, ih]
      | unused =>
        -- Nothing is known of the condition, and control goes on from neither.
        have hr : r.operand v = .unused := Value.le_antisymm (hv ▸ h.below.operand v) (Value.unused_le _)
        rw [resolveJumps_unused hv]
        simp only [Facts.openTargets, hr]
        rfl
    | ret v? =>
      cases v? with
      | none => rfl
      | some v =>
        rw [resolveJumps_ret]
        rfl
    | jump l => rfl
    | _ => rfl

/-- Instructions that stay are evaluated to what they were. -/
theorem evaluate? (h : Restores f g r) (l : Label) (i : Instr) :
    g.evaluate? l ((rewriting f).instr l i) = r.evaluate? l i := by
  cases i with
  | phi dest sources =>
    have hfilter : ∀ e : Label × Operand, (g.follows e.1 l && f.follows e.1 l) = r.follows e.1 l := by
      intro e
      rw [← h.follows]
      cases hr : r.follows e.1 l with
      | false => rfl
      | true => rw [h.below.follows hr]; rfl
    simp only [Rewriting.instr, Facts.evaluate?, Facts.phi, PhiSources.filter, PhiSources.mapOperands,
      PhiSources.operands, List.filter_map, List.filter_filter, List.map_map, List.foldl_map, Function.comp_def,
      rewriting, hfilter, ← h.operand]
  | _ => simp only [Rewriting.instr, Instr.mapOperands, Facts.evaluate?, rewriting, ← h.operand]

end Facts.Restores

/-! ## Instructions that are deleted -/

/-- A binary operator on something that varies and something that is never defined. Its result varies, and it is
deleted. -/
def isHalfDefined (f : Facts) : Instr → Bool
  | .binary dest _ left right => dest.isVersioned &&
      (f.operand left = .unused && f.operand right = .varies || f.operand left = .varies && f.operand right = .unused)
  | _ => false

theorem binary?_unused_left (op : BinaryOp) {a : Value} (ha : a ≠ .varies) : Facts.binary? op .unused a = none := by
  cases a <;> first | rfl | exact absurd rfl ha

theorem binary?_unused_right (op : BinaryOp) {a : Value} (ha : a ≠ .varies) : Facts.binary? op a .unused = none := by
  cases a <;> first | rfl | exact absurd rfl ha

/-- Where something is never defined there is nothing to say, unless the other operand varies. -/
theorem eq_unused_of_evaluate? (hbelow : r.Below f) {i : Instr} {t : Temp} {l : Label} {v : Value}
    (ht : i.dest? = some t) (hversion : t.isVersioned = true) (hhalf : isHalfDefined f i = false)
    (hphi : i.isPhi = false) {o : Operand} (ho : o ∈ i.uses) (hunused : f.operand o = .unused)
    (hv : r.evaluate? l i = some v) : v = .unused := by
  have hlow : r.operand o = .unused := Value.le_antisymm (hunused ▸ hbelow.operand o) (Value.unused_le _)
  cases i with
  | copy d s =>
    obtain rfl := List.mem_singleton.1 ho
    exact (Option.some.inj hv).symm.trans hlow
  | unary d op x =>
    obtain rfl := List.mem_singleton.1 ho
    rw [Facts.evaluate?, hlow] at hv
    cases hv
  | binary d op x y =>
    cases ht
    have hvaries : ∀ p, r.operand p = .varies → f.operand p = .varies := fun p hp =>
      Value.varies_le.1 (hp ▸ hbelow.operand p)
    simp only [Facts.evaluate?] at hv
    simp only [isHalfDefined, hversion, Bool.true_and, Bool.or_eq_false_iff, Bool.and_eq_false_iff,
      decide_eq_false_iff_not] at hhalf
    -- If the other operand varied, then the instruction would be half defined.
    rcases List.mem_pair.1 ho with rfl | rfl
    · have hy : r.operand y ≠ .varies := fun hy => hhalf.1.elim (· hunused) (· (hvaries y hy))
      rw [hlow, binary?_unused_left op hy] at hv
      cases hv
    · have hx : r.operand x ≠ .varies := fun hx => hhalf.2.elim (· (hvaries x hx)) (· hunused)
      rw [hlow, binary?_unused_right op hx] at hv
      cases hv
  | phi d sources => cases hphi
  | const d k => cases ho
  | call d target n => cases ho
  | _ => cases ht

/-! ## The second analysis -/

/-- What was known absorbs the folded graph. -/
theorem analyze_absorbs_folded (c : Cfg) : (analyze c).Absorbs (Folding.folded ⟨analyze c, c⟩) := by
  have hf := (Facts.closed_analyze c).absorbs
  have hself := Facts.Restores.self (analyze c)
  refine ⟨hf.entry, hf.initial, fun {b' t} hb' _ ht => ?_, fun {b' i' t v} hb' _ hi' ht hv => ?_⟩ <;>
    obtain ⟨b, hb, hx, rfl⟩ := mem_folded.1 hb'
  · exact hf.jump (b := b) hb hx (hself.openTargets b.jumps ▸ ht)
  · obtain ⟨i, hi, rfl⟩ := List.mem_map.1 hi'
    rw [Rewriting.dest?_instr] at ht
    exact hf.value (b := b) hb hx (List.mem_filter.1 hi).1 ht (hself.evaluate? b.label i ▸ hv)

namespace Facts.Restores

theorem value_of_constant (h : Restores f g r) {t : Temp} {k : Int64} (ht : f.value t = .constant k) :
    r.value t = .constant k := by
  have hr : r.value t = g.operand (fold f (.temp t)) := h.operand (.temp t)
  rw [hr, fold_of_constant (o := .temp t) ht]
  rfl

theorem value_of_varies (h : Restores f g r) {t : Temp} (ht : f.value t = .varies) : r.value t = g.value t := by
  have hr : r.value t = g.operand (fold f (.temp t)) := h.operand (.temp t)
  rw [hr, fold_of_varies ht]
  rfl

/-- What an instruction is evaluated to is no news about its destination if that varied, whether or not the
instruction has been deleted. -/
theorem le_of_varies (h : Restores f g r) {d : Cfg} (hg : g.Absorbs d) {b : Block} (hb : foldBlock f b ∈ d.blocks)
    (hx : g.executes b.label = true) {i : Instr} (hi : i ∈ b.body) (hhalf : isHalfDefined f i = false) {t : Temp}
    (ht : i.dest? = some t) (hvaries : f.value t = .varies) {v : Value} (hv : r.evaluate? b.label i = some v) :
    v ≤ g.value t := by
  cases hu : isUndefined f i with
  | false =>
    have hkeeps : (rewriting f).keeps i = true := by
      simp [rewriting, hu, definesConstant, ht, hvaries, Value.constant?]
    exact hg.value hb hx (List.mem_map_of_mem (List.mem_filter.2 ⟨hi, hkeeps⟩))
      ((Rewriting.dest?_instr _ _ i).trans ht) ((h.evaluate? b.label i).trans hv)
  | true =>
    cases hversion : t.isVersioned with
    | false =>
      have hinitial := hg.initial t
      rw [Value.initial, if_neg (by simp [hversion]), Value.varies_le] at hinitial
      exact hinitial ▸ Value.le_varies v
    | true =>
      rcases exists_of_isUndefined hu with ⟨u, hu, hunused⟩ | ⟨hphi, u, hread, hunused⟩
      · cases ht.symm.trans hu
        rw [hvaries] at hunused
        cases hunused
      · have ho := Instr.mem_usedTemps.1 hread
        exact eq_unused_of_evaluate? h.below ht hversion hhalf hphi ho hunused hv ▸ Value.unused_le _

/-- What is known of the folded graph, brought back, absorbs the graph that was folded. -/
theorem absorbs (h : Restores (analyze c) g r) (hg : g.Absorbs (Folding.folded ⟨analyze c, c⟩))
    (hhalf : ∀ b ∈ c.blocks, (analyze c).executes b.label = true → ∀ i ∈ b.body, isHalfDefined (analyze c) i = false) :
    r.Absorbs c := by
  have hf := (closed_analyze c).absorbs
  refine ⟨(h.executes c.entry).trans hg.entry, fun t => ?_, fun {b t} hb hx ht => ?_,
    fun {b i t v} hb hx hi ht hv => ?_⟩
  · cases ht : t.isVersioned with
    | true => simp [Value.initial, ht, Value.unused_le]
    | false => exact h.value_of_varies ((closed_analyze c).value_of_not_versioned ht) ▸ hg.initial t
  · have hmem := mem_folded.2 ⟨b, hb, h.below.executes hx, rfl⟩
    rw [h.executes] at hx
    rw [h.follows, h.executes]
    exact hg.jump (b := foldBlock (analyze c) b) hmem hx ((h.openTargets b.jumps).symm ▸ ht)
  · have hmem := mem_folded.2 ⟨b, hb, h.below.executes hx, rfl⟩
    obtain ⟨w, hw, hle⟩ := evaluate?_mono h.below hv
    have hbound := Value.le_trans hle (hf.value hb (h.below.executes hx) hi ht hw)
    cases hvalue : (analyze c).value t with
    | unused =>
      rw [hvalue] at hbound
      exact Value.le_antisymm hbound (Value.unused_le v) ▸ Value.unused_le _
    | constant k => rwa [h.value_of_constant hvalue, ← hvalue]
    | varies =>
      rw [h.value_of_varies hvalue]
      exact h.le_of_varies hg hmem (h.executes b.label ▸ hx) hi (hhalf b hb (h.below.executes hx) i hi) ht hvalue hv

end Facts.Restores

/-- Facts about a folded graph that are no news: what they say of an operand was known of the one in whose place
it stands. -/
structure Facts.Agrees (f g : Facts) : Prop where
  executes (l : Label) : g.executes l = f.executes l
  follows (k l : Label) : g.follows k l = f.follows k l
  operand (o : Operand) : g.operand (fold f o) = f.operand o

/-- The second analysis finds what the first one did. -/
theorem agrees_analyze
    (hhalf : ∀ b ∈ c.blocks, (analyze c).executes b.label = true → ∀ i ∈ b.body, isHalfDefined (analyze c) i = false) :
    (analyze c).Agrees (analyze (Folding.folded ⟨analyze c, c⟩)) := by
  have hg := (Facts.closed_analyze (Folding.folded ⟨analyze c, c⟩)).absorbs
  have hbelow := Facts.below_of_steps (Facts.steps_analyze _) (analyze_absorbs_folded c)
  have hrestores := Facts.restores_restored hbelow
  have habove := Facts.below_of_steps (Facts.steps_analyze c) (hrestores.absorbs hg hhalf)
  obtain ⟨hexecutes, hfollows, -⟩ := habove.agree hrestores.below
  refine ⟨fun l => (hexecutes l).symm, fun k l => (hfollows k l).symm, fun o => ?_⟩
  rw [← hrestores.operand]
  exact Value.le_antisymm (hrestores.below.operand o) (habove.operand o)

/-! ## Nothing is left to fold -/

/-- What a folded block reads has been folded. -/
theorem exists_fold_of_mem_foldBlock {b : Block} {i' : Instr} (hi' : i' ∈ (foldBlock f b).instrs) {o' : Operand}
    (ho' : o' ∈ i'.uses) : ∃ o, fold f o = o' := by
  rcases List.mem_append.1 hi' with hi' | hj'
  · obtain ⟨i, -, -, rfl⟩ := Rewriting.mem_body.1 hi'
    cases hphi : i.isPhi with
    | false =>
      rw [Rewriting.instr_of_not_phi _ _ hphi] at ho'
      obtain ⟨o, -, ho⟩ := Instr.mem_uses_mapOperands.1 ho'
      exact ⟨o, ho⟩
    | true =>
      cases i with
      | phi dest sources =>
        obtain ⟨o, -, ho⟩ := PhiSources.exists_of_mem_mapOperands_filter ho'
        exact ⟨o, ho⟩
      | _ => cases hphi
  · obtain ⟨j, -, rfl⟩ := List.mem_map.1 hj'
    obtain ⟨o, -, ho⟩ := Instr.mem_uses_mapOperands.1 ho'
    exact ⟨o, ho⟩

namespace Facts.Agrees

/-- As much is known of a temporary that takes no constant's place. -/
theorem value (h : f.Agrees g) {o : Operand} {t : Temp} (ho : fold f o = .temp t) : g.value t = f.value t := by
  have hvalue := h.operand o
  rw [ho, eq_of_fold ho] at hvalue
  exact hvalue

theorem fold_fold (h : f.Agrees g) (o : Operand) : fold g (fold f o) = fold f o := by
  refine fold_eq_self_iff.2 fun t ht => ?_
  have hfixed := Constants.fold_fold f o
  rw [ht] at hfixed
  rw [h.value ht]
  exact fold_eq_self_iff.1 hfixed t rfl

/-- Jumps that remain stay. -/
theorem resolveJumps_map (h : f.Agrees g) (js : List Instr) :
    resolveJumps g ((resolveJumps f js).map (·.mapOperands (fold f))) =
      (resolveJumps f js).map (·.mapOperands (fold f)) := by
  induction js with
  | nil => rfl
  | cons j js ih =>
    cases j with
    | branch cond v l =>
      cases hv : f.operand v with
      | varies =>
        have hmap : (Instr.branch cond v l).mapOperands (fold f) = .branch cond (fold f v) l := rfl
        rw [resolveJumps_varies hv, List.map_cons, hmap, resolveJumps_varies ((h.operand v).trans hv), ih]
      | constant k =>
        by_cases hk : cond.holds k = true
        · rw [resolveJumps_taken hv hk]
          rfl
        · rw [resolveJumps_skipped hv hk, ih]
      | unused =>
        rw [resolveJumps_unused hv]
        rfl
    | ret v? =>
      cases v? with
      | none => rfl
      | some v =>
        rw [resolveJumps_ret]
        by_cases hv : f.operand v = .unused
        · rw [if_pos hv]
          rfl
        · have hmap : (Instr.ret (some v)).mapOperands (fold f) = .ret (some (fold f v)) := rfl
          rw [if_neg hv, List.map_singleton, hmap, resolveJumps_ret, if_neg]
          rwa [h.operand]
    | _ => rfl

theorem losesSource_instr (h : f.Agrees g) (l : Label) (i : Instr) :
    losesSource g l ((rewriting f).instr l i) = false := by
  cases i with
  | phi dest sources => simp [Rewriting.instr, losesSource, rewriting, h.follows]
  | _ => rfl

/-- An instruction that stays writes what varies. -/
theorem value_of_keeps (h : f.Agrees g) {i : Instr} (hk : (rewriting f).keeps i = true) {t : Temp}
    (ht : i.dest? = some t) : g.value t = .varies := by
  obtain ⟨hdefined, hconstant⟩ : isUndefined f i = false ∧ definesConstant f i = false := by
    simpa [rewriting] using hk
  have hvalue : f.value t = .varies := by
    cases hv : f.value t with
    | varies => rfl
    | constant k => simp [definesConstant, ht, hv, Value.constant?] at hconstant
    | unused => cases i <;> simp_all [isUndefined, Instr.dest?]
  rw [← hvalue]
  exact h.value (fold_of_varies hvalue)

theorem isUndefined_instr (h : f.Agrees g) (l : Label) {i : Instr} (hk : (rewriting f).keeps i = true) :
    isUndefined g ((rewriting f).instr l i) = false := by
  by_cases hparam : ∃ k v, i = .param k v
  · obtain ⟨k, v, rfl⟩ := hparam
    rfl
  refine isUndefined_eq_false (fun t ht => ?_) fun hphi t ht => ?_
  · rw [h.value_of_keeps hk ((Rewriting.dest?_instr _ l i).symm.trans ht)]
    exact Value.varies_ne_unused
  · rw [Rewriting.isPhi_instr] at hphi
    rw [Rewriting.instr_of_not_phi _ _ hphi] at ht
    obtain ⟨o, ho, hot⟩ := Instr.mem_usedTemps_mapOperands.1 ht
    rw [h.value hot]
    obtain rfl := eq_of_fold hot
    intro hunused
    have hdefined : isUndefined f i = false := by
      simp only [rewriting, Bool.and_eq_true, Bool.not_eq_true'] at hk
      exact hk.1
    rw [isUndefined_of_read (fun k v he => hparam ⟨k, v, he⟩) hphi (Instr.mem_usedTemps.2 ho) hunused] at hdefined
    cases hdefined

theorem untouched_foldBlock (h : f.Agrees g) (b : Block) : Untouched g (foldBlock f b) where
  jumps := h.resolveJumps_map b.jumps
  source i' hi' := by
    obtain ⟨i, -, -, rfl⟩ := Rewriting.mem_body.1 hi'
    exact h.losesSource_instr b.label i
  defined i' hi' := by
    obtain ⟨i, -, hk, rfl⟩ := Rewriting.mem_body.1 hi'
    exact h.isUndefined_instr b.label hk
  varies i' hi' := by
    obtain ⟨i, -, hk, rfl⟩ := Rewriting.mem_body.1 hi'
    rw [definesConstant, Rewriting.dest?_instr]
    split
    · rw [h.value_of_keeps hk ‹_›]
      rfl
    · rfl
  operand i' hi' o' ho' := by
    obtain ⟨o, rfl⟩ := exists_fold_of_mem_foldBlock hi' ho'
    exact h.fold_fold o

end Facts.Agrees

theorem undefinedRead?_eq_none_iff {c : Cfg} : undefinedRead? f c = none ↔
    ∀ b ∈ c.blocks, ∀ i ∈ b.instrs, i.isPhi = false → ∀ t ∈ i.usedTemps, f.value t ≠ .unused := by
  simp [undefinedRead?, List.findSome?_eq_none_iff]

/-- Where as much is known of a folded graph as before, folding leaves it as it is. -/
theorem foldConstants_of_agrees (h : (analyze c).Agrees (analyze (foldConstants c).1.cfg))
    (hok : (foldConstants c).2 = none) :
    (foldConstants (foldConstants c).1.cfg).1.cfg = (foldConstants c).1.cfg ∧
      (foldConstants (foldConstants c).1.cfg).1.changed = false ∧
      (foldConstants (foldConstants c).1.cfg).2 = none := by
  have huntouched : ∀ b' ∈ (foldConstants c).1.cfg.blocks,
      isDead (analyze (foldConstants c).1.cfg) (foldConstants c).1.cfg b' = false ∧
        Untouched (analyze (foldConstants c).1.cfg) b' := by
    intro b' hb'
    obtain ⟨b, hb, hx, rfl⟩ := mem_folded.1 hb'
    exact ⟨not_isDead_of_executes ((h.executes b.label).trans hx), h.untouched_foldBlock b⟩
  have hcfg : (foldConstants (foldConstants c).1.cfg).1.cfg = (foldConstants c).1.cfg :=
    folded_eq_self_iff.2 huntouched
  refine ⟨hcfg, changed_eq_false_iff.2 huntouched, ?_⟩
  have hread := undefinedRead?_eq_none_iff.1 hok
  rw [foldConstants]
  refine undefinedRead?_eq_none_iff.2 fun b' hb' i' hi' hphi t ht => ?_
  have hb' : b' ∈ (foldConstants c).1.cfg.blocks := hcfg ▸ hb'
  obtain ⟨b, -, -, rfl⟩ := mem_folded.1 hb'
  obtain ⟨o, ho⟩ := exists_fold_of_mem_foldBlock hi' (Instr.mem_usedTemps.1 ht)
  rw [h.value ho]
  exact hread _ hb' i' hi' hphi t ht

/-- Unless a binary operator is half defined, folding a folded graph changes nothing and leaves no violation. -/
theorem foldConstants_fixed (hok : (foldConstants c).2 = none)
    (hhalf : ∀ b ∈ c.blocks, (analyze c).executes b.label = true → ∀ i ∈ b.body, isHalfDefined (analyze c) i = false) :
    (foldConstants (foldConstants c).1.cfg).1.cfg = (foldConstants c).1.cfg ∧
      (foldConstants (foldConstants c).1.cfg).1.changed = false ∧
      (foldConstants (foldConstants c).1.cfg).2 = none :=
  foldConstants_of_agrees (agrees_analyze hhalf) hok

theorem foldConstants_fixed_countdown : (foldConstants countdown).2 = none ∧
    (∀ b ∈ countdown.blocks, (analyze countdown).executes b.label = true → ∀ i ∈ b.body,
      isHalfDefined (analyze countdown) i = false) ∧
    (foldConstants (foldConstants countdown).1.cfg).1.cfg = (foldConstants countdown).1.cfg := by
  have hok : (foldConstants countdown).2 = none := by decide +kernel
  have hhalf : ∀ b ∈ countdown.blocks, (analyze countdown).executes b.label = true → ∀ i ∈ b.body,
      isHalfDefined (analyze countdown) i = false := by decide +kernel
  exact ⟨hok, hhalf, (foldConstants_fixed hok hhalf).1⟩

/-- A graph that adds to a parameter what is never defined. The sum varies, so that the return of it stays. -/
def halfDefined : Cfg where
  proc := "@main"
  entry := ⟨"A"⟩
  blocks := [⟨⟨"A"⟩, [.binary ⟨"%1"⟩ .add (.temp ⟨"%0"⟩) (.temp ⟨"%n"⟩)], [.ret (some (.temp ⟨"%1"⟩))]⟩]

/-- The sum has been deleted, so that the second folding finds nothing defined to return. -/
theorem not_foldConstants_fixed_halfDefined :
    Cfg.ofBlocks halfDefined.proc halfDefined.blocks = .ok halfDefined ∧ (foldConstants halfDefined).2 = none ∧
      (foldConstants (foldConstants halfDefined).1.cfg).1.changed = true ∧
      (foldConstants (foldConstants halfDefined).1.cfg).1.cfg ≠ (foldConstants halfDefined).1.cfg :=
  ⟨rfl, by decide +kernel, by decide +kernel, by decide +kernel⟩

/-- On a grounded graph no operator is half defined, so that folding twice is folding once. -/
theorem foldConstants_twice (h : c.Grounded) :
    (foldConstants (foldConstants c).1.cfg).1.cfg = (foldConstants c).1.cfg := by
  refine (foldConstants_of_agrees (agrees_analyze fun b hb hx i hi => ?_)
    (foldConstants_ok_of_defines h.defines h.endsOnce)).1
  cases i with
  | binary dest op x y =>
    have hread : ∀ o ∈ (Instr.binary dest op x y).uses, (analyze c).operand o ≠ .unused := fun o ho =>
      Facts.operand_ne_unused fun t ht =>
        value_ne_unused_of_read h.defines hb hx hi rfl (Instr.mem_usedTemps.2 (ht ▸ ho))
    simp [isHalfDefined, hread x List.mem_cons_self, hread y (.tail _ List.mem_cons_self)]
  | _ => rfl

end ThreeAddress.Constants

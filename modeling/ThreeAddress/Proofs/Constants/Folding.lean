import ThreeAddress.Constants.Folding
import ThreeAddress.Proofs.Constants.Soundness
import ThreeAddress.Proofs.Linearize
import ThreeAddress.Proofs.Refinement
import ThreeAddress.Proofs.Rewriting
/-!
# Folding constants preserves behaviour

The steps of the folding are one rewriting (`folded_blocks`): it keeps what neither is undefined nor
defines a constant, reads constants for the temporaries that hold them, and takes from phis the sources
of edges that never execute. What the analysis says of every store makes it sound.
-/

namespace ThreeAddress.Constants

variable {f : Facts} {c : Cfg}

/-! ## The steps as one rewriting -/

/-- What the folding does to bodies. -/
def rewriting (f : Facts) : Rewriting where
  keeps i := !isUndefined f i && !definesConstant f i
  operand := fold f
  source block source := f.follows source block

/-- A block after the folding. -/
def foldBlock (f : Facts) (b : Block) : Block :=
  ⟨b.label, (rewriting f).body b.label b.body, (resolveJumps f b.jumps).map (·.mapOperands (fold f))⟩

theorem isUndefined_pruneInstr (f : Facts) (l : Label) (i : Instr) :
    isUndefined f (pruneInstr f l i) = isUndefined f i := by
  cases i <;> simp [pruneInstr, isUndefined, Instr.isPhi, Instr.dest?]

theorem definesConstant_pruneInstr (f : Facts) (l : Label) (i : Instr) :
    definesConstant f (pruneInstr f l i) = definesConstant f i := by
  cases i <;> rfl

theorem mapOperands_pruneInstr (f : Facts) (l : Label) (i : Instr) :
    (pruneInstr f l i).mapOperands (fold f) = (rewriting f).instr l i := by
  cases i <;> rfl

theorem folded_blocks (f : Facts) (c : Cfg) :
    (Folding.folded ⟨f, c⟩).blocks = (c.blocks.filter (!isDead f c ·)).map (foldBlock f) := by
  simp only [Folding.folded, Folding.dropped, Folding.defined, Folding.pruned, Folding.executable,
    removeDead, Cfg.mapBlocks, List.map_map]
  refine List.map_congr_left fun b _ => ?_
  simp only [Function.comp_apply, dropConstants, removeUndefined, prune, Block.mapInstrs, foldBlock,
    List.filter_filter, List.filter_map, List.map_map, Rewriting.body]
  congr 1
  have : ∀ i, (!definesConstant f (pruneInstr f b.label i) && !isUndefined f (pruneInstr f b.label i)) =
      (rewriting f).keeps i := fun i => by
    rw [isUndefined_pruneInstr, definesConstant_pruneInstr, Bool.and_comm]
    rfl
  rw [List.filter_congr fun i _ => this i]
  exact List.map_congr_left fun i _ => mapOperands_pruneInstr f b.label i

/-! ## Jumps -/

/-- Of the jumps that read something some stay as they are. -/
theorem sublist_decideJumps (f : Facts) (js : List Instr) :
    ((decideJumps f js).kept.filter (!·.uses.isEmpty)).Sublist js := by
  fun_induction decideJumps f js with
  | case1 => exact .refl _
  | case2 cond v target js j hv rest ih => exact ih.cons_cons j
  | case3 => exact List.nil_sublist _
  | case4 cond v target js j k hv hk rest ih => exact ih.trans (List.sublist_cons_self ..)
  | case5 => exact List.nil_sublist _
  | case6 => exact List.nil_sublist _
  | case7 => exact List.singleton_sublist.2 List.mem_cons_self
  | case8 => exact List.filter_sublist.trans (List.singleton_sublist.2 List.mem_cons_self)

theorem targets_decideJumps (f : Facts) (js : List Instr) :
    (decideJumps f js).kept.filterMap Instr.target? = f.openTargets js := by
  induction js with
  | nil => rfl
  | cons j js ih =>
    cases j with
    | branch cond v l =>
      simp only [decideJumps, Facts.openTargets]
      cases f.operand v with
      | unused => rfl
      | varies => simp [Instr.target?, ih]
      | constant k => by_cases h : cond.holds k <;> simp [h, Instr.target?, ih]
    | ret v? =>
      cases v? with
      | none => rfl
      | some v =>
        simp only [decideJumps, Facts.openTargets]
        split <;> rfl
    | _ => rfl

theorem isOpen_branch (cond : Condition) (v : Operand) (l : Label) (kept : List Instr) :
    isOpen (.branch cond v l :: kept) = isOpen kept := by
  cases kept with
  | nil => rfl
  | cons j kept => rw [isOpen, isOpen, List.getLast?_cons_cons]

theorem resolveJumps_branch (f : Facts) (cond : Condition) (v : Operand) (l : Label) (js : List Instr) :
    resolveJumps f (.branch cond v l :: js) = match f.operand v with
      | .varies => .branch cond v l :: resolveJumps f js
      | .constant k => if cond.holds k then [.jump l] else resolveJumps f js
      | .unused => [.ret none] := by
  simp only [resolveJumps, decideJumps]
  cases f.operand v with
  | varies =>
    simp only [isOpen_branch]
    split <;> rfl
  | constant k =>
    by_cases hk : cond.holds k = true
    · simp only [if_pos hk]
      rfl
    · simp only [if_neg hk]
  | unused => rfl

theorem resolveJumps_ret (f : Facts) (v : Operand) (js : List Instr) :
    resolveJumps f (.ret (some v) :: js) = [.ret (if f.operand v = .unused then none else some v)] := by
  simp only [resolveJumps, decideJumps]
  split <;> rfl

/-- A conditional jump that is not decided stays in front of what remains of the others. -/
theorem resolveJumps_varies {cond : Condition} {v : Operand} (hv : f.operand v = .varies) (l : Label)
    (js : List Instr) : resolveJumps f (.branch cond v l :: js) = .branch cond v l :: resolveJumps f js := by
  rw [resolveJumps_branch, hv]

/-- A conditional jump that is always taken is the last one. -/
theorem resolveJumps_taken {cond : Condition} {v : Operand} {k : Int64} (hv : f.operand v = .constant k)
    (hk : cond.holds k = true) (l : Label) (js : List Instr) :
    resolveJumps f (.branch cond v l :: js) = [.jump l] := by
  rw [resolveJumps_branch, hv]
  exact if_pos hk

/-- A conditional jump that is never taken disappears. -/
theorem resolveJumps_skipped {cond : Condition} {v : Operand} {k : Int64} (hv : f.operand v = .constant k)
    (hk : ¬ cond.holds k = true) (l : Label) (js : List Instr) :
    resolveJumps f (.branch cond v l :: js) = resolveJumps f js := by
  rw [resolveJumps_branch, hv]
  exact if_neg hk

/-- What is never defined is never tested. -/
theorem resolveJumps_unused {cond : Condition} {v : Operand} (hv : f.operand v = .unused) (l : Label)
    (js : List Instr) : resolveJumps f (.branch cond v l :: js) = [.ret none] := by
  rw [resolveJumps_branch, hv]

/-- What remains of jumps reads nothing, or was one of them: a conditional jump that is not decided, a return of what
is defined, or no jump at all. -/
theorem mem_resolveJumps {js : List Instr} {j : Instr} (h : j ∈ resolveJumps f js) :
    j.uses = [] ∨ j ∈ js ∧ (∀ cond v l, j = .branch cond v l → f.operand v = .varies) ∧
      ∀ v, j = .ret (some v) → f.operand v ≠ .unused := by
  induction js with
  | nil =>
    obtain rfl : j = .ret none := List.mem_singleton.1 h
    exact .inl rfl
  | cons i js ih =>
    cases i with
    | branch cond v l =>
      cases hv : f.operand v with
      | unused =>
        rw [resolveJumps_unused hv, List.mem_singleton] at h
        exact .inl (h ▸ rfl)
      | constant k =>
        by_cases hk : cond.holds k = true
        · rw [resolveJumps_taken hv hk, List.mem_singleton] at h
          exact .inl (h ▸ rfl)
        · rw [resolveJumps_skipped hv hk] at h
          exact (ih h).imp_right (And.imp_left (.tail _))
      | varies =>
        rw [resolveJumps_varies hv] at h
        rcases List.mem_cons.1 h with rfl | h
        · exact .inr ⟨List.mem_cons_self, fun _ _ _ he => by cases he; exact hv, by simp⟩
        · exact (ih h).imp_right (And.imp_left (.tail _))
    | jump l =>
      obtain rfl : j = .jump l := List.mem_singleton.1 h
      exact .inl rfl
    | ret v? =>
      cases v? with
      | none =>
        obtain rfl : j = .ret none := List.mem_singleton.1 h
        exact .inl rfl
      | some v =>
        rw [resolveJumps_ret, List.mem_singleton] at h
        by_cases hv : f.operand v = .unused
        · rw [if_pos hv] at h
          exact .inl (h ▸ rfl)
        · rw [if_neg hv] at h
          subst h
          exact .inr ⟨List.mem_cons_self, by simp, fun _ he => by cases he; exact hv⟩
    | _ =>
      -- what is no jump is closed with a return
      rcases List.mem_pair.1 h with rfl | rfl
      · exact .inr ⟨List.mem_cons_self, by simp, by simp⟩
      · exact .inl rfl

/-- Where the jumps of a block lead after the folding. -/
theorem targets_foldBlock (f : Facts) (b : Block) : (foldBlock f b).targets = f.openTargets b.jumps := by
  have : (resolveJumps f b.jumps).filterMap Instr.target? = f.openTargets b.jumps := by
    unfold resolveJumps
    dsimp only
    split
    · rw [List.filterMap_append, targets_decideJumps]
      simp [Instr.target?]
    · exact targets_decideJumps f b.jumps
  rw [← this, Block.targets, foldBlock, List.filterMap_map]
  exact List.filterMap_congr fun j _ => Instr.target?_mapOperands _ j

/-- Conditional jumps that stay come before one last jump or return, if there is any. -/
theorem decideJumps_shape {branches : List Instr} {last : Instr}
    (hb : ∀ j ∈ branches, ∃ cond v l, j = .branch cond v l) (hl : last.isFinal = true) (f : Facts) :
    ∃ branches', (∀ j ∈ branches', ∃ cond v l, j = .branch cond v l) ∧
      ((decideJumps f (branches ++ [last])).kept = branches' ∨
        ∃ last', last'.isFinal = true ∧
          (decideJumps f (branches ++ [last])).kept = branches' ++ [last']) := by
  induction branches with
  | nil =>
    refine ⟨[], by simp, .inr ?_⟩
    cases last with
    | jump l => exact ⟨_, rfl, rfl⟩
    | ret v? =>
      cases v? with
      | none => exact ⟨_, rfl, rfl⟩
      | some v =>
        simp only [List.nil_append, decideJumps]
        split <;> exact ⟨_, rfl, rfl⟩
    | _ => simp [Instr.isFinal] at hl
  | cons j branches ih =>
    obtain ⟨cond, v, l, rfl⟩ := hb j List.mem_cons_self
    obtain ⟨branches', hb', h⟩ := ih fun j hj => hb j (.tail _ hj)
    simp only [List.cons_append, decideJumps]
    cases f.operand v with
    -- A jump on what is never defined is dropped with all jumps behind it.
    | unused => exact ⟨[], by simp, .inl rfl⟩
    | varies =>
      refine ⟨.branch cond v l :: branches', ?_, ?_⟩
      · intro j hj
        rcases List.mem_cons.1 hj with rfl | hj
        · exact ⟨cond, v, l, rfl⟩
        · exact hb' j hj
      · rcases h with h | ⟨last', hl', h⟩
        · exact .inl (by simp [h])
        · exact .inr ⟨last', hl', by simp [h]⟩
    | constant k =>
      by_cases hk : cond.holds k
      · exact ⟨[], by simp, .inr ⟨.jump l, rfl, by simp [hk]⟩⟩
      · refine ⟨branches', hb', ?_⟩
        simpa [hk] using h

theorem endsOnce_foldBlock {b : Block} (h : b.EndsOnce) (f : Facts) : (foldBlock f b).EndsOnce := by
  obtain ⟨branches, last, hj, hb, hl⟩ := h
  obtain ⟨branches', hb', hkept⟩ := decideJumps_shape hb hl f
  have hmap : ∀ j ∈ branches'.map (·.mapOperands (fold f)), ∃ cond v l, j = .branch cond v l := by
    intro j hj
    obtain ⟨i, hi, rfl⟩ := List.mem_map.1 hj
    obtain ⟨cond, v, l, rfl⟩ := hb' i hi
    exact ⟨cond, fold f v, l, rfl⟩
  have hbranch : ∀ j, branches'.getLast? = some j → j.isFinal = false := by
    intro j hj
    obtain ⟨cond, v, l, rfl⟩ := hb' j (List.mem_of_getLast? hj)
    rfl
  rw [← hj] at hkept
  simp only [Block.EndsOnce, foldBlock, resolveJumps]
  rcases hkept with hkept | ⟨last', hl', hkept⟩ <;> rw [hkept]
  · have : isOpen branches' = true := by
      unfold isOpen
      split
      · simp [hbranch _ ‹_›]
      · rfl
    rw [if_pos this, List.map_append]
    exact ⟨_, .ret none, rfl, hmap, rfl⟩
  · rw [if_neg (by simp [isOpen, hl']), List.map_append]
    exact ⟨_, last'.mapOperands (fold f), rfl, hmap, by simpa using hl'⟩

/-! ## Validity -/

section

variable {b : Block}

theorem executes_of_not_isDead (hb : isDead (analyze c) c b = false) :
    (analyze c).executes b.label = true := by
  simp only [isDead, Bool.and_eq_false_iff, ne_eq, decide_not, Bool.not_eq_false',
    decide_eq_true_eq] at hb
  rcases hb with hb | hb
  · exact hb
  · exact hb ▸ (Facts.closed_analyze c).entry

theorem not_isDead_of_executes (hb : f.executes b.label = true) : isDead f c b = false := by
  simp [isDead, hb]

/-- The blocks after the folding are those that execute. -/
theorem mem_folded {b' : Block} : b' ∈ (Folding.folded ⟨analyze c, c⟩).blocks ↔
    ∃ b ∈ c.blocks, (analyze c).executes b.label = true ∧ foldBlock (analyze c) b = b' := by
  rw [folded_blocks, List.mem_map]
  constructor
  · rintro ⟨b, hb, rfl⟩
    obtain ⟨hb, hd⟩ := List.mem_filter.1 hb
    exact ⟨b, hb, executes_of_not_isDead (by simpa using hd), rfl⟩
  · rintro ⟨b, hb, hx, rfl⟩
    exact ⟨b, List.mem_filter.2 ⟨hb, by simp [not_isDead_of_executes hx]⟩, rfl⟩

theorem mem_labels_folded {l : Label} : l ∈ (Folding.folded ⟨analyze c, c⟩).labels ↔
    l ∈ c.labels ∧ (analyze c).executes l = true := by
  simp only [Cfg.labels, List.mem_map]
  constructor
  · rintro ⟨b', hb', rfl⟩
    obtain ⟨b, hb, hx, rfl⟩ := mem_folded.1 hb'
    exact ⟨⟨b, hb, rfl⟩, hx⟩
  · rintro ⟨⟨b, hb, rfl⟩, hx⟩
    exact ⟨_, mem_folded.2 ⟨b, hb, hx, rfl⟩, rfl⟩

theorem nodup_folded (h : c.labels.Nodup) : (Folding.folded ⟨f, c⟩).labels.Nodup := by
  have hsub : (Folding.folded ⟨f, c⟩).labels.Sublist c.labels := by
    rw [Cfg.labels, folded_blocks, List.map_map]
    exact List.filter_sublist.map Block.label
  exact hsub.nodup h

theorem block?_folded (h : c.labels.Nodup) (hb : b ∈ c.blocks)
    (hx : (analyze c).executes b.label = true) :
    (Folding.folded ⟨analyze c, c⟩).block? b.label = some (foldBlock (analyze c) b) :=
  Cfg.block?_of_nodup (b := foldBlock (analyze c) b) (nodup_folded h) (mem_folded.2 ⟨b, hb, hx, rfl⟩)

end

theorem valid_folded (h : c.Valid) : (Folding.folded ⟨analyze c, c⟩).Valid := by
  have hclosed := Facts.closed_analyze c
  refine ⟨?_, nodup_folded h.nodup, ?_, ?_, ?_, ?_⟩
  · obtain ⟨b, bs, hbs, hl⟩ := h.exists_entry
    have hd : isDead (analyze c) c b = false := not_isDead_of_executes (hl ▸ hclosed.entry)
    rw [Cfg.labels, folded_blocks, hbs, List.filter_cons_of_pos (by simp [hd])]
    simp [foldBlock, hl, Folding.folded, Folding.dropped, Folding.defined, Folding.pruned,
      Folding.executable, removeDead, Cfg.mapBlocks]
  · intro b' hb' t ht
    obtain ⟨b, hb, hx, rfl⟩ := mem_folded.1 hb'
    rw [targets_foldBlock] at ht
    exact mem_labels_folded.2 ⟨h.target b hb t (Facts.mem_targets_of_openTargets ht),
      hclosed.target (hclosed.edge hb hx ht)⟩
  · intro b' hb' ht
    obtain ⟨b, hb, -, rfl⟩ := mem_folded.1 hb'
    rw [targets_foldBlock] at ht
    exact h.entry_notMem b hb (Facts.mem_targets_of_openTargets ht)
  · intro b' hb' l hl
    obtain ⟨b, hb, -, rfl⟩ := mem_folded.1 hb'
    obtain ⟨dest, sources, hi, hlabel⟩ := Cfg.mem_sourceLabels.1 hl
    obtain ⟨i, hi, he⟩ := List.mem_map.1 hi
    have hi := (List.mem_filter.1 hi).1
    cases i <;> cases he
    obtain ⟨o, ho⟩ := PhiSources.mem_labels.1 hlabel
    rw [PhiSources.find?_mapOperands, PhiSources.find?_filter] at ho
    split at ho
    · -- A source stays where its edge is followed, and then its block executes.
      rename_i hfollows
      obtain ⟨d, hd, hx, rfl, -⟩ := Facts.open_of_follows hfollows
      exact mem_labels_folded.2 ⟨List.mem_map_of_mem hd, hx⟩
    · simp at ho
  · intro b' hb' i hi
    obtain ⟨b, hb, -, rfl⟩ := mem_folded.1 hb'
    obtain ⟨j, hj, rfl⟩ := List.mem_map.1 hi
    rw [Rewriting.isTerminator_instr]
    exact h.body b hb j (List.mem_filter.1 hj).1

theorem closed_folded (h : c.Closed) : (Folding.folded ⟨analyze c, c⟩).Closed where
  toValid := valid_folded h.toValid
  endsOnce b' hb' := by
    obtain ⟨b, hb, -, rfl⟩ := mem_folded.1 hb'
    exact endsOnce_foldBlock (h.endsOnce b hb) _
  unlabelled b' hb' i hi := by
    obtain ⟨b, hb, -, rfl⟩ := mem_folded.1 hb'
    obtain ⟨j, hj, rfl⟩ := List.mem_map.1 hi
    rw [Rewriting.label?_instr]
    exact h.unlabelled b hb j (List.mem_filter.1 hj).1

/-! ## Runs -/

/-- Temporaries that may be read no more: those that hold one constant, or nothing at all. -/
def Settled (f : Facts) (t : Temp) : Prop := f.value t ≠ .varies

theorem shows_fold {σ : Store} (h : f.Covers σ) {o : Operand} {v : Int64}
    (ho : σ.value? o = some v) : Shows (Settled f) σ (fold f o) v := by
  cases o with
  | imm k => exact ⟨ho, by simp [fold]⟩
  | temp t =>
    rcases Value.constant_le.1 (h t v ho) with ht | ht
    · have : fold f (.temp t) = .imm v := by simp [fold, ht, Value.constant?]
      rw [this]
      exact ⟨rfl, by simp⟩
    · have : fold f (.temp t) = .temp t := by simp [fold, ht, Value.constant?]
      rw [this]
      refine ⟨ho, fun u hu _ hs => hs ?_⟩
      cases hu
      exact ht

/-- The jumps that are decided lead where control goes. -/
theorem exit?_decideJumps {σ : Store} (h : f.Covers σ) {js : List Instr} {e : Store.Exit}
    (he : σ.exit? js = some e) : σ.exit? (decideJumps f js).kept = some e := by
  induction js with
  | nil => simp [Store.exit?] at he
  | cons j js ih =>
    cases j with
    | jump l => simpa [Store.exit?, decideJumps] using he
    | branch cond v l =>
      cases hv : σ.value? v with
      | none => simp [Store.exit?, hv] at he
      | some k =>
        simp only [Store.exit?, hv] at he
        rcases Value.constant_le.1 (h.operand hv) with ho | ho <;> simp only [decideJumps, ho]
        · by_cases hk : cond.holds k
          · simpa [hk, Store.exit?] using he
          · rw [if_neg hk] at he ⊢
            exact ih he
        · simp only [Store.exit?, hv]
          split
          · rwa [if_pos ‹_›] at he
          · rw [if_neg ‹_›] at he; exact ih he
    | ret v? =>
      cases v? with
      | none => simpa [Store.exit?, decideJumps] using he
      | some v =>
        cases hv : σ.value? v with
        | none => simp [Store.exit?, hv] at he
        | some k =>
          rcases Value.constant_le.1 (h.operand hv) with ho | ho <;>
            simpa [decideJumps, ho, Store.exit?, hv] using he
    | _ => simp [Store.exit?] at he

theorem exit?_append {σ : Store} {js js' : List Instr} {e : Store.Exit} (he : σ.exit? js = some e) :
    σ.exit? (js ++ js') = some e := by
  induction js with
  | nil => simp [Store.exit?] at he
  | cons j js ih =>
    cases j with
    | branch cond v l =>
      cases hv : σ.value? v with
      | none => simp [Store.exit?, hv] at he
      | some k =>
        simp only [Store.exit?, hv, List.cons_append] at he ⊢
        split
        · rwa [if_pos ‹_›] at he
        · rw [if_neg ‹_›] at he; exact ih he
    | jump l => simpa [Store.exit?] using he
    | ret v? => cases v? <;> simpa [Store.exit?] using he
    | _ => simp [Store.exit?] at he

theorem exit?_resolveJumps {σ : Store} (h : f.Covers σ) {js : List Instr} {e : Store.Exit}
    (he : σ.exit? js = some e) : σ.exit? (resolveJumps f js) = some e := by
  unfold resolveJumps
  dsimp only
  split
  · exact exit?_append (exit?_decideJumps h he)
  · exact exit?_decideJumps h he

theorem exists_of_isUndefined {i : Instr} (h : isUndefined f i = true) :
    (∃ t, i.dest? = some t ∧ f.value t = .unused) ∨ i.isPhi = false ∧ ∃ t ∈ i.usedTemps, f.value t = .unused := by
  unfold isUndefined at h
  split at h
  · simp at h
  · rcases Bool.or_eq_true_iff.1 h with h | h
    · split at h
      · exact .inl ⟨_, ‹_›, of_decide_eq_true h⟩
      · simp at h
    · obtain ⟨hphi, hread⟩ := Bool.and_eq_true_iff.1 h
      obtain ⟨t, ht, hv⟩ := List.any_eq_true.1 hread
      exact .inr ⟨by simpa using hphi, t, ht, of_decide_eq_true hv⟩

/-- Arguments and phis apart, what reads something that is never defined is deleted. -/
theorem isUndefined_of_read {i : Instr} (hparam : ∀ k v, i ≠ .param k v) (hphi : i.isPhi = false) {t : Temp}
    (ht : t ∈ i.usedTemps) (hv : f.value t = .unused) : isUndefined f i = true := by
  have hany : i.usedTemps.any (f.value · = .unused) = true := List.any_eq_true.2 ⟨t, ht, by simpa using hv⟩
  cases i with
  | param k v => exact absurd rfl (hparam k v)
  | _ => simp [isUndefined, hphi, hany]

theorem exists_of_definesConstant {i : Instr} (h : definesConstant f i = true) :
    ∃ t, i.dest? = some t ∧ Settled f t := by
  unfold definesConstant at h
  split at h
  · refine ⟨_, ‹_›, fun hv => ?_⟩
    simp [hv, Value.constant?] at h
  · simp at h

/-- What is deleted and executed writes what is settled. -/
theorem settled_of_drop (hf : f.Closed c) {calls : Calls} {b : Block} {i : Instr} {σ σ₁ : Store}
    (hb : b ∈ c.blocks) (hx : f.executes b.label = true) (hi : i ∈ b.body) (h : f.Covers σ)
    (he : σ.Exec calls i σ₁) (hd : (rewriting f).keeps i = false) :
    (∀ k v, i ≠ .param k v) ∧ (∀ d t n, i ≠ .call d t n) ∧
      ∀ t, i.dest? = some t → t.isGlobal = false ∧ Settled f t := by
  -- An instruction that is executed reads values, and there are none where nothing is defined.
  have hreads : ∀ t ∈ i.usedTemps, f.value t ≠ .unused := by
    intro t ht hu
    obtain ⟨o, ho, hot⟩ := List.mem_filterMap.1 ht
    cases o <;> cases hot
    obtain ⟨v, hv⟩ := he.value ho
    have := h t v hv
    rw [hu, Value.constant_le] at this
    simp at this
  obtain ⟨t, ht, hs⟩ : ∃ t, i.dest? = some t ∧ Settled f t := by
    have hd : isUndefined f i = true ∨ definesConstant f i = true := by
      cases hu : isUndefined f i <;> simp_all [rewriting]
    rcases hd with hd | hd
    · rcases exists_of_isUndefined hd with ⟨t, ht, hv⟩ | ⟨-, t, ht, hv⟩
      · exact ⟨t, ht, by simp [Settled, hv]⟩
      · exact absurd hv (hreads t ht)
    · exact exists_of_definesConstant hd
  refine ⟨?_, ?_, fun u hu => ?_⟩
  · rintro k v rfl
    simp [Instr.dest?] at ht
  · rintro d target n rfl
    exact hs (Value.varies_le.1 (hf.value hb hx hi ht rfl))
  · cases ht.symm.trans hu
    refine ⟨?_, hs⟩
    by_contra hg
    exact hs (hf.value_of_global (by simpa using hg))

theorem settled_of_dropPhi {dest : Temp} {sources : PhiSources}
    (hd : (rewriting f).keeps (.phi dest sources) = false) : Settled f dest := by
  intro hv
  simp [rewriting, isUndefined, definesConstant, Instr.dest?, Instr.isPhi, hv, Value.constant?] at hd

/-- The folding is a sound rewriting, by what the analysis says of every store. -/
theorem sound_folded (h : c.Valid) (calls : Calls) :
    (rewriting (analyze c)).Sound calls c (Folding.folded ⟨analyze c, c⟩)
      (fun b _ σ => (analyze c).executes b.label = true ∧ (analyze c).Covers σ)
      (Settled (analyze c)) := by
  have hf := Facts.closed_analyze c
  have hfollows : ∀ {p b : Block} {σ : Store}, p ∈ c.blocks → (analyze c).executes p.label = true →
      (analyze c).Covers σ → σ.exit? p.jumps = some (.to b.label) →
      (analyze c).follows p.label b.label = true := fun hp hx hc he => hf.edge hp hx (hc.exit he)
  refine ⟨⟨?_, ?_⟩, ?_, ?_, ?_, ?_, ?_, ?_⟩
  · rintro p b phis rest σ σ₁ hp hb ⟨hx, hc⟩ he hsplit - - hphis
    have hl := hfollows hp hx hc he
    exact ⟨hf.target hl, hc.phis hf hb hl (fun i hi => hsplit ▸ List.mem_append_left _ hi) hphis⟩
  · rintro b pre post i σ σ₁ hb hsplit ⟨hx, hc⟩ he
    exact ⟨hx, hc.exec hf hb hx (by simp [hsplit]) he⟩
  · rintro b pre σ hb ⟨hx, -⟩
    exact ⟨_, block?_folded h.nodup hb hx, rfl⟩
  · rintro b pre post i o σ v - - - - ⟨-, hc⟩ - hv
    exact shows_fold hc hv
  · rintro b pre post i σ σ₁ hb hsplit hk ⟨hx, hc⟩ he
    exact settled_of_drop hf hb hx (by simp [hsplit]) hc he hk
  · rintro p b dest sources o σ hp hb ⟨hx, hc⟩ he - - -
    exact ⟨hfollows hp hx hc he, fun _ _ v hv => shows_fold hc hv⟩
  · rintro p b dest sources σ - - - - - hk -
    exact settled_of_dropPhi hk
  · rintro b b' σ τ e hb ⟨hx, hc⟩ he hs hb'
    cases (block?_folded h.nodup hb hx).symm.trans hb'
    exact hs.exit? (fun j _ o _ v hv => shows_fold hc hv) (exit?_resolveJumps hc he)

/-- The folded graph returns whatever the graph returns. -/
theorem refines_folded (h : c.Valid) (hp : ∀ b ∈ c.blocks, b.PhisFirst) {env : Surroundings}
    {params : List Temp} (hparams : ∀ t ∈ params, t.isVersioned = false) :
    c.Refines env params (Folding.folded ⟨analyze c, c⟩) := by
  intro calls σ r _ hσ hrun
  have hf := Facts.closed_analyze c
  exact (sound_folded h calls).runs hp rfl
    (fun _ _ hl => ⟨hl ▸ hf.entry, hf.covers_start hparams hσ⟩) hrun

/-! ## Programs -/

theorem refines_foldConstants (h : c.Closed) (hp : ∀ b ∈ c.blocks, b.PhisFirst) {env : Surroundings}
    {p : Procedure} (hparams : ∀ t ∈ p.params, t.isVersioned = false) :
    (p.withCode c).Refines env (p.withCode (foldConstants c).1.cfg) where
  name_eq := rfl
  params_eq := rfl
  runs {_ args globals output _} hq hrun :=
    (closed_folded h).linearRun_iff.2 (refines_folded h.toValid hp hparams hq
      (Store.onlyParams_start p.params args globals output) (h.linearRun_iff.1 hrun))

/-- Folding the constants of a procedure preserves the runs of every program around it, whether or not
it leaves a violation of SSA form. -/
theorem keptBy_foldConstants {c : Cfg} (h : c.Closed) (hp : ∀ b ∈ c.blocks, b.PhisFirst)
    {p : Procedure} (hparams : ∀ t ∈ p.params, t.isVersioned = false) (before after : Program) :
    Program.KeptBy (before ++ .proc (p.withCode c) :: after)
      (before ++ .proc (p.withCode (foldConstants c).1.cfg) :: after) := by
  have hrefines : (p.withCode c).Refines .unknown (p.withCode (foldConstants c).1.cfg) :=
    refines_foldConstants h hp hparams
  exact (Program.Refines.replace hrefines before after).keptBy (Surroundings.around_unknown _)

/-- A branch that is decided, and a loop whose counter varies. -/
def countdown : Cfg where
  proc := "@main"
  entry := ⟨"entry"⟩
  blocks := [
    ⟨⟨"entry"⟩, [.const ⟨"%one.1"⟩ 1], [.branch .jz (.temp ⟨"%one.1"⟩) ⟨"dead"⟩, .jump ⟨"head"⟩]⟩,
    ⟨⟨"dead"⟩, [], [.ret none]⟩,
    ⟨⟨"head"⟩,
      [.phi ⟨"%n.1"⟩ (.ofList [(⟨"entry"⟩, .temp ⟨"%n"⟩), (⟨"head"⟩, .temp ⟨"%n.2"⟩)]),
        .binary ⟨"%n.2"⟩ .sub (.temp ⟨"%n.1"⟩) (.temp ⟨"%one.1"⟩)],
      [.branch .jnle (.temp ⟨"%n.2"⟩) ⟨"head"⟩, .jump ⟨"exit"⟩]⟩,
    ⟨⟨"exit"⟩, [], [.ret (some (.temp ⟨"%n.2"⟩))]⟩]

/-- A procedure around `countdown`. -/
def countdownProc : Procedure := ⟨"@main", [⟨"%n"⟩], []⟩

theorem keptBy_foldConstants_countdown :
    countdown.Closed ∧ (∀ b ∈ countdown.blocks, b.PhisFirst) ∧
      (∀ t ∈ countdownProc.params, t.isVersioned = false) ∧
      (∃ o, Program.run [.proc (countdownProc.withCode countdown)] "@main" [3] 100 = .ok o) ∧
      Program.KeptBy [.proc (countdownProc.withCode countdown)]
        [.proc (countdownProc.withCode (foldConstants countdown).1.cfg)] := by
  have hvalid : Cfg.ofBlocks countdown.proc countdown.blocks = .ok countdown := rfl
  have hclosed : countdown.Closed := ⟨(Cfg.ofBlocks_eq_ok.1 hvalid).2.2, by decide, by decide⟩
  have hphis : ∀ b ∈ countdown.blocks, b.PhisFirst := by decide
  have hparams : ∀ t ∈ countdownProc.params, t.isVersioned = false := by decide
  exact ⟨hclosed, hphis, hparams, ⟨_, rfl⟩, keptBy_foldConstants hclosed hphis hparams [] []⟩

/-- A graph whose entry holds the label of another block. Linear code passes it there, and the phi
takes the source of a block that never executes. -/
def strayLabel : Cfg where
  proc := "@main"
  entry := ⟨"A"⟩
  blocks := [
    ⟨⟨"A"⟩, [.label ⟨"Z"⟩], [.jump ⟨"B"⟩]⟩,
    ⟨⟨"B"⟩, [.phi ⟨"%x.1"⟩ (.ofList [(⟨"A"⟩, .imm 1), (⟨"Z"⟩, .imm 2)])],
      [.ret (some (.temp ⟨"%x.1"⟩))]⟩,
    ⟨⟨"Z"⟩, [], [.jump ⟨"B"⟩]⟩]

/-- A procedure around `strayLabel`. -/
def strayProc : Procedure := ⟨"@main", [], []⟩

/-- Labels in bodies have to be left out: the result changes from 2 to 1. -/
theorem not_keptBy_foldConstants_strayLabel :
    Cfg.ofBlocks strayLabel.proc strayLabel.blocks = .ok strayLabel ∧
      (∀ b ∈ strayLabel.blocks, b.EndsOnce) ∧ (∀ b ∈ strayLabel.blocks, b.PhisFirst) ∧
      (foldConstants strayLabel).2 = none ∧
      ¬ Program.KeptBy [.proc (strayProc.withCode strayLabel)]
        [.proc (strayProc.withCode (foldConstants strayLabel).1.cfg)] := by
  refine ⟨rfl, by decide, by decide, rfl, fun h => ?_⟩
  obtain ⟨o, ho, hr⟩ : ∃ o, Program.run [.proc (strayProc.withCode strayLabel)] "@main" [] 100 = .ok o ∧
    o.result? = some 2 := ⟨_, rfl, rfl⟩
  obtain ⟨o', ho', hr'⟩ : ∃ o, Program.run [.proc (strayProc.withCode (foldConstants strayLabel).1.cfg)]
    "@main" [] 100 = .ok o ∧ o.result? = some 1 := ⟨_, rfl, rfl⟩
  obtain ⟨n, hn⟩ := h ho
  obtain ⟨o'', ho'', heq⟩ := hn n (Nat.le_refl n)
  have hfinal := (Program.run_functional ho' ho'').trans heq
  have : o'.result? = o.result? := congrArg Final.result? hfinal
  rw [hr, hr'] at this
  exact absurd this (by decide)

end ThreeAddress.Constants

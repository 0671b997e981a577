import ThreeAddress.Pipeline
import ThreeAddress.Proofs.CodeSize.Phis
import ThreeAddress.Proofs.CommonSubexpr.Elimination
import ThreeAddress.Proofs.Constants.Changes
import ThreeAddress.Proofs.CopyPropagation
/-!
# Passes say what they change

Every pass says that it changed the graph if and only if it did. The deletion of phis, the elimination of common
subexpressions and copy propagation record a transformation whenever they change something (`Transformed.Recorded`),
by steps that each lower a measure, so that none can undo another. Folding may change a block silently
(`Pass.changed_apply`): it records neither that a constant which nothing reads is deleted, nor that jumps are cut off
where no conditional jump is decided, nor that phis lose sources.
-/

namespace ThreeAddress

/-- A pass says that it changed the graph where it records a transformation. Where it does not, the graph is as it
was, and where it does, a measure is lower. -/
structure Transformed.Recorded (μ : Cfg → Nat) (c : Cfg) (r : Transformed) : Prop where
  proc : r.cfg.proc = c.proc
  changed : r.changed = true ↔ c.proc ∈ r.events.affected
  same : r.changed = false → r.cfg = c
  lowers : r.changed = true → μ r.cfg < μ c

namespace Transformed.Recorded

variable {μ : Cfg → Nat} {c : Cfg} {r r' : Transformed}

theorem changed_iff (h : r.Recorded μ c) : r.changed = true ↔ r.cfg ≠ c := by
  constructor
  · intro hchanged heq
    have hlt := h.lowers hchanged
    rw [heq] at hlt
    exact Nat.lt_irrefl _ hlt
  · intro hne
    by_contra hchanged
    exact hne (h.same (by simpa using hchanged))

theorem refl (μ : Cfg → Nat) (c : Cfg) : Recorded μ c ⟨c, [], false⟩ :=
  ⟨rfl, by simp [EventLog.mem_affected], fun _ => rfl, nofun⟩

/-- One step that changes the graph if there is something to record. -/
theorem of_log {c' : Cfg} {log : EventLog} (hproc : c'.proc = c.proc) (hlog : ∀ e ∈ log, e.Transforms c.proc)
    (hsame : log = [] → c' = c) (hlt : log ≠ [] → μ c' < μ c) : Recorded μ c ⟨c', log, !log.isEmpty⟩ where
  proc := hproc
  changed := by
    rw [EventLog.mem_affected_iff_ne_nil hlog]
    simp
  same h := hsame (by simpa using h)
  lowers h := hlt (by simpa using h)

/-- One step after another. -/
theorem trans (h : r.Recorded μ c) (h' : r'.Recorded μ r.cfg) :
    Recorded μ c ⟨r'.cfg, r.events ++ r'.events, r.changed || r'.changed⟩ where
  proc := h'.proc.trans h.proc
  changed := by
    rw [Bool.or_eq_true, h.changed, h'.changed, h.proc, EventLog.mem_affected_append]
  same hsame :=
    have hsame := Bool.or_eq_false_iff.1 hsame
    (h'.same hsame.2).trans (h.same hsame.1)
  lowers hchanged := by
    cases hlast : r'.changed with
    | false =>
      rw [hlast, Bool.or_false] at hchanged
      rw [h'.same hlast]
      exact h.lowers hchanged
    | true =>
      have hlt := h'.lowers hlast
      cases hfirst : r.changed with
      | false => rwa [h.same hfirst] at hlt
      | true => exact hlt.trans (h.lowers hfirst)

end Transformed.Recorded

open Transformed

variable {c : Cfg}

/-! ## Redundant phis -/

namespace PhiMinimization

theorem recorded_renameUpTo (n : Nat) (c : Cfg) :
    Recorded bodySize c ⟨(renameUpTo n c).1, (renameUpTo n c).2, !(renameUpTo n c).2.isEmpty⟩ := by
  induction n generalizing c with
  | zero => exact .refl bodySize c
  | succ n ih =>
    unfold renameUpTo
    cases hr : findRenamable? c with
    | none => exact .refl bodySize c
    | some r =>
      have hstep : Recorded bodySize c ⟨apply c r, [event c.proc r.block s!"{r.dest} -> {r.source}"], true⟩ :=
        .of_log rfl (List.forall_mem_singleton.2 ⟨rfl, rfl⟩) (by simp) fun _ => bodySize_apply_lt hr
      exact hstep.trans (ih (apply c r))

theorem recorded_removeNullChoices (c : Cfg) : Recorded bodySize c (removeNullChoices c) := by
  have hnil : (c.blocks.flatMap fun b => (b.body.filter isNullChoice).map fun i =>
      event c.proc b.label s!"removed self-only {i}") = [] ↔
      ∀ b ∈ c.blocks, ∀ i ∈ b.body, isNullChoice i = false := by
    simp
  refine .of_log rfl (fun e he => ?_) (fun hlog => ?_) fun hlog => ?_
  · obtain ⟨b, -, he⟩ := List.mem_flatMap.1 he
    obtain ⟨i, -, rfl⟩ := List.mem_map.1 he
    exact ⟨rfl, rfl⟩
  · refine Cfg.mapBlocks_eq_self fun b hb => ?_
    rw [List.filter_eq_self.2 fun i hi => by simp [hnil.1 hlog b hb i hi]]
  · obtain ⟨b, hb, i, hi, hnull⟩ : ∃ b ∈ c.blocks, ∃ i ∈ b.body, isNullChoice i = true := by
      simpa using mt hnil.2 hlog
    refine Cfg.count_mapBlocks_lt (fun _ _ => List.filter_sublist.countP_le) ⟨b, hb, ?_⟩
    simp only [List.countP_true]
    exact List.length_filter_lt_length_iff_exists.2 ⟨i, hi, by simp [hnull]⟩

theorem recorded_minimize (rounds : Nat) (c : Cfg) : Recorded bodySize c (minimize rounds c) := by
  induction rounds generalizing c with
  | zero => exact .refl bodySize c
  | succ rounds ih =>
    have hrename : Recorded bodySize c (rename c) := recorded_renameUpTo c.size c
    have hround := hrename.trans (recorded_removeNullChoices (rename c).cfg)
    unfold minimize
    dsimp only
    split
    · rename_i hchanged
      simpa only [hchanged, Bool.true_or] using hround.trans (ih _)
    · rename_i hchanged
      rw [hround.same (by simpa using hchanged)]
      exact .refl bodySize c

end PhiMinimization

/-! ## Common subexpressions -/

theorem changes_eq_nil_iff {old new : List Instr} (h : old.length = new.length) :
    changes old new = [] ↔ old = new := by
  rw [changes, List.filterMap_eq_nil_iff, ← List.forall₂_eq_eq_eq, List.forall₂_iff_zip, and_iff_right h]
  constructor
  · intro hnil a b hab
    obtain ⟨n, hn⟩ := List.mem_iff_getElem?.1 hab
    by_contra hne
    simpa [hne] using hnil ((a, b), n) (List.mem_zipIdx_iff_getElem?.2 hn)
  · rintro hall ⟨⟨a, b⟩, n⟩ he
    exact if_pos (hall (List.mem_of_getElem? (List.mem_zipIdx_iff_getElem?.1 he)))

namespace Cfg

/-- The number of computations. -/
abbrev computations (c : Cfg) : Nat := c.count fun i => (Expr.ofInstr? i).isSome

theorem Reused.eq_or_lt {l : Label} {pre is is' : List Instr} (h : c.Reused l pre is is') : is' = is ∨
    is'.countP (fun i => (Expr.ofInstr? i).isSome) < is.countP fun i => (Expr.ofInstr? i).isSome := by
  induction h with
  | nil => exact .inl rfl
  | @cons pre is is' i i' hi _ ih =>
    cases hi with
    | same =>
      refine ih.imp (congrArg (i :: ·)) fun hlt => ?_
      rw [List.countP_cons, List.countP_cons]
      omega
    | @copy e x t he =>
      refine .inr ?_
      have hle : is'.countP (fun i => (Expr.ofInstr? i).isSome) ≤ is.countP fun i => (Expr.ofInstr? i).isSome :=
        ih.elim (fun heq => heq ▸ le_rfl) le_of_lt
      rw [List.countP_cons_of_neg (by simp [Expr.ofInstr?]),
        List.countP_cons_of_pos (by simp [(Expr.of?_eq_some.1 he).1])]
      omega

theorem Reused.length_eq {l : Label} {pre is is' : List Instr} (h : c.Reused l pre is is') :
    is.length = is'.length := by
  simpa using (congrArg List.length h.map_dest?).symm

/-- A reuse that records each copy that it makes. -/
theorem Reuses.recorded {f : Block → List Instr} (h : c.Reuses f) {log : EventLog}
    (hlog : ∀ e ∈ log, e.Transforms c.proc) (hnil : log = [] ↔ ∀ b ∈ c.blocks, f b = b.body) :
    Recorded computations c ⟨c.withBodies f, log, !log.isEmpty⟩ := by
  refine .of_log rfl hlog (fun hempty => ?_) fun hne => ?_
  · exact mapBlocks_eq_self fun b hb => by rw [hnil.1 hempty b hb]
  · obtain ⟨b, hb, hbody⟩ : ∃ b ∈ c.blocks, f b ≠ b.body := by simpa using mt hnil.2 hne
    refine count_mapBlocks_lt (fun d hd => ?_) ⟨b, hb, ((h b hb).eq_or_lt).resolve_left hbody⟩
    rcases (h d hd).eq_or_lt with heq | hlt
    · exact (congrArg _ heq).le
    · exact hlt.le

end Cfg

namespace CommonSubexpr

theorem transforms_of_mem_events {proc reason : String} {old new : Block} {e : Event}
    (h : e ∈ events proc reason old new) : e.Transforms proc := by
  obtain ⟨x, -, rfl⟩ := List.mem_map.1 h
  exact ⟨rfl, rfl⟩

theorem events_eq_nil_iff {proc reason : String} {old new : Block} (h : old.body.length = new.body.length) :
    events proc reason old new = [] ↔ new.body = old.body := by
  rw [events, List.map_eq_nil_iff, changes_eq_nil_iff h, eq_comm]

theorem recorded_local (c : Cfg) : Recorded Cfg.computations c (eliminateLocal c) := by
  have hreuses := reuses_local c
  refine hreuses.recorded (fun e he => ?_) ?_
  · obtain ⟨b, -, he⟩ := List.mem_flatMap.1 he
    exact transforms_of_mem_events he
  · rw [List.flatMap_eq_nil_iff]
    exact forall₂_congr fun b hb => events_eq_nil_iff (hreuses b hb).length_eq

theorem recorded_eliminateAt {d : Dominance} {r : Transformed} {l : Label} (hr : r.cfg.Valid)
    (hd : ∀ k ∈ d.closestFirst l, ∀ ls, r.cfg.Path ls l → k ∈ ls) (h : r.Recorded Cfg.computations c) :
    (eliminateAt d r l).Recorded Cfg.computations c := by
  have hcfg := eliminateAt_cfg d r hr l
  have hreuses := reuses_visit hr hd
  unfold eliminateAt at hcfg ⊢
  split
  · exact h
  · rename_i b hb
    simp only [hb] at hcfg
    have hmem := Cfg.mem_of_block? hb
    have hvisit : (r.cfg.reuseGlobal d b).body = visit d r.cfg l b := by
      rw [visit, copiesAt, if_pos (Cfg.label_of_block? hb)]
      rfl
    have hstep : Recorded Cfg.computations r.cfg ⟨r.cfg.modify l fun _ => r.cfg.reuseGlobal d b,
        events r.cfg.proc "a dominating computation" b (r.cfg.reuseGlobal d b),
        !(events r.cfg.proc "a dominating computation" b (r.cfg.reuseGlobal d b)).isEmpty⟩ := by
      rw [hcfg]
      refine hreuses.recorded (fun e he => transforms_of_mem_events he) ?_
      rw [events_eq_nil_iff (hvisit ▸ (hreuses b hmem).length_eq), hvisit]
      constructor
      · intro hsame b' hb'
        by_cases hl : b'.label = l
        · rwa [hr.eq_of_label hb' hmem (hl.trans (Cfg.label_of_block? hb).symm)]
        · exact visit_of_ne hl
      · exact fun hall => hall b hmem
    exact h.trans hstep

theorem recorded_eliminate (h : c.Valid) : Recorded Cfg.computations c (eliminate c) := by
  have hlocal := recorded_local c
  have hvalid : (eliminateLocal c).cfg.Valid := (reuses_local c).valid h
  exact hlocal.trans (eliminateGlobal_visits hvalid (.refl _ _) fun hr hrecorded hd =>
    recorded_eliminateAt hr (fun k hk => (hd k hk).2) hrecorded)

end CommonSubexpr

/-! ## Copies -/

namespace CopyPropagation

theorem resolved_eq_nil_iff :
    resolved c = [] ↔ ∀ b ∈ c.blocks, ∀ i ∈ b.body, isDeleted (resolved c) i = false := by
  constructor
  · intro hnil b _ i _
    rw [hnil]
    cases i <;> rfl
  · intro hkept
    refine List.eq_nil_iff_forall_not_mem.2 fun ⟨x, o⟩ hx => ?_
    obtain ⟨⟨y, source⟩, hmem, hfollow⟩ := List.mem_filterMap.1 hx
    obtain ⟨o', -, he⟩ := Option.map_eq_some_iff.1 hfollow
    cases he
    obtain ⟨⟨b, hb, hi⟩, -⟩ := mem_candidates hmem
    have hnone : (resolved c).lookup y = none := by simpa [isDeleted] using hkept b hb _ hi
    simpa using List.lookup_eq_none_iff.1 hnone _ hx

theorem replaceIn_nil (b : Block) : replaceIn [] b = b := by
  have hreplace : replace [] = id := funext fun o => by cases o <;> rfl
  have hkept : b.body.filter (!isDeleted [] ·) = b.body :=
    List.filter_eq_self.2 fun i _ => by cases i <;> rfl
  simp [replaceIn, Block.mapInstrs, hreplace, hkept]

theorem recorded_propagate (c : Cfg) : Recorded PhiMinimization.bodySize c (propagate c) := by
  have hnil : events (resolved c) c = [] ↔ resolved c = [] := by
    rw [resolved_eq_nil_iff]
    simp [events]
  have hlog : (resolved c).isEmpty = (events (resolved c) c).isEmpty := by
    rw [Bool.eq_iff_iff, List.isEmpty_iff, List.isEmpty_iff, hnil]
  rw [propagate, hlog]
  refine .of_log rfl (fun e he => ?_) (fun hempty => ?_) fun hne => ?_
  · obtain ⟨b, -, he⟩ := List.mem_flatMap.1 he
    obtain ⟨i, -, rfl⟩ := List.mem_map.1 he
    exact ⟨rfl, rfl⟩
  · rw [hnil.1 hempty]
    exact Cfg.mapBlocks_eq_self fun b _ => replaceIn_nil b
  · obtain ⟨b, hb, i, hi, hdeleted⟩ : ∃ b ∈ c.blocks, ∃ i ∈ b.body, isDeleted (resolved c) i = true := by
      simpa using mt resolved_eq_nil_iff.2 (mt hnil.2 hne)
    refine Cfg.count_mapBlocks_lt (fun d _ => ?_) ⟨b, hb, ?_⟩
    · simpa [replaceIn, Block.mapInstrs] using List.length_filter_le _ d.body
    · simp only [replaceIn, Block.mapInstrs, List.countP_true, List.length_map]
      exact List.length_filter_lt_length_iff_exists.2 ⟨i, hi, by simp [hdeleted]⟩

end CopyPropagation

/-! ## Any pass -/

/-- Every pass says that it changed a graph if and only if it did. It records a transformation if and only if it
changed the graph, but for blocks that folding changes silently. -/
theorem Pass.changed_apply (h : c.Valid) (p : Pass) :
    ((p.apply c).1.changed = true ↔ (p.apply c).1.cfg ≠ c) ∧
      ((p.apply c).1.changed = true ↔ c.proc ∈ (p.apply c).1.events.affected ∨ p = .foldConstants ∧
        ∃ b ∈ c.blocks, (Constants.analyze c).executes b.label = true ∧ Constants.Silent (Constants.analyze c) b) := by
  cases p with
  | minimizePhis rounds =>
    have hr := PhiMinimization.recorded_minimize (max rounds 1) c
    exact ⟨hr.changed_iff, by simpa [Pass.apply] using hr.changed⟩
  | foldConstants =>
    refine ⟨Constants.changed_iff, Constants.changed_iff_recorded.trans (or_congr_right ?_)⟩
    rw [eq_self_iff_true, true_and]
    refine exists_congr fun b => and_congr_right fun _ => and_congr_left fun _ => ?_
    exact ⟨Constants.executes_of_not_isDead, Constants.not_isDead_of_executes⟩
  | eliminateSubexprs =>
    have hr := CommonSubexpr.recorded_eliminate h
    exact ⟨hr.changed_iff, by simpa [Pass.apply] using hr.changed⟩
  | propagateCopies =>
    have hr := CopyPropagation.recorded_propagate c
    exact ⟨hr.changed_iff, by simpa [Pass.apply] using hr.changed⟩

/-- A graph with a constant that nothing reads. -/
def Constants.unread : Cfg := ⟨"@main", ⟨"A"⟩, [⟨⟨"A"⟩, [.const ⟨"%0"⟩ 1], [.ret none]⟩]⟩

theorem Pass.changed_apply_unread : Constants.unread.Valid ∧
    ((Pass.foldConstants.apply Constants.unread).1.changed = true ↔
      (Pass.foldConstants.apply Constants.unread).1.cfg ≠ Constants.unread) ∧
    ∃ b ∈ Constants.unread.blocks, Constants.Silent (Constants.analyze Constants.unread) b := by
  have hok : Cfg.ofBlocks Constants.unread.proc Constants.unread.blocks = .ok Constants.unread := rfl
  have hvalid : Constants.unread.Valid := (Cfg.ofBlocks_eq_ok.1 hok).2.2
  obtain ⟨hcfg, hevents⟩ := Pass.changed_apply hvalid .foldConstants
  rcases hevents.1 (by decide +kernel) with haffected | ⟨-, b, hb, -, hsilent⟩
  · exact absurd haffected (by decide +kernel)
  · exact ⟨hvalid, hcfg, b, hb, hsilent⟩

/-- The constant is deleted, and no transformation is recorded. -/
theorem Pass.not_changed_iff_affected_unread :
    Cfg.ofBlocks Constants.unread.proc Constants.unread.blocks = .ok Constants.unread ∧
      (Pass.foldConstants.apply Constants.unread).2 = none ∧
      ¬ ((Pass.foldConstants.apply Constants.unread).1.changed = true ↔
        Constants.unread.proc ∈ (Pass.foldConstants.apply Constants.unread).1.events.affected) :=
  ⟨rfl, by decide +kernel, by decide +kernel⟩

end ThreeAddress

import Mathlib.Logic.Relation
import ThreeAddress.Proofs.CodeSize.Phis
/-!
# One round is enough

Renaming is a loop (`Renames`) that ends on every graph, as each turn takes an instruction away
(`wellFounded_renames`). At its end no phi yields one source. The sweep behind it deletes phis of themselves and
touches no other, so that it makes nothing renamable again, and a second round finds nothing to do
(`minimize_of_irredundant`): more rounds, and more calls of the pass, leave the graph of the first round.
-/

namespace ThreeAddress.PhiMinimization

variable {c : Cfg} {dest : Temp} {sources : PhiSources} {s : Operand}

/-! ## The loop -/

/-- One turn of the loop: the first phi that yields one source is deleted, and the source is read in its place. -/
def Renames (c c' : Cfg) : Prop := ∃ r, findRenamable? c = some r ∧ apply c r = c'

theorem bodySize_lt_of_renames {c' : Cfg} (h : Renames c c') : bodySize c' < bodySize c := by
  obtain ⟨r, hr, rfl⟩ := h
  exact bodySize_apply_lt hr

/-- The loop ends, on whatever graph it is begun. -/
theorem wellFounded_renames : WellFounded fun c' c : Cfg => Renames c c' :=
  Subrelation.wf bodySize_lt_of_renames (InvImage.wf bodySize Nat.lt_wfRel.wf)

theorem renames_rename (c : Cfg) : Relation.ReflTransGen Renames c (rename c).cfg :=
  renameUpTo_induction (P := Relation.ReflTransGen Renames c) (fun _ r hr h => h.tail ⟨r, hr, rfl⟩) .refl c.size

theorem not_renames_rename (c c' : Cfg) : ¬ Renames (rename c).cfg c' := by
  rintro ⟨r, hr, -⟩
  cases hr.symm.trans (findRenamable?_rename c)

/-! ## What is redundant -/

theorem eraseDups_eq_singleton {α : Type} [DecidableEq α] {a : α} {as : List α} :
    as.eraseDups = [a] ↔ ∀ b, b ∈ as ↔ b = a := by
  constructor
  · intro h b
    rw [← List.mem_eraseDups, h, List.mem_singleton]
  · intro h
    cases as with
    | nil => exact absurd ((h a).2 rfl) List.not_mem_nil
    | cons b bs =>
      obtain rfl : b = a := (h b).1 List.mem_cons_self
      have hrest : bs.filter (fun x => !x == b) = [] :=
        List.filter_eq_nil_iff.2 fun x hx => by simp [(h x).1 (.tail _ hx)]
      rw [List.eraseDups_cons, hrest]
      rfl

/-- The source that is found is the only one besides the destination. -/
theorem singleSource?_eq_some : singleSource? dest sources = some s ↔
    ∀ o, o ∈ sources.operands ∧ o ≠ .temp dest ↔ o = s := by
  have hfilter : ∀ o, o ∈ sources.operands.filter (!·.reads dest) ↔ o ∈ sources.operands ∧ o ≠ .temp dest := by
    intro o
    simp [List.mem_filter, Operand.reads]
  rw [← show (sources.operands.filter (!·.reads dest)).eraseDups = [s] ↔ _ from
    eraseDups_eq_singleton.trans (forall_congr' fun o => by rw [hfilter])]
  unfold singleSource?
  split
  · rename_i source heq
    simp [heq]
  · rename_i hne
    simpa using hne s

theorem singleSource?_eq_none : singleSource? dest sources = none ↔
    ¬ ∃! o, o ∈ sources.operands ∧ o ≠ .temp dest := by
  rw [Option.eq_none_iff_forall_ne_some, ExistsUnique, not_exists]
  refine forall_congr' fun o => not_congr (singleSource?_eq_some.trans ?_)
  exact ⟨fun h => ⟨(h o).2 rfl, fun o' ho' => (h o').1 ho'⟩, fun h o' => ⟨h.2 o', fun ho' => ho' ▸ h.1⟩⟩

/-- A phi that is not redundant has two sources besides itself, or none at all. -/
theorem Irredundant.several (h : Irredundant c) {b : Block} (hb : b ∈ c.blocks) (hi : .phi dest sources ∈ b.body) :
    (¬ ∃! o, o ∈ sources.operands ∧ o ≠ .temp dest) ∧
      (sources.operands ≠ [] → ∃ o ∈ sources.operands, o ≠ .temp dest) := by
  refine ⟨singleSource?_eq_none.1 (findRenamable?_eq_none.1 h.renamed b hb dest sources hi), fun hne => ?_⟩
  by_contra hself
  have hentries : sources.entries ≠ [] := fun he => hne (congrArg (List.map Prod.snd) he)
  have hnull : isNullChoice (.phi dest sources) = true :=
    isNullChoice_iff.2 ⟨dest, sources, rfl, hentries, fun o ho => by_contra fun hod => hself ⟨o, ho, hod⟩⟩
  cases hnull.symm.trans (h.removed b hb _ hi)

/-! ## Rounds -/

theorem rename_of_irredundant (h : Irredundant c) : rename c = ⟨c, [], false⟩ := by
  have hnone : ∀ n, renameUpTo n c = (c, []) := by
    intro n
    cases n with
    | zero => rfl
    | succ n => simp [renameUpTo, h.renamed]
  simp [rename, hnone]

theorem removeNullChoices_of_irredundant (h : Irredundant c) : removeNullChoices c = ⟨c, [], false⟩ := by
  have hnone : ∀ b ∈ c.blocks, b.body.filter isNullChoice = [] := fun b hb =>
    List.filter_eq_nil_iff.2 fun i hi => by simp [h.removed b hb i hi]
  have hlog : (c.blocks.flatMap fun b => (b.body.filter isNullChoice).map fun i =>
      event c.proc b.label s!"removed self-only {i}") = [] :=
    List.flatMap_eq_nil_iff.2 fun b hb => by rw [hnone b hb, List.map_nil]
  have hcfg : (c.mapBlocks fun b => { b with body := b.body.filter (!isNullChoice ·) }) = c :=
    Cfg.mapBlocks_eq_self fun b hb => by
      rw [List.filter_eq_self.2 fun i hi => by simp [h.removed b hb i hi]]
  simp [removeNullChoices, hlog, hcfg]

/-- Where nothing is redundant the pass finds nothing to do, however many rounds it has. -/
theorem minimize_of_irredundant (h : Irredundant c) (rounds : Nat) : minimize rounds c = ⟨c, [], false⟩ := by
  cases rounds with
  | zero => rfl
  | succ rounds => simp [minimize, rename_of_irredundant h, removeNullChoices_of_irredundant h]

/-- Rounds behind the first one change nothing. -/
theorem cfg_minimize_succ (rounds : Nat) (c : Cfg) :
    (minimize (rounds + 1) c).cfg = (removeNullChoices (rename c).cfg).cfg := by
  have hround : Irredundant (removeNullChoices (rename c).cfg).cfg :=
    irredundant_removeNullChoices (findRenamable?_rename c)
  unfold minimize
  dsimp only
  split
  · rw [minimize_of_irredundant hround]
  · rfl

/-- Every call of the loop ends where it finds nothing more. After one round or more no phi has exactly one source
besides itself, and none has itself for its only source; the number of rounds makes no difference to the graph, and
the pass does nothing on it when it is run again. -/
theorem minimize_settles (c : Cfg) :
    Acc (fun c₂ c₁ => Renames c₁ c₂) c ∧ Relation.ReflTransGen Renames c (rename c).cfg ∧
      (∀ c', ¬ Renames (rename c).cfg c') ∧
    ∀ rounds, (∀ b ∈ (minimize (rounds + 1) c).cfg.blocks, ∀ dest sources, .phi dest sources ∈ b.body →
        (¬ ∃! o, o ∈ sources.operands ∧ o ≠ .temp dest) ∧
          (sources.operands ≠ [] → ∃ o ∈ sources.operands, o ≠ .temp dest)) ∧
      (minimize (rounds + 1) c).cfg = (minimize 1 c).cfg ∧
      ∀ again, minimize again (minimize (rounds + 1) c).cfg = ⟨(minimize (rounds + 1) c).cfg, [], false⟩ := by
  refine ⟨wellFounded_renames.apply c, renames_rename c, not_renames_rename c, fun rounds => ?_⟩
  have hirredundant := irredundant_minimize rounds c
  refine ⟨fun b hb dest sources hi => hirredundant.several hb hi, ?_, minimize_of_irredundant hirredundant⟩
  rw [cfg_minimize_succ, cfg_minimize_succ]

end ThreeAddress.PhiMinimization

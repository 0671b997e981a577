import ThreeAddress.Proofs.Dominance
import ThreeAddress.Proofs.SsaForm
/-!
# Checking SSA form

Whether a graph is in strict SSA form can be computed from its dominators: a read is in order if the
temporary is written before in the block or in a strict dominator of the block (`Valid.strict`). The form
of phis is a matter of each phi alone (`phiForm_of_phiIsWhole`).
-/

namespace ThreeAddress.Cfg

/-- What the strict dominators of a block write. -/
def writtenAbove (c : Cfg) (l : Label) : List Temp :=
  (c.blocks.filter fun b => (c.dominance.strict l).contains b.label).flatMap fun b =>
    b.body.filterMap Instr.dest?

/-- Whether an operand may be read where `ts` have been written: locals that nothing writes are left
aside. -/
def mayRead (c : Cfg) (ts : List Temp) (t : Temp) : Bool :=
  !c.writtenLocals.contains t || ts.contains t

/-- Whether all reads of a body are in order, those of phis apart. -/
def readsInOrder (c : Cfg) (ts : List Temp) : List Instr → Bool
  | [] => true
  | i :: is => (i.isPhi || i.usedTemps.all (c.mayRead ts)) && c.readsInOrder (i.dest?.toList ++ ts) is

/-- What is written where a block ends. -/
def writtenAt (c : Cfg) (b : Block) : List Temp := b.body.filterMap Instr.dest? ++ c.writtenAbove b.label

/-- Whether a phi may read its source for a block at the end of that block. -/
def phiInOrder (c : Cfg) (p : Block) : Instr → Bool
  | .phi _ sources =>
    match sources.find? p.label with
    | some (.temp t) => c.mayRead (c.writtenAt p) t
    | _ => true
  | _ => true

/-- Whether a valid graph is in strict SSA form, as far as dominators tell. -/
def isStrict (params : List Temp) (c : Cfg) : Bool :=
  c.isSingleAssignment && params.all (!c.writtenLocals.contains ·) &&
    c.blocks.all fun b => c.readsInOrder (c.writtenAbove b.label) b.body &&
      b.jumps.all (·.usedTemps.all (c.mayRead (c.writtenAt b))) &&
        c.blocks.all fun d => !b.targets.contains d.label || d.body.all (c.phiInOrder b)

variable {params : List Temp} {c : Cfg} {t : Temp}

theorem Valid.definedAt_of_mem_writtenAbove (h : c.Valid) {l : Label} (ht : t ∈ c.writtenAbove l)
    (pre : List Instr) : c.DefinedAt l pre t := by
  obtain ⟨b, hb, hw⟩ := List.mem_flatMap.1 ht
  obtain ⟨i, hi, hit⟩ := List.mem_filterMap.1 hw
  obtain ⟨hb, hdom⟩ := List.mem_filter.1 hb
  have hdom : b.label ∈ c.dominance.strict l := by simpa using hdom
  exact .inr fun ls hls => ⟨b.label, h.mem_of_mem_strict hdom hls, b, hb, rfl, i, hi, hit⟩

theorem Valid.definedAt_of_mem_writtenAt (h : c.Valid) {b : Block} (ht : t ∈ c.writtenAt b) :
    c.DefinedAt b.label b.body t := by
  rcases List.mem_append.1 ht with ht | ht
  · obtain ⟨i, hi, hit⟩ := List.mem_filterMap.1 ht
    exact .inl ⟨i, hi, hit⟩
  · exact h.definedAt_of_mem_writtenAbove ht b.body

theorem mem_of_mayRead {ts : List Temp} (h : c.mayRead ts t = true) (hw : t ∈ c.writtenLocals) : t ∈ ts := by
  simpa [mayRead, hw] using h

/-- Each read of a body that is in order is of something written before it. -/
theorem mem_of_readsInOrder {ts : List Temp} {body pre post : List Instr} {i : Instr}
    (h : c.readsInOrder ts body = true) (hsplit : body = pre ++ i :: post) (hi : i.isPhi = false)
    (ht : t ∈ i.usedTemps) (hw : t ∈ c.writtenLocals) : (∃ j ∈ pre, j.dest? = some t) ∨ t ∈ ts := by
  induction pre generalizing ts body with
  | nil =>
    subst hsplit
    simp only [List.nil_append, readsInOrder, hi, Bool.false_or, Bool.and_eq_true, List.all_eq_true] at h
    exact .inr (mem_of_mayRead (h.1 t ht) hw)
  | cons j pre ih =>
    subst hsplit
    simp only [List.cons_append, readsInOrder, Bool.and_eq_true] at h
    rcases ih h.2 rfl with ⟨k, hk, hkt⟩ | hmem
    · exact .inl ⟨k, .tail _ hk, hkt⟩
    · rcases List.mem_append.1 hmem with hmem | hmem
      · exact .inl ⟨j, List.mem_cons_self, by simpa using hmem⟩
      · exact .inr hmem

/-- What passes the check is in strict SSA form. -/
theorem Valid.strict (h : c.Valid) (hs : c.isStrict params = true) : c.Strict params := by
  simp only [isStrict, Bool.and_eq_true, List.all_eq_true] at hs
  obtain ⟨⟨hsingle, hparams⟩, hblocks⟩ := hs
  refine ⟨h, by simpa [isSingleAssignment] using hsingle, fun t ht hw => ?_, ?_, ?_, ?_⟩
  · simpa [hw] using hparams t ht
  · intro b pre post i t hb hsplit hi ht hw
    rcases mem_of_readsInOrder (hblocks b hb).1.1 hsplit hi ht hw with hdef | hmem
    · exact .inl hdef
    · exact h.definedAt_of_mem_writtenAbove hmem pre
  · intro b j t hb hj ht hw
    exact h.definedAt_of_mem_writtenAt (mem_of_mayRead ((hblocks b hb).1.2 j hj t ht) hw)
  · intro p b dest t sources hp hb hedge hi ho hw
    have htarget : b.label ∈ p.targets := (h.edge_iff hp).1 hedge
    have hphi := (hblocks p hp).2 b hb
    simp only [Bool.or_eq_true, Bool.not_eq_true', List.contains_eq_mem, decide_eq_false_iff_not, htarget,
      not_true_eq_false, false_or, List.all_eq_true] at hphi
    have hread := hphi _ hi
    simp only [phiInOrder, ho] at hread
    exact h.definedAt_of_mem_writtenAt (mem_of_mayRead hread hw)

/-! ## Phis -/

/-- Whether a phi keeps globals and locals apart, and has a source for each of `preds`. -/
def phiIsWhole (preds : List Label) : Instr → Bool
  | .phi dest sources =>
    (sources.operands.all fun o => if dest.isGlobal then o = .temp dest else !o.temp?.any Temp.isGlobal) &&
      preds.all sources.labels.contains
  | _ => true

theorem phiForm_of_phiIsWhole (h : ∀ b ∈ c.blocks, ∀ i ∈ b.body, phiIsWhole (c.predecessors b.label) i = true) :
    c.PhiForm := by
  have hphi : ∀ {b dest sources}, b ∈ c.blocks → .phi dest sources ∈ b.body →
      (∀ o ∈ sources.operands, if dest.isGlobal then o = .temp dest else o.temp?.any Temp.isGlobal = false) ∧
        ∀ l ∈ c.predecessors b.label, l ∈ sources.labels := by
    intro b dest sources hb hi
    have hwhole := h b hb _ hi
    simp only [phiIsWhole, Bool.and_eq_true, List.all_eq_true] at hwhole
    refine ⟨fun o ho => ?_, fun l hl => by simpa using hwhole.2 l hl⟩
    have := hwhole.1 o ho
    split at this <;> simp_all
  refine ⟨fun hb hi hg o ho => ?_, fun hb hi hl t ho => ?_, fun hb hi hedge => ?_⟩
  · simpa [hg] using (hphi hb hi).1 o ho
  · simpa [hl, Operand.temp?] using (hphi hb hi).1 _ ho
  · exact (hphi hb hi).2 _ (mem_predecessors.2 hedge)

end ThreeAddress.Cfg

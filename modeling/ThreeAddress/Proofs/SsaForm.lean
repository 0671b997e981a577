import ThreeAddress.Proofs.Linearize
import ThreeAddress.Proofs.Rewriting
import ThreeAddress.Proofs.Strict
/-!
# The form that the passes work on

Between passes a graph is in strict SSA form, its blocks have the shape that linear code is written
from, with phis at their heads (`Cfg.StrictForm`), and phis keep globals and locals apart and have a
source for each predecessor (`Cfg.SsaForm`). A rewriting restores this form if what it reads in the
place of a temporary is defined wherever the temporary is (`Rewriting.Tidy.ssaForm`).
-/

namespace ThreeAddress

/-- Strict SSA form with blocks that can be written as linear code. -/
structure Cfg.StrictForm (params : List Temp) (c : Cfg) : Prop extends c.Strict params where
  endsOnce : ∀ b ∈ c.blocks, b.EndsOnce
  unlabelled : ∀ b ∈ c.blocks, b.Unlabelled
  phisFirst : ∀ b ∈ c.blocks, b.PhisFirst

theorem Cfg.StrictForm.closed {params : List Temp} {c : Cfg} (h : c.StrictForm params) : c.Closed :=
  ⟨h.toValid, h.endsOnce, h.unlabelled⟩

/-- Phis keep globals and locals apart, and have a source for each predecessor. -/
structure Cfg.PhiForm (c : Cfg) : Prop where
  /-- The phi of a global parameter reads nothing else. -/
  globalPhi {b : Block} {dest : Temp} {sources : PhiSources} : b ∈ c.blocks →
    .phi dest sources ∈ b.body → dest.isGlobal = true → ∀ o ∈ sources.operands, o = .temp dest
  /-- The phi of a local reads no global. -/
  localPhi {b : Block} {dest : Temp} {sources : PhiSources} : b ∈ c.blocks →
    .phi dest sources ∈ b.body → dest.isGlobal = false →
    ∀ t, .temp t ∈ sources.operands → t.isGlobal = false
  phiSource {b : Block} {dest : Temp} {sources : PhiSources} {l : Label} : b ∈ c.blocks →
    .phi dest sources ∈ b.body → c.Edge l b.label → l ∈ sources.labels

/-- Phis read what they stand for, and none stands where there is nothing to come from. -/
structure Cfg.SsaForm (params : List Temp) (c : Cfg) : Prop extends c.StrictForm params, c.PhiForm where
  entryPhi {b : Block} {i : Instr} : b ∈ c.blocks → b.label = c.entry → i ∈ b.body → i.isPhi = false

/-- Phis have sources for predecessors alone. -/
def Cfg.Keyed (c : Cfg) : Prop := ∀ {b : Block} {dest : Temp} {sources : PhiSources} {l : Label},
  b ∈ c.blocks → .phi dest sources ∈ b.body → l ∈ sources.labels → c.Edge l b.label

namespace Rewriting

variable {r : Rewriting}

/-! ## Bodies -/

/-- An instruction of the new body comes from one of the old body. -/
theorem exists_of_body_eq {l : Label} {is pre' post' : List Instr} {i' : Instr}
    (h : r.body l is = pre' ++ i' :: post') : ∃ pre i post, is = pre ++ i :: post ∧
      r.keeps i = true ∧ i' = r.instr l i ∧ pre' = r.body l pre := by
  induction is generalizing pre' with
  | nil => simp at h
  | cons j is ih =>
    by_cases hk : r.keeps j
    · rw [r.body_cons_of_keeps l hk] at h
      cases pre' with
      | nil => exact ⟨[], j, is, rfl, hk, (List.cons.inj h).1.symm, rfl⟩
      | cons k pre' =>
        obtain ⟨rfl, htail⟩ := List.cons.inj h
        obtain ⟨pre, i, post, rfl, hki, hi, rfl⟩ := ih htail
        exact ⟨j :: pre, i, post, rfl, hki, hi, (r.body_cons_of_keeps l hk pre).symm⟩
    · have hk : r.keeps j = false := by simpa using hk
      rw [r.body_cons_of_drops l hk] at h
      obtain ⟨pre, i, post, rfl, hki, hi, rfl⟩ := ih h
      exact ⟨j :: pre, i, post, rfl, hki, hi, (r.body_cons_of_drops l hk pre).symm⟩

theorem mem_body {l : Label} {is : List Instr} {i' : Instr} :
    i' ∈ r.body l is ↔ ∃ i ∈ is, r.keeps i = true ∧ r.instr l i = i' := by
  simp [body, and_assoc]

/-- A phi of the new body, with the sources that are left. -/
theorem phi_of_mem_body {l : Label} {is : List Instr} {dest : Temp} {sources' : PhiSources}
    (h : .phi dest sources' ∈ r.body l is) : ∃ sources, .phi dest sources ∈ is ∧
      r.keeps (.phi dest sources) = true ∧
      sources' = (sources.filter (r.source l)).mapOperands fun _ => r.operand := by
  obtain ⟨i, hi, hk, he⟩ := mem_body.1 h
  cases i <;> cases he
  exact ⟨_, hi, hk, rfl⟩

theorem localDest?_body (r : Rewriting) (l : Label) (is : List Instr) :
    ((r.body l is).filterMap Instr.localDest?).Sublist (is.filterMap Instr.localDest?) := by
  have : (r.body l is).filterMap Instr.localDest? = (is.filter r.keeps).filterMap Instr.localDest? := by
    rw [body, List.filterMap_map]
    exact List.filterMap_congr fun i _ => by simp [Instr.localDest?]
  rw [this]
  exact List.filter_sublist.filterMap _

/-! ## Graphs -/

/-- What a rewriting makes of a graph, with other jumps, and perhaps without some of the blocks. -/
structure Tidy (r : Rewriting) (stays : Block → Bool) (jumps : Block → List Instr) (c c' : Cfg) :
    Prop where
  entry_eq : c'.entry = c.entry
  blocks_eq : c'.blocks =
    (c.blocks.filter stays).map fun b => ⟨b.label, r.body b.label b.body, jumps b⟩
  targets : ∀ b ∈ c.blocks, ∀ t ∈ (jumps b).filterMap Instr.target?, t ∈ b.targets
  uses : ∀ b ∈ c.blocks, ∀ j' ∈ jumps b, ∀ o' ∈ j'.uses,
    ∃ j ∈ b.jumps, ∃ o ∈ j.uses, o' = r.operand o
  /-- What is read instead of a temporary is defined wherever the temporary is. -/
  operand : ∀ o t, r.operand o = .temp t → t ∈ c.writtenLocals → o = .temp t ∨
    ∃ x ∈ c.writtenLocals, o = .temp x ∧ ∀ b ∈ c.blocks, ∀ pre post, b.body = pre ++ post →
      c.DefinedAt b.label pre x → c.DefinedAt b.label pre t
  /-- Globals stay what they are. -/
  operand_global : ∀ t, t.isGlobal = true → r.operand (.temp t) = .temp t
  eq_of_operand_global : ∀ o t, r.operand o = .temp t → t.isGlobal = true → o = .temp t
  /-- Sources stay as long as their edges. -/
  source : ∀ b ∈ c.blocks, stays b = true → ∀ l, c.Edge l b.label →
    (r.source b.label l = true ↔ c'.Edge l b.label)

namespace Tidy

variable {stays : Block → Bool} {jumps : Block → List Instr} {c c' : Cfg} {params : List Temp}

theorem mem_blocks (h : r.Tidy stays jumps c c') {b' : Block} : b' ∈ c'.blocks ↔
    ∃ b ∈ c.blocks, stays b = true ∧ ⟨b.label, r.body b.label b.body, jumps b⟩ = b' := by
  rw [h.blocks_eq]
  simp [and_assoc]

theorem writtenLocals_sublist (h : r.Tidy stays jumps c c') :
    c'.writtenLocals.Sublist c.writtenLocals := by
  rw [Cfg.writtenLocals_eq_flatMap, Cfg.writtenLocals_eq_flatMap, h.blocks_eq]
  generalize c.blocks = bs
  induction bs with
  | nil => simp
  | cons b bs ih =>
    rw [List.flatMap_cons]
    by_cases hb : stays b
    · rw [List.filter_cons_of_pos hb, List.map_cons, List.flatMap_cons]
      exact (r.localDest?_body b.label b.body).append ih
    · rw [List.filter_cons_of_neg hb]
      exact ih.trans (List.sublist_append_right _ _)

theorem edge (h : r.Tidy stays jumps c c') {k l : Label} (he : c'.Edge k l) : c.Edge k l := by
  obtain ⟨b', hb', hk, ht⟩ := he
  obtain ⟨b, hb, -, rfl⟩ := h.mem_blocks.1 hb'
  exact ⟨b, hb, hk, h.targets b hb l ht⟩

/-- The place that writes what is still written stays. -/
theorem keeps_of_mem (h : r.Tidy stays jumps c c') (hs : c.writtenLocals.Nodup) {t : Temp}
    (ht : t ∈ c'.writtenLocals) {b : Block} (hb : b ∈ c.blocks) {i : Instr} (hi : i ∈ b.body)
    (hd : i.dest? = some t) : stays b = true ∧ r.keeps i = true := by
  obtain ⟨b', hb', i', hi', hd', hg⟩ := Cfg.mem_writtenLocals.1 ht
  obtain ⟨d, hdmem, hstays, rfl⟩ := h.mem_blocks.1 hb'
  obtain ⟨j, hj, hk, rfl⟩ := mem_body.1 hi'
  rw [dest?_instr] at hd'
  obtain ⟨pre, post, hpre⟩ := List.append_of_mem hi
  obtain ⟨pre', post', hpre'⟩ := List.append_of_mem hj
  obtain ⟨rfl, -, rfl⟩ := Cfg.eq_of_site hs hg hb hdmem hpre hpre' hd hd'
  exact ⟨hstays, hk⟩

/-- What is still written reaches the same places. -/
theorem definedAt (h : r.Tidy stays jumps c c') (hs : c.writtenLocals.Nodup) {t : Temp}
    (ht : t ∈ c'.writtenLocals) {b : Block} (hb : b ∈ c.blocks) {pre post : List Instr}
    (hsplit : b.body = pre ++ post) (hd : c.DefinedAt b.label pre t) :
    c'.DefinedAt b.label (r.body b.label pre) t := by
  rcases hd with ⟨i, hi, hd⟩ | hpaths
  · obtain ⟨-, hk⟩ := h.keeps_of_mem hs ht hb (by simp [hsplit, hi]) hd
    exact .inl ⟨_, mem_body.2 ⟨i, hi, hk, rfl⟩, by simpa using hd⟩
  · refine .inr fun ls hls => ?_
    obtain ⟨k, hk, d, hdmem, hl, i, hi, hit⟩ :=
      hpaths ls (hls.mono h.entry_eq fun _ _ => h.edge)
    obtain ⟨hstays, hki⟩ := h.keeps_of_mem hs ht hdmem hi hit
    exact ⟨k, hk, _, h.mem_blocks.2 ⟨d, hdmem, hstays, rfl⟩, hl, _, mem_body.2 ⟨i, hi, hki, rfl⟩,
      by simpa using hit⟩

/-- An operand that is read after the rewriting is defined where the old one was. -/
theorem definedAt_operand (h : r.Tidy stays jumps c c') (hs : c.writtenLocals.Nodup) {o : Operand}
    {t : Temp} (ho : r.operand o = .temp t) (ht : t ∈ c'.writtenLocals) {b : Block} (hb : b ∈ c.blocks)
    {pre post : List Instr} (hsplit : b.body = pre ++ post)
    (hread : ∀ u ∈ c.writtenLocals, o = .temp u → c.DefinedAt b.label pre u) :
    c'.DefinedAt b.label (r.body b.label pre) t := by
  have htc := h.writtenLocals_sublist.subset ht
  refine h.definedAt hs ht hb hsplit ?_
  rcases h.operand o t ho htc with hot | ⟨x, hx, hox, himp⟩
  · exact hread t htc hot
  · exact himp b hb pre post hsplit (hread x hx hox)

/-- A phi of the new graph, and the one that it comes from. -/
theorem exists_phi (h : r.Tidy stays jumps c c') {b' : Block} {dest : Temp} {sources' : PhiSources}
    (hb' : b' ∈ c'.blocks) (hi : .phi dest sources' ∈ b'.body) : ∃ b ∈ c.blocks, b.label = b'.label ∧
      stays b = true ∧ ∃ sources, .phi dest sources ∈ b.body ∧
        sources' = (sources.filter (r.source b.label)).mapOperands fun _ => r.operand := by
  obtain ⟨b, hb, hstays, rfl⟩ := h.mem_blocks.1 hb'
  obtain ⟨sources, hi, -, hs⟩ := Rewriting.phi_of_mem_body hi
  exact ⟨b, hb, rfl, hstays, sources, hi, hs⟩

/-! ## The form is restored -/

/-- A rewriting restores strict SSA form. -/
theorem strict (h : r.Tidy stays jumps c c') (hc : c.Strict params) (hvalid : c'.Valid) :
    c'.Strict params where
  toValid := hvalid
  single := hc.single.sublist h.writtenLocals_sublist
  params_notMem t hp hw := hc.params_notMem t hp (h.writtenLocals_sublist.subset hw)
  read := by
    intro b' pre' post' i' t hb' hsplit' hphi hread hw
    obtain ⟨b, hb, hstays, rfl⟩ := h.mem_blocks.1 hb'
    obtain ⟨pre, i, post, hsplit, hk, rfl, rfl⟩ := Rewriting.exists_of_body_eq hsplit'
    rw [Rewriting.isPhi_instr] at hphi
    rw [Rewriting.instr_of_not_phi _ _ hphi] at hread
    obtain ⟨o, ho, hot⟩ := Instr.mem_usedTemps_mapOperands.1 hread
    refine h.definedAt_operand hc.single hot hw hb hsplit fun u hu hou => ?_
    exact hc.read hb hsplit hphi (Instr.mem_usedTemps.2 (hou ▸ ho)) hu
  jump := by
    intro b' j' t hb' hj' hread hw
    obtain ⟨b, hb, hstays, rfl⟩ := h.mem_blocks.1 hb'
    obtain ⟨j, hj, o, ho, hot⟩ := h.uses b hb j' hj' _ (Instr.mem_usedTemps.1 hread)
    refine h.definedAt_operand hc.single hot.symm hw hb (List.append_nil _).symm fun u hu hou => ?_
    exact hc.jump hb hj (Instr.mem_usedTemps.2 (hou ▸ ho)) hu
  phiRead := by
    intro p' b' dest t sources' hp' hb' hedge hi' hfind hw
    obtain ⟨p, hp, -, rfl⟩ := h.mem_blocks.1 hp'
    obtain ⟨b, hb, hl, -, sources, hi, rfl⟩ := h.exists_phi hb' hi'
    rw [PhiSources.find?_mapOperands, PhiSources.find?_filter] at hfind
    obtain ⟨o, ho, hot⟩ := Option.map_eq_some_iff.1 hfind
    split at ho
    · refine h.definedAt_operand hc.single hot hw hp (List.append_nil _).symm fun u hu hou => ?_
      exact hc.phiRead hp hb (hl ▸ h.edge hedge) hi (hou ▸ ho) hu
    · simp at ho

theorem strictForm (h : r.Tidy stays jumps c c') (hc : c.StrictForm params) (hvalid : c'.Valid)
    (hends : ∀ b ∈ c'.blocks, b.EndsOnce) : c'.StrictForm params where
  toStrict := h.strict hc.toStrict hvalid
  endsOnce := hends
  unlabelled := by
    intro b' hb' i' hi'
    obtain ⟨b, hb, -, rfl⟩ := h.mem_blocks.1 hb'
    obtain ⟨i, hi, -, rfl⟩ := Rewriting.mem_body.1 hi'
    rw [Rewriting.label?_instr]
    exact hc.unlabelled b hb i hi
  phisFirst := by
    intro b' hb'
    obtain ⟨b, hb, -, rfl⟩ := h.mem_blocks.1 hb'
    obtain ⟨phis, rest, hsplit, hphis, hrest⟩ := hc.phisFirst b hb
    exact ⟨_, _, by rw [hsplit, Rewriting.body_append], r.isPhi_body _ hphis, r.isPhi_body _ hrest⟩

/-- A rewriting restores the form that the passes work on. -/
theorem ssaForm (h : r.Tidy stays jumps c c') (hc : c.SsaForm params) (hvalid : c'.Valid)
    (hends : ∀ b ∈ c'.blocks, b.EndsOnce) : c'.SsaForm params where
  toStrictForm := h.strictForm hc.toStrictForm hvalid hends
  globalPhi := by
    intro b' dest sources' hb' hi' hg o' ho'
    obtain ⟨b, hb, -, -, sources, hi, rfl⟩ := h.exists_phi hb' hi'
    obtain ⟨o, ho, rfl⟩ := PhiSources.exists_of_mem_mapOperands_filter ho'
    rw [hc.globalPhi hb hi hg o ho, h.operand_global dest hg]
  localPhi := by
    intro b' dest sources' hb' hi' hg t hmem
    obtain ⟨b, hb, -, -, sources, hi, rfl⟩ := h.exists_phi hb' hi'
    obtain ⟨o, ho, hot⟩ := PhiSources.exists_of_mem_mapOperands_filter hmem
    by_contra htg
    have htg : t.isGlobal = true := by simpa using htg
    obtain rfl := h.eq_of_operand_global o t hot htg
    rw [hc.localPhi hb hi hg t ho] at htg
    cases htg
  phiSource := by
    intro b' dest sources' l hb' hi' hedge
    obtain ⟨b, hb, hl, hstays, sources, hi, rfl⟩ := h.exists_phi hb' hi'
    rw [← hl] at hedge
    obtain ⟨o, ho⟩ := PhiSources.mem_labels.1 (hc.phiSource hb hi (h.edge hedge))
    rw [PhiSources.labels_mapOperands, PhiSources.mem_labels, PhiSources.find?_filter,
      if_pos ((h.source b hb hstays l (h.edge hedge)).2 hedge)]
    exact ⟨o, ho⟩
  entryPhi := by
    intro b' i' hb' hl hi'
    obtain ⟨b, hb, -, rfl⟩ := h.mem_blocks.1 hb'
    obtain ⟨i, hi, -, rfl⟩ := Rewriting.mem_body.1 hi'
    rw [Rewriting.isPhi_instr]
    exact hc.entryPhi hb (hl.trans h.entry_eq) hi

theorem keyed (h : r.Tidy stays jumps c c') (hc : c.Keyed) : c'.Keyed := by
  intro b' dest sources' l hb' hi' hlabel
  obtain ⟨b, hb, hl, hstays, sources, hi, rfl⟩ := h.exists_phi hb' hi'
  rw [PhiSources.labels_mapOperands, PhiSources.mem_labels] at hlabel
  obtain ⟨o, ho⟩ := hlabel
  rw [PhiSources.find?_filter] at ho
  split at ho
  · rename_i hsource
    have hedge := hc hb hi (PhiSources.mem_labels.2 ⟨o, ho⟩)
    exact hl ▸ (h.source b hb hstays l hedge).1 hsource
  · cases ho

end Tidy

end Rewriting

end ThreeAddress

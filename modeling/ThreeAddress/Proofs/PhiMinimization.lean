import ThreeAddress.PhiMinimization
import ThreeAddress.Proofs.FormCheck
import ThreeAddress.Proofs.Supplied
/-!
# Deleting redundant phis is sound

A phi of a local with one source besides itself holds what that source holds wherever it reaches
(`SingleSource.invariant`): control comes to the phi by an edge of the source before it can come there by
one of the phi itself, and the source is not written again between the phi and the places that it
reaches. A phi of a local with no other source than itself stands where no path leads.
-/

namespace ThreeAddress.PhiMinimization

variable {env : Surroundings} {params : List Temp} {c : Cfg}

/-! ## Phis with one source -/

/-- A phi of a local whose sources are itself and `s`, and where it stands. -/
structure SingleSource (c : Cfg) (d : Block) (before after : List Instr) (x : Temp)
    (sources : PhiSources) (s : Operand) : Prop where
  mem : d ∈ c.blocks
  split : d.body = before ++ .phi x sources :: after
  isLocal : x.isGlobal = false
  operand : ∀ o ∈ sources.operands, o = .temp x ∨ o = s
  source_mem : s ∈ sources.operands
  ne : s ≠ .temp x

namespace SingleSource

variable {d : Block} {before after : List Instr} {x : Temp} {sources : PhiSources} {s : Operand}

theorem phi_mem (hx : SingleSource c d before after x sources s) : .phi x sources ∈ d.body := by
  simp [hx.split]

theorem mem_writtenLocals (hx : SingleSource c d before after x sources s) : x ∈ c.writtenLocals :=
  Cfg.mem_writtenLocals.2 ⟨d, hx.mem, _, hx.phi_mem, rfl, hx.isLocal⟩

theorem source_isLocal (h : c.SsaForm params) (hx : SingleSource c d before after x sources s) {y : Temp}
    (hy : s = .temp y) : y.isGlobal = false :=
  h.localPhi hx.mem hx.phi_mem hx.isLocal y (hy ▸ hx.source_mem)

/-- The source is written on every path to the phi. The last edge of a path either is one of the source,
or it is one of the phi itself, and then the path has come by the phi before. -/
theorem definedAt_source (h : c.SsaForm params) (hx : SingleSource c d before after x sources s)
    {y : Temp} (hy : s = .temp y) (hw : y ∈ c.writtenLocals) : c.DefinedAt d.label [] y := by
  refine .inr fun ls hls => ?_
  induction hn : ls.length using Nat.strongRecOn generalizing ls with
  | ind n ih =>
    generalize hl : d.label = l at hls
    cases hls with
    | entry => cases h.entryPhi hx.mem hl hx.phi_mem
    | @step ls k l hk hedge =>
      subst hl
      obtain ⟨o, ho⟩ := PhiSources.mem_labels.1 (h.phiSource hx.mem hx.phi_mem hedge)
      obtain ⟨p, hp, rfl, -⟩ := id hedge
      have shorter : ∀ ls', c.Path ls' d.label → ls'.length < n → (∀ k ∈ ls', k ∈ p.label :: ls) →
          ∃ k ∈ p.label :: ls, c.Writes k y := by
        intro ls' hls' hlen hsub
        obtain ⟨k, hk, hky⟩ := ih ls'.length hlen ls' hls' rfl
        exact ⟨k, hsub k hk, hky⟩
      rcases hx.operand o (PhiSources.mem_operands ho) with rfl | rfl
      · rcases h.phiRead hp hx.mem hedge hx.phi_mem ho hx.mem_writtenLocals with ⟨i, hi, hix⟩ | hpaths
        · obtain rfl := Cfg.eq_of_writes h.single hx.isLocal hp hx.mem hi hx.phi_mem hix rfl
          exact shorter ls hk (by simp [← hn]) fun k hk => .tail _ hk
        · obtain ⟨k, hkmem, b, hb, rfl, i, hi, hix⟩ := hpaths ls hk
          obtain rfl := Cfg.eq_of_writes h.single hx.isLocal hb hx.mem hi hx.phi_mem hix rfl
          obtain ⟨later, earlier, rfl, hpath⟩ := hk.split hkmem
          exact shorter earlier hpath (by simp [← hn]; omega) fun k hk => by simp [hk]
      · rcases h.phiRead hp hx.mem hedge hx.phi_mem (hy ▸ ho) hw with ⟨i, hi, hiy⟩ | hpaths
        · exact ⟨p.label, List.mem_cons_self, p, hp, rfl, i, hi, hiy⟩
        · obtain ⟨k, hkmem, hky⟩ := hpaths ls hk
          exact ⟨k, .tail _ hkmem, hky⟩

/-- The source reaches every place that the phi reaches. -/
theorem definedAt_of_phi (h : c.SsaForm params) (hx : SingleSource c d before after x sources s)
    {y : Temp} (hy : s = .temp y) (hw : y ∈ c.writtenLocals) {b : Block} {pre post : List Instr}
    (hb : b ∈ c.blocks) (hpre : b.body = pre ++ post) (hdef : c.DefinedAt b.label pre x) :
    c.DefinedAt b.label pre y :=
  Cfg.definedAt_trans h.single hx.isLocal hx.mem hx.split rfl
    ((hx.definedAt_source h hy hw).mono (by simp)) hb hpre hdef

/-- At the points that the phi reaches it holds what its source holds. -/
def Same (c : Cfg) (x : Temp) (s : Operand) (b : Block) (pre : List Instr) (σ : Store) : Prop :=
  c.Reachable b.label ∧ (c.DefinedAt b.label pre x → σ.temp? x = σ.value? s)

/-- Places that the phi reaches do not write its source. -/
theorem not_writes_source (h : c.SsaForm params) (hx : SingleSource c d before after x sources s)
    {y : Temp} (hy : s = .temp y) {b : Block} (hb : b ∈ c.blocks) (hr : c.Reachable b.label)
    {pre post : List Instr} {j : Instr} (hpre : b.body = pre ++ j :: post)
    (hdef : c.DefinedAt b.label pre x ∨ (b = d ∧ ∀ i ∈ pre, i.isPhi = true)) : j.dest? ≠ some y := by
  intro hj
  have hlocal := hx.source_isLocal h hy
  have hw : y ∈ c.writtenLocals := Cfg.mem_writtenLocals.2 ⟨b, hb, j, by simp [hpre], hj, hlocal⟩
  refine Cfg.not_definedAt_site h.single hlocal hb hpre hj hr ?_
  rcases hdef with hdef | ⟨rfl, -⟩
  · exact hx.definedAt_of_phi h hy hw hb hpre hdef
  · exact (hx.definedAt_source h hy hw).mono (by simp)

/-- The phis of a block leave the source as it is if the phi reaches the block or stands in it. -/
theorem value?_of_phis (h : c.SsaForm params) (hx : SingleSource c d before after x sources s) {b : Block}
    (hb : b ∈ c.blocks) (hr : c.Reachable b.label) (hor : c.DefinedAt b.label [] x ∨ b = d) {l : Label}
    {phis rest : List Instr} (hbody : b.body = phis ++ rest) (hphis : ∀ i ∈ phis, i.isPhi = true)
    {σ σ₁ : Store} (hexec : σ.Phis l phis σ₁) : σ₁.value? s = σ.value? s := by
  cases hs : s with
  | imm k => rfl
  | temp y =>
    refine hexec.temp?_of_notMem (hx.source_isLocal h hs) fun j hj => ?_
    obtain ⟨pre, post, hsplit⟩ := List.append_of_mem hj
    have hpre : b.body = pre ++ j :: (post ++ rest) := by simp [hbody, hsplit]
    have hpreφ : ∀ i ∈ pre, i.isPhi = true := fun i hi => hphis i (by simp [hsplit, hi])
    refine hx.not_writes_source h hs hb hr hpre ?_
    exact hor.imp (fun hdef => hdef.mono (by simp)) fun hbd => ⟨hbd, hpreφ⟩

/-- Phis that write `x` are those of its block, and leave it with the value of an operand of its phi. -/
theorem temp?_of_phis (h : c.SsaForm params) (hx : SingleSource c d before after x sources s) {b : Block}
    (hb : b ∈ c.blocks) {l : Label} {phis rest : List Instr} (hbody : b.body = phis ++ rest) {i : Instr}
    (hi : i ∈ phis) (hix : i.dest? = some x) {σ σ₁ : Store} (hexec : σ.Phis l phis σ₁) :
    b = d ∧ ∃ o, sources.find? l = some o ∧ σ₁.temp? x = σ.value? o := by
  obtain ⟨pre, post, rfl⟩ := List.append_of_mem hi
  have hpre : b.body = pre ++ i :: (post ++ rest) := by simp [hbody]
  obtain ⟨rfl, rfl, rfl⟩ := Cfg.eq_of_site h.single hx.isLocal hb hx.mem hpre hx.split hix rfl
  -- No phi behind that of `x` writes it again.
  have hafter : ∀ j ∈ post, j.dest? ≠ some x := by
    intro j hj hjx
    obtain ⟨q, q', hq⟩ := List.append_of_mem hj
    have hsite : b.body = (pre ++ .phi x sources :: q) ++ j :: (q' ++ rest) := by simp [hbody, hq]
    obtain ⟨-, hlen, -⟩ := Cfg.eq_of_site h.single hx.isLocal hb hb hx.split hsite rfl hjx
    simpa using congrArg List.length hlen
  exact ⟨rfl, hexec.temp?_of_phi hx.isLocal hafter⟩

/-- The phi holds what its source holds along every run. -/
theorem invariant (h : c.SsaForm params) (hx : SingleSource c d before after x sources s)
    (calls : Calls) : c.Invariant calls (Same c x s) where
  enter := by
    rintro p b phis rest σ σ₁ hp hb ⟨hr, hsame⟩ he hbody hphis hrest hexec
    have hedge : c.Edge p.label b.label := ⟨p, hp, rfl, Store.mem_targets_of_exit? he⟩
    have hrb : c.Reachable b.label := hr.step hedge
    refine ⟨hrb, fun hdef => ?_⟩
    by_cases hmem : ∃ i ∈ phis, i.dest? = some x
    · obtain ⟨i, hi, hix⟩ := hmem
      obtain ⟨rfl, o, ho, hv⟩ := hx.temp?_of_phis h hb hbody hi hix hexec
      rw [hv, hx.value?_of_phis h hb hrb (.inr rfl) hbody hphis hexec]
      -- Where the phi is its own operand, control has come by it before.
      rcases hx.operand o (PhiSources.mem_operands ho) with rfl | rfl
      · exact hsame (h.phiRead hp hb hedge hx.phi_mem ho hx.mem_writtenLocals)
      · rfl
    · have hdef := hdef.head_or.resolve_left hmem
      have hnot : ∀ i ∈ phis, i.dest? ≠ some x := fun i hi hix => hmem ⟨i, hi, hix⟩
      rw [hexec.temp?_of_notMem hx.isLocal hnot, hx.value?_of_phis h hb hrb (.inl hdef) hbody hphis hexec]
      exact hsame (hdef.of_edge h.toValid hp hedge)
  exec := by
    rintro b pre post j σ σ₁ hb hbody ⟨hr, hsame⟩ hexec
    refine ⟨hr, fun hdef => ?_⟩
    have hjx : j.dest? ≠ some x := by
      intro hjx
      obtain ⟨-, -, rfl⟩ := Cfg.eq_of_site h.single hx.isLocal hb hx.mem hbody hx.split hjx rfl
      simpa [Instr.isPhi] using hexec.plain.1
    have hdef := hdef.concat.resolve_left hjx
    have hkeeps : σ₁.value? s = σ.value? s := by
      cases hs : s with
      | imm k => rfl
      | temp y =>
        exact hexec.temp?_of_ne (hx.source_isLocal h hs)
          (hx.not_writes_source h hs hb hr hbody (.inl hdef))
    rw [hexec.temp?_of_ne hx.isLocal hjx, hkeeps]
    exact hsame hdef

end SingleSource

/-! ## Reading the source instead -/

/-- Deletes the phi of `x` and reads `s` in its place. -/
def rewriting (x : Temp) (s : Operand) : Rewriting where
  keeps i := !i.defines x
  operand o := o.subst x s
  source _ _ := true

section

variable {d : Block} {before after : List Instr} {x : Temp} {sources : PhiSources} {s : Operand}

theorem operand_self (x : Temp) (s : Operand) : (rewriting x s).operand (.temp x) = s := by
  simp [rewriting, Operand.subst, Operand.reads]

theorem operand_of_ne {o : Operand} (h : o ≠ .temp x) : (rewriting x s).operand o = o := by
  simp [rewriting, Operand.subst, Operand.reads, h]

theorem inPlace_rewriting (h : c.SsaForm params) (hx : SingleSource c d before after x sources s) :
    (rewriting x s).InPlace c where
  source _ _ := rfl
  operand := by
    intro o t ho ht
    by_cases hox : o = .temp x
    · subst hox
      rw [operand_self] at ho
      exact .inr ⟨x, hx.mem_writtenLocals, rfl, fun b hb pre post hpre hdef =>
        hx.definedAt_of_phi h ho ht hb hpre hdef⟩
    · rw [operand_of_ne hox] at ho
      exact .inl ho
  operand_global t ht := operand_of_ne fun he => by
    cases he
    rw [hx.isLocal] at ht
    cases ht
  eq_of_operand_global := by
    intro o t ho ht
    by_cases hox : o = .temp x
    · subst hox
      rw [operand_self] at ho
      rw [hx.source_isLocal h ho] at ht
      cases ht
    · rwa [operand_of_ne hox] at ho

theorem sound_rewriting (h : c.SsaForm params) (hx : SingleSource c d before after x sources s)
    (calls : Calls) : (rewriting x s).Sound calls c (c.mapBlocks (rewriting x s).block)
      (SingleSource.Same c x s) (· = x) := by
  have hsite : ∀ b ∈ c.blocks, ∀ i ∈ b.body, (rewriting x s).keeps i = false → i = .phi x sources := by
    intro b hb i hi hk
    have hix : i.dest? = some x := by simpa [rewriting, Instr.defines] using hk
    obtain ⟨pre, post, hpre⟩ := List.append_of_mem hi
    exact (Cfg.eq_of_site h.single hx.isLocal hb hx.mem hpre hx.split hix rfl).2.2
  refine Rewriting.sound_block h.toStrict (fun _ _ => rfl) (hx.invariant h calls) ?_ ?_ ?_
  · intro b pre post o σ v hb hpre hσ hread hv
    by_cases hox : o = .temp x
    · subst hox
      have hdef := hread x hx.mem_writtenLocals rfl
      rw [operand_self]
      refine ⟨(hσ.2 hdef).symm.trans hv, fun t ht _ htx => hx.ne ?_⟩
      rw [ht, htx]
    · rw [operand_of_ne hox]
      exact ⟨hv, fun t ht _ htx => hox (htx ▸ ht)⟩
  · intro b hb i hi hk hphi
    rw [hsite b hb i hi hk] at hphi
    cases hphi
  · intro p b dest sources' σ _ hb _ _ hi hk _
    have := hsite b hb _ hi hk
    cases this
    rfl

end

/-- The phi that is found has one source besides itself. -/
theorem singleSource_of_findRenamable? (h : c.SsaForm params) {r : Renamable}
    (hr : findRenamable? c = some r) : ∃ d before after sources, d.label = r.block ∧
      before.length = r.index ∧ SingleSource c d before after r.dest sources r.source := by
  obtain ⟨d, hd, hr⟩ := List.exists_of_findSome?_eq_some hr
  obtain ⟨⟨i, index⟩, hmem, hr⟩ := List.exists_of_findSome?_eq_some hr
  have hi := List.mem_zipIdx_iff_getElem?.1 hmem
  obtain ⟨hlt, hget⟩ := List.getElem?_eq_some_iff.1 hi
  cases i with
  | phi dest sources =>
    obtain ⟨source, hs, rfl⟩ := Option.map_eq_some_iff.1 hr
    have hsplit : d.body = d.body.take index ++ .phi dest sources :: d.body.drop (index + 1) := by
      have hget : d.body[index] = .phi dest sources := hget
      rw [← hget, ← List.drop_eq_getElem_cons, List.take_append_drop]
    have hphi : .phi dest sources ∈ d.body := by rw [hsplit]; simp
    have hfilter : ∀ o, o ∈ sources.operands.filter (!·.reads dest) ↔ o = source := by
      intro o
      simp only [singleSource?] at hs
      split at hs
      · rename_i source' heq
        cases hs
        rw [← List.mem_eraseDups, heq, List.mem_singleton]
      · cases hs
    have hsource := (hfilter source).2 rfl
    simp only [List.mem_filter, Operand.reads, Bool.not_eq_true', decide_eq_false_iff_not] at hsource hfilter
    refine ⟨d, _, _, sources, rfl, by simp; omega, hd, hsplit, ?_, fun o ho => ?_, hsource.1, hsource.2⟩
    · -- A phi of a global reads nothing but the global.
      by_contra hg
      exact hsource.2 (h.globalPhi hd hphi (by simpa using hg) source hsource.1)
    · by_cases hox : o = .temp dest
      · exact .inl hox
      · exact .inr ((hfilter o).1 ⟨ho, hox⟩)
  | _ => cases hr

/-- Deleting the phi that is found is the rewriting. -/
theorem apply_eq (h : c.SsaForm params) {r : Renamable} {d : Block} {before after : List Instr}
    {sources : PhiSources} (hlabel : d.label = r.block) (hindex : before.length = r.index)
    (hx : SingleSource c d before after r.dest sources r.source) :
    apply c r = c.mapBlocks (rewriting r.dest r.source).block := by
  have hother : ∀ b ∈ c.blocks, ∀ pre i post, b.body = pre ++ i :: post →
      i.dest? = some r.dest → b = d ∧ pre = before :=
    fun b hb pre i post hpre hi =>
      have ⟨hbd, hpre, _⟩ := Cfg.eq_of_site h.single hx.isLocal hb hx.mem hpre hx.split hi rfl
      ⟨hbd, hpre⟩
  have hkeeps : ∀ (is : List Instr), (∀ i ∈ is, i.dest? ≠ some r.dest) →
      is.filter (rewriting r.dest r.source).keeps = is := by
    intro is his
    refine List.filter_eq_self.2 fun i hi => ?_
    simpa [rewriting, Instr.defines] using his i hi
  have hsource : ∀ l k, (rewriting r.dest r.source).source l k = true := fun _ _ => rfl
  simp only [apply, Cfg.subst, Cfg.modify, Cfg.mapBlocks, List.map_map]
  congr 1
  refine List.map_congr_left fun b hb => ?_
  have hbody : (if b.label = r.block then { b with body := b.body.eraseIdx r.index } else b) =
      { b with body := b.body.filter (rewriting r.dest r.source).keeps } := by
    split
    · rename_i hbl
      obtain rfl : b = d := h.eq_of_label hb hx.mem (hbl.trans hlabel.symm)
      have hbefore : ∀ i ∈ before, i.dest? ≠ some r.dest := by
        intro i hi hix
        obtain ⟨q, q', hq⟩ := List.append_of_mem hi
        obtain ⟨-, hlen⟩ := hother b hb q i (q' ++ .phi r.dest sources :: after)
          (by simp [hx.split, hq]) hix
        have := congrArg List.length (hlen ▸ hq)
        simp at this
      have hafter : ∀ i ∈ after, i.dest? ≠ some r.dest := by
        intro i hi hix
        obtain ⟨q, q', hq⟩ := List.append_of_mem hi
        obtain ⟨-, hlen⟩ := hother b hb (before ++ .phi r.dest sources :: q) i q'
          (by simp [hx.split, hq]) hix
        simpa using congrArg List.length hlen
      congr 1
      rw [hx.split, ← hindex, List.eraseIdx_append_of_length_le (Nat.le_refl _), Nat.sub_self,
        List.eraseIdx_cons_zero, List.filter_append, List.filter_cons_of_neg (by
          simp [rewriting, Instr.defines, Instr.dest?]), hkeeps before hbefore, hkeeps after hafter]
    · rename_i hbl
      rw [hkeeps b.body fun i hi hix => hbl ?_]
      obtain ⟨pre, post, hpre⟩ := List.append_of_mem hi
      rw [(hother b hb pre i post hpre hix).1, hlabel]
  simp only [Function.comp_apply, hbody, Block.subst, Block.mapInstrs, Rewriting.block, Rewriting.body]
  congr 1
  exact List.map_congr_left fun i _ => (Rewriting.instr_of_source hsource b.label i).symm

theorem improves_apply (h : c.SsaForm params) {r : Renamable} (hr : findRenamable? c = some r) :
    c.Improves env params (apply c r) := by
  obtain ⟨d, before, after, sources, hlabel, hindex, hx⟩ := singleSource_of_findRenamable? h hr
  rw [apply_eq h hlabel hindex hx]
  have hplace := inPlace_rewriting h hx
  refine ⟨hplace.ssaForm h, fun calls σ f _ _ hrun => ?_, hplace.tidy.keeps, hplace.tidy.keyed⟩
  refine (sound_rewriting h hx calls).runs h.phisFirst rfl (fun b hb hl => ⟨?_, fun hdef => ?_⟩) hrun
  · exact hl ▸ c.reachable_entry
  · rcases hdef with ⟨i, hi, -⟩ | hpaths
    · simp at hi
    · obtain ⟨k, hk, -⟩ := hpaths [] (hl ▸ .entry)
      simp at hk

/-! ## Phis of themselves -/

/-- Deletes the phis of their own destination alone. -/
def unchosen : Rewriting where
  keeps i := !isNullChoice i
  operand o := o
  source _ _ := true

theorem isNullChoice_iff {i : Instr} : isNullChoice i = true ↔ ∃ dest sources, i = .phi dest sources ∧
    sources.entries ≠ [] ∧ ∀ o ∈ sources.operands, o = .temp dest := by
  cases i with
  | phi dest sources =>
    simp [isNullChoice, PhiSources.isEmpty, Operand.reads]
  | _ => simp [isNullChoice]

/-- The first edge on a path to the phi of a local cannot come from behind the phi, so that the phi reads
something else than its destination there. -/
theorem exists_source_of_reachable (h : c.SsaForm params) {b : Block} (hb : b ∈ c.blocks) {dest : Temp}
    {sources : PhiSources} (hi : .phi dest sources ∈ b.body) (hlocal : dest.isGlobal = false)
    (hr : c.Reachable b.label) : ∃ p ∈ c.blocks, c.Reachable p.label ∧ c.Edge p.label b.label ∧
      ∃ o, sources.find? p.label = some o ∧ o ≠ .temp dest := by
  obtain ⟨ls, hls⟩ := hr
  have hw : dest ∈ c.writtenLocals := Cfg.mem_writtenLocals.2 ⟨b, hb, _, hi, rfl, hlocal⟩
  have hwrites : ∀ k, c.Writes k dest → k = b.label := by
    rintro k ⟨d, hd, rfl, j, hj, hjd⟩
    rw [Cfg.eq_of_writes h.single hlocal hd hb hj hi hjd rfl]
  obtain ⟨first, hfirst, hnot⟩ := hls.exists_first
  generalize hl : b.label = l at hfirst
  cases hfirst with
  | entry => cases h.entryPhi hb hl hi
  | @step ls k _ hk hedge =>
    subst hl
    obtain ⟨o, ho⟩ := PhiSources.mem_labels.1 (h.phiSource hb hi hedge)
    obtain ⟨p, hp, rfl, -⟩ := id hedge
    refine ⟨p, hp, ⟨ls, hk⟩, hedge, o, ho, ?_⟩
    rintro rfl
    rcases h.phiRead hp hb hedge hi ho hw with ⟨j, hj, hjd⟩ | hpaths
    · exact hnot (by simp [hwrites p.label ⟨p, hp, rfl, j, hj, hjd⟩])
    · obtain ⟨m, hm, hmd⟩ := hpaths ls hk
      exact hnot (.tail _ (hwrites m hmd ▸ hm))

/-- A local that only its own phi writes is never written. -/
theorem not_reachable_of_isNullChoice (h : c.SsaForm params) {b : Block} (hb : b ∈ c.blocks) {dest : Temp}
    {sources : PhiSources} (hi : .phi dest sources ∈ b.body)
    (hnull : isNullChoice (.phi dest sources) = true) (hlocal : dest.isGlobal = false) :
    ¬ c.Reachable b.label := by
  intro hr
  obtain ⟨dest, sources, ⟨⟩, -, hself⟩ := isNullChoice_iff.1 hnull
  obtain ⟨p, -, -, -, o, ho, hne⟩ := exists_source_of_reachable h hb hi hlocal hr
  exact hne (hself o (PhiSources.mem_operands ho))

theorem removeNullChoices_cfg (c : Cfg) : (removeNullChoices c).cfg = c.mapBlocks unchosen.block := by
  have hjump : ∀ j : Instr, j.mapOperands unchosen.operand = j := Instr.mapOperands_id
  have hinstr : ∀ l i, unchosen.instr l i = i := fun l i =>
    (Rewriting.instr_of_source (fun _ _ => rfl) l i).trans (hjump i)
  have hblock : unchosen.block = fun b => { b with body := b.body.filter (!isNullChoice ·) } := by
    funext b
    have hmap : ∀ is : List Instr, is.map (unchosen.instr b.label) = is := fun is => by
      rw [List.map_congr_left fun i _ => hinstr b.label i, List.map_id']
    simp only [Rewriting.block, Rewriting.body, hjump, hmap, List.map_id']
    rfl
  rw [hblock]
  rfl

theorem inPlace_unchosen (c : Cfg) : unchosen.InPlace c :=
  ⟨fun _ _ => rfl, fun _ _ ho _ => .inl ho, fun _ _ => rfl, fun _ _ ho _ => ho⟩

theorem improves_removeNullChoices (h : c.SsaForm params) :
    c.Improves env params (removeNullChoices c).cfg := by
  rw [removeNullChoices_cfg]
  have hplace := inPlace_unchosen c
  refine ⟨hplace.ssaForm h, fun calls σ f _ _ hrun => ?_, hplace.tidy.keeps, hplace.tidy.keyed⟩
  have hsound : unchosen.Sound calls c (c.mapBlocks unchosen.block) (fun b _ _ => c.Reachable b.label)
      (fun _ => False) := by
    refine Rewriting.sound_block h.toStrict (fun _ _ => rfl) ⟨?_, ?_⟩ ?_ ?_ ?_
    · intro p b phis rest σ σ₁ hp _ hr he _ _ _ _
      exact hr.step ⟨p, hp, rfl, Store.mem_targets_of_exit? he⟩
    · intro b pre post i σ σ₁ _ _ hr _
      exact hr
    · intro b pre post o σ v _ _ _ _ hv
      exact ⟨hv, fun _ _ _ hh => hh⟩
    · intro b _ i _ hk hphi
      obtain ⟨dest, sources, rfl, -⟩ := isNullChoice_iff.1 (by simpa [unchosen] using hk)
      cases hphi
    · intro p b dest sources σ hp hb hr hedge hi hk hlocal
      exact not_reachable_of_isNullChoice h hb hi (by simpa [unchosen] using hk) hlocal (hr.step hedge)
  exact hsound.runs h.phisFirst rfl (fun _ _ hl => hl ▸ c.reachable_entry) hrun

/-! ## The pass -/

/-- What the deletion of one phi keeps, the deletion of many keeps. -/
theorem renameUpTo_induction {P : Cfg → Prop} (happly : ∀ c r, findRenamable? c = some r → P c → P (apply c r))
    (h : P c) (n : Nat) : P (renameUpTo n c).1 := by
  induction n generalizing c with
  | zero => exact h
  | succ n ih =>
    unfold renameUpTo
    split
    · exact h
    · rename_i r hr
      exact ih (happly c r hr h)

/-- What both deletions keep, the pass keeps. -/
theorem minimize_induction {P : Cfg → Prop} (happly : ∀ c r, findRenamable? c = some r → P c → P (apply c r))
    (hremove : ∀ c, P c → P (removeNullChoices c).cfg) (h : P c) (rounds : Nat) : P (minimize rounds c).cfg := by
  induction rounds generalizing c with
  | zero => exact h
  | succ rounds ih =>
    have hround : P (removeNullChoices (rename c).cfg).cfg := hremove _ (renameUpTo_induction happly h c.size)
    unfold minimize
    dsimp only
    split
    · exact ih hround
    · exact hround

/-- Deleting redundant phis keeps the form and all that the graph does. -/
theorem improves_minimize (h : c.SsaForm params) (rounds : Nat) :
    c.Improves env params (minimize rounds c).cfg := by
  refine minimize_induction (P := c.Improves env params) ?_ ?_ (.refl h) rounds
  · exact fun c' r hr hc' => hc'.trans (improves_apply hc'.ssaForm hr)
  · exact fun c' hc' => hc'.trans (improves_removeNullChoices hc'.ssaForm)

/-! ## What is needed stays written -/

/-- Who needs the phi needs its source. -/
theorem supplied_rewriting (h : c.SsaForm params) {d : Block} {before after : List Instr} {x : Temp}
    {sources : PhiSources} {s : Operand} (hx : SingleSource c d before after x sources s) (hs : c.Supplied) :
    (c.mapBlocks (rewriting x s).block).Supplied := by
  obtain ⟨S, hS⟩ := hs
  have hkept : ∀ t, S t → t ≠ x → t.isVersioned = true →
      t ∈ (c.mapBlocks (rewriting x s).block).writtenLocals := by
    intro t ht hne hv
    obtain ⟨b, hb, i, hi, hd, hlocal⟩ := Cfg.mem_writtenLocals.1 (hS.written ht hv)
    exact Rewriting.mem_writtenLocals_block hb hi (by simp [rewriting, Instr.defines, hd, hne]) hd hlocal
  refine ⟨_, (inPlace_rewriting h hx).supports h.toStrict hS fun {b pre post o t} hb hr hsplit ho hot => ?_⟩
  by_cases hox : o = .temp x
  · subst hox
    rw [operand_self] at hot
    obtain ⟨hSx, hdef⟩ := ho x rfl
    obtain ⟨e, he, hre, i, hi, hix⟩ := (hdef hx.mem_writtenLocals).exists_reachable hb hr hsplit
    obtain rfl := Cfg.eq_of_writes h.single hx.isLocal he hx.mem hi hx.phi_mem hix rfl
    obtain ⟨p, hp, hrp, hedge, o, ho, hne⟩ := exists_source_of_reachable h hx.mem hx.phi_mem hx.isLocal hre
    obtain rfl := (hx.operand o (PhiSources.mem_operands ho)).resolve_left hne
    have ht : S t := hS.source hp hx.mem hrp hedge hx.phi_mem hSx (hot ▸ ho)
    exact ⟨ht, hkept t ht fun htx => hne (htx ▸ hot)⟩
  · rw [operand_of_ne hox] at hot
    have ht : S t := (ho t hot).1
    exact ⟨ht, hkept t ht fun htx => hox (htx ▸ hot)⟩

theorem supplied_apply (h : c.SsaForm params) (hs : c.Supplied) {r : Renamable} (hr : findRenamable? c = some r) :
    (apply c r).Supplied := by
  obtain ⟨d, before, after, sources, hlabel, hindex, hx⟩ := singleSource_of_findRenamable? h hr
  exact apply_eq h hlabel hindex hx ▸ supplied_rewriting h hx hs

/-- What is needed is written in reach, where no phi is deleted. -/
theorem supplied_removeNullChoices (h : c.SsaForm params) (hs : c.Supplied) :
    (removeNullChoices c).cfg.Supplied := by
  rw [removeNullChoices_cfg]
  obtain ⟨S, hS⟩ := hs
  refine ⟨_, (inPlace_unchosen c).supports h.toStrict hS fun {b pre post o t} hb hr hsplit ho hot => ?_⟩
  obtain ⟨ht, hdef⟩ := ho t hot
  refine ⟨ht, fun hv => ?_⟩
  have hw := hS.written ht hv
  obtain ⟨-, -, -, -, -, hlocal⟩ := Cfg.mem_writtenLocals.1 hw
  obtain ⟨d, hd, hrd, i, hi, hit⟩ := (hdef hw).exists_reachable hb hr hsplit
  refine Rewriting.mem_writtenLocals_block hd hi ?_ hit hlocal
  by_contra hdrop
  have hnull : isNullChoice i = true := by simpa [unchosen] using hdrop
  obtain ⟨dest, sources, rfl, -⟩ := isNullChoice_iff.1 hnull
  cases hit
  exact not_reachable_of_isNullChoice h hd hi hnull hlocal hrd

/-- What is needed of the versioned names stays written when redundant phis are deleted. -/
theorem supplied_minimize (h : c.SsaForm params) (hs : c.Supplied) (rounds : Nat) :
    (minimize rounds c).cfg.Supplied := by
  refine (minimize_induction (P := fun c => c.SsaForm params ∧ c.Supplied) ?_ ?_ ⟨h, hs⟩ rounds).2
  · rintro c r hr ⟨h, hs⟩
    have himproves : c.Improves .unknown params (apply c r) := improves_apply h hr
    exact ⟨himproves.ssaForm, supplied_apply h hs hr⟩
  · rintro c ⟨h, hs⟩
    have himproves : c.Improves .unknown params (removeNullChoices c).cfg := improves_removeNullChoices h
    exact ⟨himproves.ssaForm, supplied_removeNullChoices h hs⟩

/-! ## Graphs that linear code is written from -/

theorem closed_apply (h : c.Closed) (r : Renamable) : (apply c r).Closed := by
  -- The phi is deleted in one block, and then its name is exchanged in all of them.
  let erased : Block → Block := fun b =>
    if b.label = r.block then { b with body := b.body.eraseIdx r.index } else b
  have hlabel : ∀ b, (erased b).label = b.label := fun b => by dsimp only [erased]; split <;> rfl
  have hjumps : ∀ b, (erased b).jumps = b.jumps := fun b => by dsimp only [erased]; split <;> rfl
  have hbody : ∀ b, ∀ i' ∈ ((erased b).subst r.dest r.source).body, ∃ i ∈ b.body, i.subst r.dest r.source = i' := by
    intro b i' hi'
    obtain ⟨i, hi, rfl⟩ := List.mem_map.1 hi'
    refine ⟨i, ?_, rfl⟩
    dsimp only [erased] at hi
    split at hi
    · exact List.mem_of_mem_eraseIdx hi
    · exact hi
  have happly : apply c r = c.mapBlocks fun b => (erased b).subst r.dest r.source := by
    simp only [apply, Cfg.subst, Cfg.modify, Cfg.mapBlocks, List.map_map]
    rfl
  rw [happly]
  refine ⟨h.mapBlocks hlabel (fun b _ => ?_) (fun b hb l hl => ?_) fun b hb i' hi' => ?_, fun b' hb' => ?_,
    fun b' hb' i' hi' => ?_⟩
  · simp only [Block.targets, Block.subst, Block.mapInstrs, hjumps, List.filterMap_map]
    exact List.filterMap_congr fun j _ => Instr.target?_mapOperands _ j
  · obtain ⟨dest, sources', hi', hl⟩ := Cfg.mem_sourceLabels.1 hl
    obtain ⟨i, hi, heq⟩ := hbody b _ hi'
    cases i <;> cases heq
    rw [PhiSources.labels_mapOperands] at hl
    exact h.source b hb l (Cfg.mem_sourceLabels.2 ⟨dest, _, hi, hl⟩)
  · obtain ⟨i, hi, rfl⟩ := hbody b i' hi'
    exact (Instr.isTerminator_mapOperands _ i).trans (h.body b hb i hi)
  · obtain ⟨b, hb, rfl⟩ := Cfg.mem_mapBlocks.1 hb'
    refine (h.endsOnce b hb).map (f := (·.subst r.dest r.source)) ?_
    simp only [Block.subst, Block.mapInstrs, hjumps]
    rfl
  · obtain ⟨b, hb, rfl⟩ := Cfg.mem_mapBlocks.1 hb'
    obtain ⟨i, hi, rfl⟩ := hbody b i' hi'
    exact (Instr.label?_mapOperands _ i).trans (h.unlabelled b hb i hi)

theorem closed_minimize (h : c.Closed) (rounds : Nat) : (minimize rounds c).cfg.Closed := by
  refine minimize_induction (P := Cfg.Closed) (fun c r _ h => closed_apply h r) (fun c h => ?_) h rounds
  rw [removeNullChoices_cfg]
  exact Rewriting.closed_block h

theorem proc_minimize (rounds : Nat) (c : Cfg) : (minimize rounds c).cfg.proc = c.proc :=
  minimize_induction (P := fun c' => c'.proc = c.proc) (fun _ _ _ h => h) (fun _ h => h) rfl rounds

/-! ## Programs -/

/-- Where the entry has phis, nothing runs; elsewhere the graph is in the form that is kept. -/
theorem refines_minimize (h : c.StrictForm params) (hphi : c.PhiForm) (rounds : Nat) :
    c.Refines env params (minimize rounds c).cfg := by
  intro calls σ f ho hσ hrun
  have hentry : ∀ {b i}, b ∈ c.blocks → b.label = c.entry → i ∈ b.body → i.isPhi = false := by
    intro b i hb hl hi
    have hblock : c.block? c.entry = some b := hl ▸ h.block?_of_mem hb
    exact hrun.isPhi_of_none hblock (h.phisFirst b hb) i hi
  have hform : c.SsaForm params := ⟨h, hphi, hentry⟩
  exact (improves_minimize hform rounds).refines ho hσ hrun

/-- Deleting redundant phis of graphs in strict SSA form keeps the runs of every program around the procedure,
however many rounds there are. -/
theorem keptBy_minimize {p : Procedure} (h : c.StrictForm p.params) (hphi : c.PhiForm) (rounds : Nat)
    (before after : Program) : Program.KeptBy (before ++ .proc (p.withCode c) :: after)
      (before ++ .proc (p.withCode (minimize rounds c).cfg) :: after) :=
  (refines_minimize h hphi rounds).keptBy h.closed (closed_minimize h.closed rounds) before after

/-- A loop in SSA form, with a phi that yields itself or what comes from the entry. -/
def carried : Cfg where
  proc := "@main"
  entry := ⟨"entry"⟩
  blocks := [
    ⟨⟨"entry"⟩, [], [.jump ⟨"head"⟩]⟩,
    ⟨⟨"head"⟩,
      [.phi ⟨"%k.1"⟩ (.ofList [(⟨"entry"⟩, .temp ⟨"%k"⟩), (⟨"head"⟩, .temp ⟨"%k.1"⟩)]),
        .phi ⟨"%i.1"⟩ (.ofList [(⟨"entry"⟩, .temp ⟨"%n"⟩), (⟨"head"⟩, .temp ⟨"%i.2"⟩)]),
        .binary ⟨"%i.2"⟩ .sub (.temp ⟨"%i.1"⟩) (.temp ⟨"%k.1"⟩)],
      [.branch .jnle (.temp ⟨"%i.2"⟩) ⟨"head"⟩, .jump ⟨"exit"⟩]⟩,
    ⟨⟨"exit"⟩, [], [.ret (some (.temp ⟨"%k.1"⟩))]⟩]

/-- A procedure around `carried`. -/
def carriedProc : Procedure := ⟨"@main", [⟨"%n"⟩, ⟨"%k"⟩], []⟩

theorem keptBy_minimize_carried :
    carried.StrictForm carriedProc.params ∧ carried.PhiForm ∧ (minimize 1 carried).cfg ≠ carried ∧
      (∃ o, Program.run [.proc (carriedProc.withCode carried)] "@main" [3, 2] 100 = .ok o) ∧
      Program.KeptBy [.proc (carriedProc.withCode carried)]
        [.proc (carriedProc.withCode (minimize 1 carried).cfg)] := by
  have hvalid : Cfg.ofBlocks carried.proc carried.blocks = .ok carried := rfl
  have hstrict : carried.Strict carriedProc.params :=
    (Cfg.ofBlocks_eq_ok.1 hvalid).2.2.strict (by decide +kernel)
  have hform : carried.StrictForm carriedProc.params := ⟨hstrict, by decide, by decide, by decide⟩
  have hphi : carried.PhiForm := Cfg.phiForm_of_phiIsWhole (by decide)
  exact ⟨hform, hphi, by decide, ⟨_, rfl⟩, keptBy_minimize hform hphi 1 [] []⟩

/-- A block that holds the label of another one. Linear code goes there, past the phi, and the source is
written again. -/
def strayLabel : Cfg where
  proc := "@main"
  entry := ⟨"E"⟩
  blocks := [
    ⟨⟨"E"⟩, [], [.jump ⟨"Y"⟩]⟩,
    ⟨⟨"Y"⟩, [.copy ⟨"%y"⟩ (.temp ⟨"@n"⟩)], [.branch .jnz (.temp ⟨"%y"⟩) ⟨"X"⟩, .jump ⟨"D"⟩]⟩,
    ⟨⟨"X"⟩, [], [.ret (some (.imm 7))]⟩,
    ⟨⟨"D"⟩, [.phi ⟨"%x"⟩ (.ofList [(⟨"Y"⟩, .temp ⟨"%y"⟩)]), .label ⟨"X"⟩, .const ⟨"@n"⟩ 1],
      [.branch .jz (.temp ⟨"%y"⟩) ⟨"Y"⟩, .ret (some (.temp ⟨"%x"⟩))]⟩]

/-- A phi that writes a global. What it writes is lost, as globals are memory. -/
def globalPhi : Cfg where
  proc := "@main"
  entry := ⟨"E"⟩
  blocks := [
    ⟨⟨"E"⟩, [], [.jump ⟨"B"⟩]⟩,
    ⟨⟨"B"⟩, [.phi ⟨"@n"⟩ (.ofList [(⟨"E"⟩, .imm 1)])], [.ret (some (.temp ⟨"@n"⟩))]⟩]

/-- A procedure around either graph. -/
def plainProc : Procedure := ⟨"@main", [], []⟩

/-- A program around the procedure. -/
def aroundPlain (c : Cfg) : Program := [.var ⟨"@n", 0⟩, .proc (plainProc.withCode c)]

/-- Labels in bodies have to be left out, and so have phis of globals that read anything else: either result
changes from 0 to 1. -/
theorem not_keptBy_minimize_strayLabel :
    (Cfg.ofBlocks strayLabel.proc strayLabel.blocks = .ok strayLabel ∧
      strayLabel.Strict plainProc.params ∧ (∀ b ∈ strayLabel.blocks, b.EndsOnce) ∧
      (∀ b ∈ strayLabel.blocks, b.PhisFirst) ∧ strayLabel.PhiForm ∧
      ¬ Program.KeptBy (aroundPlain strayLabel) (aroundPlain (minimize 1 strayLabel).cfg)) ∧
    Cfg.ofBlocks globalPhi.proc globalPhi.blocks = .ok globalPhi ∧ globalPhi.StrictForm plainProc.params ∧
      ¬ Program.KeptBy (aroundPlain globalPhi) (aroundPlain (minimize 1 globalPhi).cfg) := by
  have differs : ∀ {c : Cfg}, (∃ o, (aroundPlain c).run "@main" [] 100 = .ok o ∧ o.result? = some 0) →
      (∃ o, (aroundPlain (minimize 1 c).cfg).run "@main" [] 100 = .ok o ∧ o.result? = some 1) →
      ¬ Program.KeptBy (aroundPlain c) (aroundPlain (minimize 1 c).cfg) := by
    rintro c ⟨o, ho, hr⟩ ⟨o', ho', hr'⟩ h
    have heq := h.result?_eq ho ho'
    rw [hr, hr'] at heq
    exact absurd heq (by decide)
  have hstray : Cfg.ofBlocks strayLabel.proc strayLabel.blocks = .ok strayLabel := rfl
  have hglobal : Cfg.ofBlocks globalPhi.proc globalPhi.blocks = .ok globalPhi := rfl
  refine ⟨⟨hstray, (Cfg.ofBlocks_eq_ok.1 hstray).2.2.strict (by decide +kernel), by decide, by decide,
    Cfg.phiForm_of_phiIsWhole (by decide), differs ⟨_, rfl, rfl⟩ ⟨_, rfl, rfl⟩⟩, hglobal, ?_,
    differs ⟨_, rfl, rfl⟩ ⟨_, rfl, rfl⟩⟩
  exact ⟨(Cfg.ofBlocks_eq_ok.1 hglobal).2.2.strict (by decide +kernel), by decide, by decide, by decide⟩

end ThreeAddress.PhiMinimization

import ThreeAddress.Proofs.InPlace
/-!
# Temporaries that are supplied

A set of temporaries supports a graph if it has all that blocks in reach read outside their phis, and with the
destination of a phi the sources for predecessors in reach, and if every versioned name in it is written
(`Cfg.Supports`). Versioned names that nothing writes may then only be read by phis whose destinations are not
needed. In SSA form all versioned names of the set are written before they are read (`Cfg.SsaForm.defines`). A
rewriting in place keeps the support if what it reads in the place of an operand has a place in the set where the
operand is defined (`Rewriting.InPlace.supports`).
-/

namespace ThreeAddress

namespace Cfg

variable {c : Cfg} {S : Temp → Prop}

/-- A set of temporaries that has what blocks in reach read, and whose versioned names are written. -/
structure Supports (c : Cfg) (S : Temp → Prop) : Prop where
  read {b : Block} {i : Instr} {t : Temp} : b ∈ c.blocks → c.Reachable b.label → i ∈ b.body →
    i.isPhi = false → t ∈ i.usedTemps → S t
  jump {b : Block} {j : Instr} {t : Temp} : b ∈ c.blocks → c.Reachable b.label → j ∈ b.jumps →
    t ∈ j.usedTemps → S t
  /-- What a phi of the set reads at the end of a predecessor is in the set. -/
  source {p b : Block} {dest t : Temp} {sources : PhiSources} : p ∈ c.blocks → b ∈ c.blocks →
    c.Reachable p.label → c.Edge p.label b.label → .phi dest sources ∈ b.body → S dest →
    sources.find? p.label = some (.temp t) → S t
  written {t : Temp} : S t → t.isVersioned = true → t ∈ c.writtenLocals

/-- Whatever is needed of the versioned names is written. -/
def Supplied (c : Cfg) : Prop := ∃ S, c.Supports S

/-- A set of temporaries has all that blocks in reach read outside their phis, and with the destination of a phi its
sources; of these, versioned names are written on every path to the place that reads them. -/
structure Defines (c : Cfg) (S : Temp → Prop) : Prop extends c.Valid where
  entryPhi {b : Block} {i : Instr} : b ∈ c.blocks → b.label = c.entry → i ∈ b.body → i.isPhi = false
  phiSource {b : Block} {dest : Temp} {sources : PhiSources} {l : Label} : b ∈ c.blocks →
    .phi dest sources ∈ b.body → c.Edge l b.label → l ∈ sources.labels
  read {b : Block} {pre post : List Instr} {i : Instr} {t : Temp} : b ∈ c.blocks → c.Reachable b.label →
    b.body = pre ++ i :: post → i.isPhi = false → t ∈ i.usedTemps →
    S t ∧ (t.isVersioned = true → c.DefinedAt b.label pre t)
  /-- A phi reads the source for a predecessor at the end of that block. -/
  phiRead {p b : Block} {dest t : Temp} {sources : PhiSources} : p ∈ c.blocks → b ∈ c.blocks →
    c.Reachable p.label → c.Edge p.label b.label → .phi dest sources ∈ b.body → S dest →
    sources.find? p.label = some (.temp t) → S t ∧ (t.isVersioned = true → c.DefinedAt p.label p.body t)

theorem SsaForm.defines {params : List Temp} (h : c.SsaForm params) (hS : c.Supports S) : c.Defines S where
  toValid := h.toValid
  entryPhi := h.entryPhi
  phiSource := h.phiSource
  read hb hr hsplit hphi ht :=
    have hS' := hS.read hb hr (by simp [hsplit]) hphi ht
    ⟨hS', fun hversion => h.read hb hsplit hphi ht (hS.written hS' hversion)⟩
  phiRead hp hb hr hedge hi hdest ho :=
    have hS' := hS.source hp hb hr hedge hi hdest ho
    ⟨hS', fun hversion => h.phiRead hp hb hedge hi ho (hS.written hS' hversion)⟩

/-- What is defined at a point in reach is written in reach. -/
theorem DefinedAt.exists_reachable {b : Block} {pre post : List Instr} {t : Temp} (h : c.DefinedAt b.label pre t)
    (hb : b ∈ c.blocks) (hr : c.Reachable b.label) (hsplit : b.body = pre ++ post) :
    ∃ d ∈ c.blocks, c.Reachable d.label ∧ ∃ i ∈ d.body, i.dest? = some t := by
  rcases h with ⟨i, hi, hd⟩ | hpaths
  · exact ⟨b, hb, hr, i, by simp [hsplit, hi], hd⟩
  · obtain ⟨ls, hls⟩ := hr
    obtain ⟨k, hk, d, hd, rfl, hwrites⟩ := hpaths ls hls
    obtain ⟨later, earlier, rfl, hpath⟩ := hls.split hk
    exact ⟨d, hd, ⟨earlier, hpath⟩, hwrites⟩

end Cfg

namespace Rewriting

variable {r : Rewriting} {c : Cfg} {params : List Temp} {S : Temp → Prop}

theorem mem_writtenLocals_block {b : Block} {i : Instr} {t : Temp} (hb : b ∈ c.blocks) (hi : i ∈ b.body)
    (hk : r.keeps i = true) (hd : i.dest? = some t) (ht : t.isGlobal = false) :
    t ∈ (c.mapBlocks r.block).writtenLocals :=
  Cfg.mem_writtenLocals.2 ⟨r.block b, Cfg.mem_mapBlocks.2 ⟨b, hb, rfl⟩, r.instr b.label i,
    mem_body.2 ⟨i, hi, hk, rfl⟩, (r.dest?_instr b.label i).trans hd, ht⟩

/-- A rewriting in place reads at the points at which the old graph reads. It is enough to look at these. -/
theorem InPlace.supports (hr : r.InPlace c) (h : c.Strict params) (hS : c.Supports S)
    (hoperand : ∀ {b : Block} {pre post : List Instr} {o : Operand} {t : Temp}, b ∈ c.blocks →
      c.Reachable b.label → b.body = pre ++ post →
      (∀ u, o = .temp u → S u ∧ (u ∈ c.writtenLocals → c.DefinedAt b.label pre u)) → r.operand o = .temp t →
      S t ∧ (t.isVersioned = true → t ∈ (c.mapBlocks r.block).writtenLocals)) :
    (c.mapBlocks r.block).Supports
      fun t => S t ∧ (t.isVersioned = true → t ∈ (c.mapBlocks r.block).writtenLocals) := by
  have hreach : ∀ {l}, (c.mapBlocks r.block).Reachable l → c.Reachable l :=
    (Cfg.reachable_mapBlocks r.label_block fun b _ => r.targets_block b).1
  refine ⟨?_, ?_, ?_, And.right⟩
  · intro b' i' t hb' hreachable hi' hphi hread
    obtain ⟨b, hb, rfl⟩ := Cfg.mem_mapBlocks.1 hb'
    obtain ⟨i, hi, -, rfl⟩ := mem_body.1 hi'
    rw [isPhi_instr] at hphi
    rw [r.instr_of_not_phi _ hphi] at hread
    obtain ⟨o, ho, hot⟩ := Instr.mem_usedTemps_mapOperands.1 hread
    obtain ⟨pre, post, hsplit⟩ := List.append_of_mem hi
    refine hoperand hb (hreach hreachable) hsplit (fun u hu => ?_) hot
    have hu : u ∈ i.usedTemps := Instr.mem_usedTemps.2 (hu ▸ ho)
    exact ⟨hS.read hb (hreach hreachable) hi hphi hu, h.read hb hsplit hphi hu⟩
  · intro b' j' t hb' hreachable hj' hread
    obtain ⟨b, hb, rfl⟩ := Cfg.mem_mapBlocks.1 hb'
    obtain ⟨j, hj, rfl⟩ := List.mem_map.1 hj'
    obtain ⟨o, ho, hot⟩ := Instr.mem_usedTemps_mapOperands.1 hread
    refine hoperand hb (hreach hreachable) (List.append_nil _).symm (fun u hu => ?_) hot
    have hu : u ∈ j.usedTemps := Instr.mem_usedTemps.2 (hu ▸ ho)
    exact ⟨hS.jump hb (hreach hreachable) hj hu, h.jump hb hj hu⟩
  · -- A phi reads at the end of the block that the edge comes from.
    rintro p' b' dest t sources' hp' hb' hreachable hedge hi' ⟨hdest, -⟩ hfind
    obtain ⟨p, hp, rfl⟩ := Cfg.mem_mapBlocks.1 hp'
    obtain ⟨b, hb, rfl⟩ := Cfg.mem_mapBlocks.1 hb'
    have hedge : c.Edge p.label b.label := (Cfg.edge_mapBlocks r.label_block fun b _ => r.targets_block b).1 hedge
    obtain ⟨sources, hi, -, rfl⟩ := phi_of_mem_body hi'
    rw [PhiSources.find?_mapOperands, PhiSources.find?_filter, if_pos (hr.source _ _)] at hfind
    obtain ⟨o, ho, hot⟩ := Option.map_eq_some_iff.1 hfind
    refine hoperand hp (hreach hreachable) (List.append_nil _).symm (fun u hu => ?_) hot
    subst hu
    exact ⟨hS.source hp hb (hreach hreachable) hedge hi hdest ho, h.phiRead hp hb hedge hi ho⟩

end Rewriting

end ThreeAddress

import ThreeAddress.Proofs.Ssa.Form
import ThreeAddress.Proofs.Supplied
/-!
# What SSA construction supplies

Where versioned names are written on all paths to the places that read them (`Cfg.Assigned`), the graph after SSA
construction needs no version that nothing writes (`Renaming.supplied_cfg`), although every block that has
predecessors begins with a phi for every local: what is needed is what names stand for at points in reach where
they are written if they are versioned (`Renaming.Needs`). A phi that is needed merges a name that is written on
all paths to its block, so that what it reads is needed at the ends of the predecessors.
-/

namespace ThreeAddress

namespace Cfg

/-- Versioned names are written on all paths to the places that read them. -/
structure Assigned (c : Cfg) : Prop where
  read {b : Block} {pre post : List Instr} {i : Instr} {t : Temp} : b ∈ c.blocks → b.body = pre ++ i :: post →
    i.isPhi = false → t ∈ i.usedTemps → t.isVersioned = true → c.DefinedAt b.label pre t
  /-- So it is with the reads of jumps. -/
  jump {b : Block} {j : Instr} {t : Temp} : b ∈ c.blocks → j ∈ b.jumps → t ∈ j.usedTemps →
    t.isVersioned = true → c.DefinedAt b.label b.body t

/-- What is written on all paths to a point in reach is written by an instruction before it, or by one of the
graph while an edge leads to the block. -/
theorem DefinedAt.exists_dest {c : Cfg} {l : Label} {pre : List Instr} {t : Temp} (h : c.DefinedAt l pre t)
    (hr : c.Reachable l) : (∃ i ∈ pre, i.dest? = some t) ∨
      (∃ k, c.Edge k l) ∧ ∃ b ∈ c.blocks, ∃ i ∈ b.body, i.dest? = some t := by
  refine h.imp id fun hpaths => ?_
  obtain ⟨ls, hls⟩ := hr
  obtain ⟨k, hk, b, hb, -, hwrites⟩ := hpaths ls hls
  refine ⟨?_, b, hb, hwrites⟩
  cases hls with
  | entry => cases hk
  | step _ hedge => exact ⟨_, hedge⟩

end Cfg

namespace Ssa.Renaming

variable {params : List Temp} {c : Cfg} (r : Renaming params c)

/-- Behind `pre` in the block, names stand for their versions under `vs`. -/
def Behind (b : Block) (pre : List Instr) (vs : Versions) : Prop :=
  ∃ done rest, r.body b = done ++ rest ∧ Renames ∅ (headPhis params c b ++ pre) done vs

/-- What an old name stands for at a point in reach at which it is written on all paths if it is versioned. -/
def Needs (t : Temp) : Prop :=
  ∃ b ∈ c.blocks, c.Reachable b.label ∧ ∃ pre post vs u, b.body = pre ++ post ∧ r.Behind b pre vs ∧
    u ∈ taken params c ∧ (u.isVersioned = true → c.DefinedAt b.label pre u) ∧ rename vs (.temp u) = .temp t

variable {r} {b : Block} {pre : List Instr} {vs : Versions} {t u x : Temp}

theorem behind_end (hb : b ∈ c.blocks) : r.Behind b b.body (r.ends b) :=
  ⟨_, [], (List.append_nil _).symm, r.renames b hb⟩

/-- What an operand stands for is needed, if the name in it is written on all paths to the point. -/
theorem needs_of_rename (hb : b ∈ c.blocks) (hr : c.Reachable b.label) {post : List Instr}
    (hsplit : b.body = pre ++ post) (hbehind : r.Behind b pre vs) {o : Operand} (hot : rename vs o = .temp t)
    (ho : ∀ u, o = .temp u → u ∈ taken params c ∧ (u.isVersioned = true → c.DefinedAt b.label pre u)) :
    r.Needs t := by
  cases o with
  | imm k => cases hot
  | temp u => exact ⟨b, hb, hr, pre, post, vs, u, hsplit, hbehind, (ho u rfl).1, (ho u rfl).2, hot⟩

/-- What a version stands behind is written in the block. -/
theorem Behind.mem_writtenLocals (h : r.Behind b pre vs) (hb : b ∈ c.blocks) (hx : vs.get? u = some x) :
    x ∈ r.cfg.writtenLocals := by
  obtain ⟨done, rest, hbody, hdone⟩ := h
  obtain ⟨i, hi, hd⟩ := hdone.writes_of_get? hx
  have hi : i ∈ r.body b := by simp [hbody, hi]
  exact Cfg.mem_writtenLocals.2 ⟨r.block b, r.mem_cfg.2 ⟨b, hb, rfl⟩, resolveSources r.exits i,
    List.mem_map_of_mem hi, by simpa using hd, (hdone.isLocal_of_get? hx).2⟩

/-- A local that is written on all paths to a point in reach has a version there. -/
theorem Behind.isSome_get? (h : r.Behind b pre vs) (hr : c.Reachable b.label) (hu : u.isGlobal = false)
    (hdef : c.DefinedAt b.label pre u) : (vs.get? u).isSome = true := by
  obtain ⟨done, rest, -, hdone⟩ := h
  refine hdone.isSome_get? (.inr ?_)
  rcases hdef.exists_dest hr with ⟨i, hi, hd⟩ | ⟨⟨k, hedge⟩, d, hd, i, hi, hiu⟩
  · exact ⟨i, List.mem_append_right _ hi, Instr.localDest?_eq_some.2 ⟨hd, hu⟩⟩
  · have hlocal : u ∈ locals params c :=
      mem_locals.2 (.inr ⟨i, mem_instrs.2 ⟨d, hd, .inl hi⟩, Instr.localDest?_eq_some.2 ⟨hiu, hu⟩⟩)
    have hpreds : c.predecessors b.label ≠ [] := List.ne_nil_of_mem (Cfg.mem_predecessors.2 hedge)
    exact ⟨phiFor (c.predecessors b.label) u, List.mem_append_left _ (mem_headPhis.2 ⟨hpreds, u, hlocal, rfl⟩),
      Instr.localDest?_eq_some.2 ⟨rfl, hu⟩⟩

/-- What is needed of the versioned names is written. -/
theorem mem_writtenLocals_of_needs (h : r.Needs t) (ht : t.isVersioned = true) : t ∈ r.cfg.writtenLocals := by
  obtain ⟨b, hb, hr, pre, post, vs, u, -, hbehind, -, hdef, hut⟩ := h
  cases hv : vs.get? u with
  | none =>
    obtain rfl : u = t := by simpa [rename_temp, hv] using hut
    have hsome := hbehind.isSome_get? hr (Temp.isGlobal_of_isVersioned ht) (hdef ht)
    simp [hv] at hsome
  | some x =>
    obtain rfl : x = t := by simpa [rename_temp, hv] using hut
    exact hbehind.mem_writtenLocals hb hv

/-- A suffix that does not hold some value stands behind every occurrence of it. -/
theorem suffix_of_notMem {α : Type} {xs ys front after : List α} {a : α} (h : front ++ xs = ys ++ a :: after)
    (ha : a ∉ xs) : xs <:+ after := by
  rcases List.suffix_or_suffix_of_suffix ⟨front, h⟩ (List.suffix_append ys (a :: after)) with hsuffix | hsuffix
  · rcases List.suffix_cons_iff.1 hsuffix with rfl | hsuffix
    · exact absurd List.mem_cons_self ha
    · exact hsuffix
  · exact absurd (hsuffix.subset List.mem_cons_self) ha

/-- A version that is the destination of a phi is that of the local that the phi was put in for, and no
instruction of the old body has written the local since. -/
theorem Behind.phi_of_get? (h : r.Behind b pre vs) (hc : c.Closed) (hphi : c.PhiFree) (hb : b ∈ c.blocks)
    {post : List Instr} (hsplit : b.body = pre ++ post) (hx : vs.get? u = some x) {d : Block} (hd : d ∈ c.blocks)
    {sources : PhiSources} (hi : .phi x sources ∈ (r.block d).body) : b = d ∧ (∀ j ∈ pre, j.localDest? ≠ some u) ∧
      ∀ l ∈ c.predecessors b.label, sources.find? l = some (resolve r.exits l (.temp u)) := by
  obtain ⟨done, rest, hbody, hdone⟩ := h
  rcases hdone.get? hx with ⟨hnone, -⟩ | ⟨before, i, after, before', i', after', hold, rfl, hiu, hix, hxlocal,
    hlater, vs₁, vs₂, hstep⟩
  · simp at hnone
  -- the version is written in one place, which is the phi
  obtain ⟨front, back, hsite⟩ := List.append_of_mem hi
  have hsite' : (r.block b).body = before'.map (resolveSources r.exits) ++
      resolveSources r.exits i' :: (after' ++ rest).map (resolveSources r.exits) := by
    simp [block, hbody]
  obtain ⟨hblock, -, hi'⟩ := Cfg.eq_of_site (r.strict_cfg hc hphi).single hxlocal (r.mem_cfg.2 ⟨b, hb, rfl⟩)
    (r.mem_cfg.2 ⟨d, hd, rfl⟩) hsite' hsite (by simpa using hix) rfl
  have hlabel : (r.block b).label = (r.block d).label := congrArg Block.label hblock
  refine ⟨hc.eq_of_label hb hd hlabel, ?_⟩
  cases i' with
  | phi y s =>
    cases hi'
    obtain ⟨v, rfl, -, -⟩ := hstep.phi
    obtain rfl : v = u := Option.some.inj (Instr.localDest?_eq_some.1 hiu).1
    have hnot : Instr.phi v s ∉ pre := fun hmem => by
      cases hphi b hb _ (hsplit ▸ List.mem_append_left _ hmem)
    have hhead : Instr.phi v s ∈ headPhis params c b :=
      (List.mem_append.1 (hold ▸ List.mem_append_right _ List.mem_cons_self)).resolve_right hnot
    obtain ⟨-, w, -, hw⟩ := mem_headPhis.1 hhead
    cases hw
    refine ⟨fun j hj => hlater j ((suffix_of_notMem hold hnot).subset hj), fun l hl => ?_⟩
    rw [PhiSources.find?_mapOperands, find?_ofList, if_pos hl]
    rfl
  | _ => cases hi'

/-- What a phi that is needed reads at the end of a predecessor is needed. -/
theorem needs_source (hc : c.Closed) (hphi : c.PhiFree) {p d : Block} (hp : p ∈ c.blocks) (hd : d ∈ c.blocks)
    (hr : c.Reachable p.label) (hedge : c.Edge p.label d.label) {dest : Temp} {sources : PhiSources}
    (hi : .phi dest sources ∈ (r.block d).body) (hdest : r.Needs dest)
    (hfind : sources.find? p.label = some (.temp t)) : r.Needs t := by
  obtain ⟨b, hb, -, pre, post, vs, u, hsplit, hbehind, htaken, hdef, hut⟩ := id hdest
  cases hv : vs.get? u with
  | none =>
    -- a name that is taken is the destination of a phi of a global, which reads the same global
    obtain rfl : u = dest := by simpa [rename_temp, hv] using hut
    have hg : u.isGlobal = true := by
      by_contra hlocal
      refine r.notMem_taken (Cfg.mem_writtenLocals.2 ⟨_, r.mem_cfg.2 ⟨d, hd, rfl⟩, _, hi, rfl, ?_⟩) htaken
      simpa using hlocal
    have hsource := (r.ssaForm_cfg hc hphi).globalPhi (r.mem_cfg.2 ⟨d, hd, rfl⟩) hi hg _
      (PhiSources.mem_operands hfind)
    exact Operand.temp.inj hsource ▸ hdest
  | some x =>
    obtain rfl : x = dest := by simpa [rename_temp, hv] using hut
    obtain ⟨rfl, hpre, hsources⟩ := hbehind.phi_of_get? hc hphi hb hsplit hv hd hi
    rw [hsources _ (Cfg.mem_predecessors.2 hedge), r.resolve_of_mem hp] at hfind
    refine needs_of_rename hp hr (List.append_nil _).symm (behind_end hp) (Option.some.inj hfind) fun w hw => ?_
    cases hw
    refine ⟨htaken, fun hversion => ?_⟩
    have hlocal := Temp.isGlobal_of_isVersioned hversion
    rcases (hdef hversion).head_or with ⟨j, hj, hju⟩ | hhead
    · exact absurd (Instr.localDest?_eq_some.2 ⟨hju, hlocal⟩) (hpre j hj)
    · exact hhead.of_edge hc.toValid hp hedge

/-- Where versioned names are written before they are read, all that is needed after SSA construction is written. -/
theorem supplied_cfg (hc : c.Closed) (hphi : c.PhiFree) (ha : c.Assigned) : r.cfg.Supplied := by
  have hreach : ∀ {l}, r.cfg.Reachable l → c.Reachable l :=
    (Cfg.reachable_mapBlocks r.label_block fun b _ => r.targets_block b).1
  refine ⟨r.Needs, ?_, ?_, ?_, mem_writtenLocals_of_needs⟩
  · intro b' i' t hb' hr hi' hphi' hread
    obtain ⟨b, hb, rfl⟩ := r.mem_cfg.1 hb'
    obtain ⟨pre', post', hsplit'⟩ := List.append_of_mem hi'
    obtain ⟨done, rest, pre, i, post, vs, vs', hbody, -, hsplit, hdone, hstep⟩ := r.exists_of_split hb hsplit' hphi'
    have hi : i ∈ b.body := by simp [hsplit]
    have hphi₀ : i.isPhi = false := hphi b hb i hi
    rw [Instr.mem_usedTemps, hstep.uses_eq hphi₀] at hread
    obtain ⟨o, ho, hot⟩ := List.mem_map.1 hread
    refine needs_of_rename hb (hreach hr) hsplit ⟨done, rest, hbody, hdone⟩ hot fun u hu => ?_
    have hu : u ∈ i.usedTemps := Instr.mem_usedTemps.2 (hu ▸ ho)
    exact ⟨mem_taken_of_used (mem_instrs.2 ⟨b, hb, .inl hi⟩) hu, ha.read hb hsplit hphi₀ hu⟩
  · intro b' j' t hb' hr hj' hread
    obtain ⟨b, hb, rfl⟩ := r.mem_cfg.1 hb'
    rw [r.jumps_block hc hb] at hj'
    obtain ⟨j, hj, rfl⟩ := List.mem_map.1 hj'
    obtain ⟨o, ho, hot⟩ := Instr.mem_usedTemps_mapOperands.1 hread
    refine needs_of_rename hb (hreach hr) (List.append_nil _).symm (behind_end hb) hot fun u hu => ?_
    have hu : u ∈ j.usedTemps := Instr.mem_usedTemps.2 (hu ▸ ho)
    exact ⟨mem_taken_of_used (mem_instrs.2 ⟨b, hb, .inr hj⟩) hu, ha.jump hb hj hu⟩
  · intro p' d' dest t sources hp' hd' hr hedge hi hdest hfind
    obtain ⟨p, hp, rfl⟩ := r.mem_cfg.1 hp'
    obtain ⟨d, hd, rfl⟩ := r.mem_cfg.1 hd'
    exact needs_source hc hphi hp hd (hreach hr) (r.edge_cfg.1 hedge) hi hdest hfind

end Ssa.Renaming

end ThreeAddress

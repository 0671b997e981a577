import ThreeAddress.Proofs.Improvement
import ThreeAddress.Proofs.InPlace
/-!
# Graphs that reuse expressions

A pass that reuses expressions puts copies of temporaries that are written already in the place of
computations (`Cfg.Reused`). The copies write what the computations wrote, so the new graph is in
SSA form as well (`Cfg.Reuses.ssaForm`).
-/

namespace ThreeAddress

namespace Cfg

/-! ## Bodies -/

/-- An instruction stays, or a computation behind `pre` becomes a copy of what is written on every way to
that place. -/
inductive Replaced (c : Cfg) (l : Label) (pre : List Instr) : Instr → Instr → Prop
  | same (i : Instr) : Replaced c l pre i i
  | copy {i : Instr} {e : Expr} {x t : Temp} : Expr.of? i = some e → i.dest? = some x →
      c.DefinedAt l pre t → Replaced c l pre i (.copy x (.temp t))

/-- What stands behind `pre`, with copies in the place of some computations. -/
inductive Reused (c : Cfg) (l : Label) : List Instr → List Instr → List Instr → Prop
  | nil (pre : List Instr) : Reused c l pre [] []
  | cons {pre is is' : List Instr} {i i' : Instr} : c.Replaced l pre i i' →
      Reused c l (pre ++ [i]) is is' → Reused c l pre (i :: is) (i' :: is')

variable {c : Cfg} {l : Label} {pre is is' : List Instr} {i i' : Instr}

namespace Replaced

theorem dest?_eq (h : c.Replaced l pre i i') : i'.dest? = i.dest? := by
  cases h with
  | same => rfl
  | copy _ hx => exact hx.symm

theorem isPhi_eq (h : c.Replaced l pre i i') : i'.isPhi = i.isPhi := by
  cases h with
  | same => rfl
  | copy he => exact (Expr.plain_of_of? he).1.symm

theorem isTerminator_eq (h : c.Replaced l pre i i') : i'.isTerminator = i.isTerminator := by
  cases h with
  | same => rfl
  | copy he => exact (Expr.plain_of_of? he).2.1.symm

theorem label?_eq (h : c.Replaced l pre i i') : i'.label? = i.label? := by
  cases h with
  | same => rfl
  | copy he => exact (Expr.plain_of_of? he).2.2.symm

theorem eq_of_isPhi (h : c.Replaced l pre i i') (hi : i'.isPhi = true) : i = i' := by
  cases h with
  | same => rfl
  | copy => cases hi

/-- What computes an expression was there before. -/
theorem eq_of_of? (h : c.Replaced l pre i i') {e : Expr} (he : Expr.of? i' = some e) : i = i' := by
  cases h with
  | same => rfl
  | copy => cases he

end Replaced

namespace Reused

theorem refl (pre is : List Instr) : c.Reused l pre is is := by
  induction is generalizing pre with
  | nil => exact .nil pre
  | cons i is ih => exact .cons (.same i) (ih _)

/-- The two parts of a new body come from two parts of the old one. -/
theorem exists_of_append (h : c.Reused l pre is is') {before' after' : List Instr} (hsplit : is' = before' ++ after') :
    ∃ before after, is = before ++ after ∧ c.Reused l pre before before' ∧ c.Reused l (pre ++ before) after after' := by
  induction before' generalizing pre is is' with
  | nil =>
    subst hsplit
    exact ⟨[], is, rfl, .nil pre, by simpa using h⟩
  | cons i' before' ih =>
    subst hsplit
    cases h with
    | @cons _ is _ i _ hij htail =>
      obtain ⟨before, after, rfl, hbefore, hafter⟩ := ih htail rfl
      exact ⟨i :: before, after, rfl, .cons hij hbefore, by simpa using hafter⟩

/-- A place of the new body comes from the same place of the old one. -/
theorem exists_of_split (h : c.Reused l pre is is') {before' after' : List Instr}
    (hsplit : is' = before' ++ i' :: after') : ∃ before i after, is = before ++ i :: after ∧
      c.Reused l pre before before' ∧ c.Replaced l (pre ++ before) i i' := by
  obtain ⟨before, rest, rfl, hbefore, hrest⟩ := h.exists_of_append hsplit
  cases hrest with
  | cons hii _ => exact ⟨before, _, _, rfl, hbefore, hii⟩

theorem exists_of_mem (h : c.Reused l pre is is') (hi : i' ∈ is') :
    ∃ before, ∃ i ∈ is, c.Replaced l before i i' := by
  obtain ⟨before', after', hsplit⟩ := List.append_of_mem hi
  obtain ⟨before, i, after, rfl, -, hi⟩ := h.exists_of_split hsplit
  exact ⟨_, i, by simp, hi⟩

theorem map_dest? (h : c.Reused l pre is is') : is'.map Instr.dest? = is.map Instr.dest? := by
  induction h with
  | nil => rfl
  | cons hij _ ih => simp [hij.dest?_eq, ih]

theorem isPhi_iff (h : c.Reused l pre is is') {p : Bool} :
    (∀ i ∈ is', i.isPhi = p) ↔ ∀ i ∈ is, i.isPhi = p := by
  induction h with
  | nil => simp
  | cons hij _ ih => simp [hij.isPhi_eq, ih]

theorem mem_phi_iff (h : c.Reused l pre is is') {dest : Temp} {sources : PhiSources} :
    .phi dest sources ∈ is' ↔ .phi dest sources ∈ is := by
  induction h with
  | nil => simp
  | @cons pre is is' i j hij _ ih =>
    have hhead : .phi dest sources = j ↔ .phi dest sources = i := by
      cases hij with
      | same => rfl
      | copy he =>
        refine ⟨nofun, ?_⟩
        rintro rfl
        cases (Expr.plain_of_of? he).1
    simp [hhead, ih]

/-- The phis in front of a body stay, and what is behind them is reused. -/
theorem of_append {phis rest : List Instr} (h : c.Reused l pre (phis ++ rest) is')
    (hphis : ∀ i ∈ phis, i.isPhi = true) :
    ∃ rest', is' = phis ++ rest' ∧ c.Reused l (pre ++ phis) rest rest' := by
  induction phis generalizing pre is' with
  | nil => exact ⟨is', rfl, by simpa using h⟩
  | cons i phis ih =>
    cases h with
    | cons hij htail =>
      obtain ⟨rest', rfl, hrest⟩ := ih htail fun j hj => hphis j (.tail _ hj)
      obtain rfl := hij.eq_of_isPhi (hij.isPhi_eq.trans (hphis i List.mem_cons_self))
      exact ⟨rest', rfl, by simpa using hrest⟩

end Reused

/-! ## Graphs -/

/-- The graph with other bodies. -/
def withBodies (c : Cfg) (f : Block → List Instr) : Cfg :=
  c.mapBlocks fun b => { b with body := f b }

/-- Bodies that reuse what reaches their places. -/
def Reuses (c : Cfg) (f : Block → List Instr) : Prop :=
  ∀ b ∈ c.blocks, c.Reused b.label [] b.body (f b)

variable {f : Block → List Instr} {params : List Temp}

theorem withBodies_body (c : Cfg) : c.withBodies Block.body = c := by
  rw [withBodies, mapBlocks, List.map_id'' fun _ => rfl]

theorem withBodies_withBodies (c : Cfg) (f g : Block → List Instr) :
    (c.withBodies f).withBodies g = c.withBodies fun b => g ⟨b.label, f b, b.jumps⟩ := by
  simp [withBodies, mapBlocks]

theorem mem_withBodies {b' : Block} :
    b' ∈ (c.withBodies f).blocks ↔ ∃ b ∈ c.blocks, ⟨b.label, f b, b.jumps⟩ = b' := mem_mapBlocks

theorem block?_withBodies {l : Label} {b : Block} (hb : c.block? l = some b) :
    (c.withBodies f).block? l = some ⟨b.label, f b, b.jumps⟩ := by
  rw [withBodies, block?_mapBlocks (f := fun b => ⟨b.label, f b, b.jumps⟩) fun _ => rfl, hb]
  rfl

theorem exists_of_block?_withBodies {l : Label} {b' : Block} (h : (c.withBodies f).block? l = some b') :
    ∃ b, c.block? l = some b ∧ ⟨b.label, f b, b.jumps⟩ = b' := by
  rw [withBodies, block?_mapBlocks (f := fun b => ⟨b.label, f b, b.jumps⟩) fun _ => rfl] at h
  exact Option.map_eq_some_iff.1 h

theorem edge_withBodies {k l : Label} : (c.withBodies f).Edge k l ↔ c.Edge k l :=
  edge_mapBlocks (f := fun b => ⟨b.label, f b, b.jumps⟩) (fun _ => rfl) fun _ _ => rfl

theorem path_withBodies {ls : List Label} {l : Label} : (c.withBodies f).Path ls l ↔ c.Path ls l :=
  path_mapBlocks (f := fun b => ⟨b.label, f b, b.jumps⟩) (fun _ => rfl) fun _ _ => rfl

theorem exists_dest?_iff {is : List Instr} {t : Temp} :
    (∃ i ∈ is, i.dest? = some t) ↔ some t ∈ is.map Instr.dest? := by
  simp

namespace Reuses

theorem writes_iff (hf : c.Reuses f) {l : Label} {t : Temp} :
    (c.withBodies f).Writes l t ↔ c.Writes l t := by
  simp only [Writes, exists_dest?_iff, mem_withBodies]
  constructor
  · rintro ⟨_, ⟨b, hb, rfl⟩, hl, ht⟩
    exact ⟨b, hb, hl, (hf b hb).map_dest? ▸ ht⟩
  · rintro ⟨b, hb, hl, ht⟩
    exact ⟨_, ⟨b, hb, rfl⟩, hl, (hf b hb).map_dest?.symm ▸ ht⟩

theorem definedAt_iff (hf : c.Reuses f) {l : Label} {pre pre' : List Instr} {t : Temp}
    (hpre : pre'.map Instr.dest? = pre.map Instr.dest?) :
    (c.withBodies f).DefinedAt l pre' t ↔ c.DefinedAt l pre t := by
  simp only [DefinedAt, exists_dest?_iff, hpre, path_withBodies, hf.writes_iff]

theorem writtenLocals_eq (hf : c.Reuses f) : (c.withBodies f).writtenLocals = c.writtenLocals := by
  have hbody : ∀ is : List Instr, is.filterMap Instr.localDest? =
      (is.map Instr.dest?).filterMap fun d => d.filter (!·.isGlobal) := fun is => by
    rw [List.filterMap_map]
    rfl
  rw [writtenLocals_eq_flatMap, writtenLocals_eq_flatMap, withBodies, mapBlocks, List.flatMap_map]
  refine List.flatMap_congr fun b hb => ?_
  rw [hbody, hbody, (hf b hb).map_dest?]

theorem exists_phi (hf : c.Reuses f) {b' : Block} {dest : Temp} {sources : PhiSources}
    (hb' : b' ∈ (c.withBodies f).blocks) (hi : .phi dest sources ∈ b'.body) :
    ∃ b ∈ c.blocks, b.label = b'.label ∧ .phi dest sources ∈ b.body := by
  obtain ⟨b, hb, rfl⟩ := mem_withBodies.1 hb'
  exact ⟨b, hb, rfl, (hf b hb).mem_phi_iff.1 hi⟩

/-- Where instructions come from in the old graph, with what they have in common. -/
theorem exists_of_mem (hf : c.Reuses f) {b' : Block} (hb' : b' ∈ (c.withBodies f).blocks) {i' : Instr}
    (hi' : i' ∈ b'.body) : ∃ b ∈ c.blocks, b.label = b'.label ∧ ∃ pre, ∃ i ∈ b.body, c.Replaced b.label pre i i' := by
  obtain ⟨b, hb, rfl⟩ := mem_withBodies.1 hb'
  exact ⟨b, hb, rfl, (hf b hb).exists_of_mem hi'⟩

theorem valid (hf : c.Reuses f) (h : c.Valid) : (c.withBodies f).Valid := by
  refine h.mapBlocks (f := fun b => ⟨b.label, f b, b.jumps⟩) (fun _ => rfl) (fun _ _ => rfl) ?_ ?_
  · intro b hb l hl
    obtain ⟨dest, sources, hi, hl⟩ := mem_sourceLabels.1 hl
    exact h.source b hb l (mem_sourceLabels.2 ⟨dest, sources, (hf b hb).mem_phi_iff.1 hi, hl⟩)
  · intro b hb i' hi'
    obtain ⟨_, i, hi, hii⟩ := (hf b hb).exists_of_mem hi'
    exact hii.isTerminator_eq.trans (h.body b hb i hi)

theorem closed (hf : c.Reuses f) (h : c.Closed) : (c.withBodies f).Closed where
  toValid := hf.valid h.toValid
  endsOnce := by
    intro b' hb'
    obtain ⟨b, hb, rfl⟩ := mem_withBodies.1 hb'
    exact h.endsOnce b hb
  unlabelled := by
    intro b' hb' i' hi'
    obtain ⟨b, hb, -, _, i, hi, hii⟩ := hf.exists_of_mem hb' hi'
    exact hii.label?_eq.trans (h.unlabelled b hb i hi)

theorem strict (hf : c.Reuses f) (h : c.StrictForm params) : (c.withBodies f).Strict params where
  toValid := hf.valid h.toValid
  single := hf.writtenLocals_eq ▸ h.single
  params_notMem := hf.writtenLocals_eq ▸ h.params_notMem
  read := by
    intro b' pre' post' i' t hb' hsplit hphi' hread hw
    obtain ⟨b, hb, rfl⟩ := mem_withBodies.1 hb'
    obtain ⟨pre, i, post, hsplit, hpre, hii⟩ := (hf b hb).exists_of_split hsplit
    refine (hf.definedAt_iff hpre.map_dest?).2 ?_
    cases hii with
    | same => exact h.read (b := b) hb hsplit hphi' hread (hf.writtenLocals_eq ▸ hw)
    | copy he hx hdef =>
      obtain rfl : t = _ := by simpa [Instr.usedTemps, Instr.uses, Operand.temp?] using hread
      exact hdef
  jump := by
    intro b' j t hb' hj hread hw
    obtain ⟨b, hb, rfl⟩ := mem_withBodies.1 hb'
    exact (hf.definedAt_iff (hf b hb).map_dest?).2 (h.jump hb hj hread (hf.writtenLocals_eq ▸ hw))
  phiRead := by
    intro p' b' dest t sources hp' hb' hedge hi hfind hw
    obtain ⟨p, hp, rfl⟩ := mem_withBodies.1 hp'
    obtain ⟨b, hb, hl, hi⟩ := hf.exists_phi hb' hi
    exact (hf.definedAt_iff (hf p hp).map_dest?).2
      (h.phiRead hp hb (hl ▸ edge_withBodies.1 hedge) hi hfind (hf.writtenLocals_eq ▸ hw))

/-- Graphs that reuse expressions are in the same form. -/
theorem ssaForm (hf : c.Reuses f) (h : c.SsaForm params) : (c.withBodies f).SsaForm params where
  toStrict := hf.strict h.toStrictForm
  endsOnce := (hf.closed h.closed).endsOnce
  unlabelled := (hf.closed h.closed).unlabelled
  phisFirst := by
    intro b' hb'
    obtain ⟨b, hb, rfl⟩ := mem_withBodies.1 hb'
    obtain ⟨phis, rest, hsplit, hphis, hrest⟩ := h.phisFirst b hb
    obtain ⟨rest', heq, hreused⟩ := Reused.of_append (hsplit ▸ hf b hb) hphis
    exact ⟨phis, rest', heq, hphis, hreused.isPhi_iff.2 hrest⟩
  globalPhi := by
    intro b' dest sources hb' hi
    obtain ⟨b, hb, -, hi⟩ := hf.exists_phi hb' hi
    exact h.globalPhi hb hi
  localPhi := by
    intro b' dest sources hb' hi
    obtain ⟨b, hb, -, hi⟩ := hf.exists_phi hb' hi
    exact h.localPhi hb hi
  phiSource := by
    intro b' dest sources l hb' hi hedge
    obtain ⟨b, hb, hl, hi⟩ := hf.exists_phi hb' hi
    exact h.phiSource hb hi (hl ▸ edge_withBodies.1 hedge)
  entryPhi := by
    intro b' i' hb' hl' hi'
    obtain ⟨b, hb, hl, _, i, hi, hii⟩ := hf.exists_of_mem hb' hi'
    exact hii.isPhi_eq.trans (h.entryPhi hb (hl.trans hl') hi)

theorem refl (c : Cfg) : c.Reuses Block.body := fun _ _ => .refl _ _

/-- A graph that reuses expressions may do so once more. -/
theorem trans (hf : c.Reuses f) {g : Block → List Instr} (hg : (c.withBodies f).Reuses g) :
    c.Reuses fun b => g ⟨b.label, f b, b.jumps⟩ := by
  intro b hb
  have key : ∀ {pre pre' is is' is'' : List Instr}, c.Reused b.label pre is is' →
      pre'.map Instr.dest? = pre.map Instr.dest? → (c.withBodies f).Reused b.label pre' is' is'' →
      c.Reused b.label pre is is'' := by
    intro pre pre' is is' is'' h hpre h'
    induction h generalizing pre' is'' with
    | nil =>
      cases h'
      exact .nil _
    | @cons pre is is' i i' hii _ ih =>
      cases h' with
      | @cons _ _ is'' _ i'' hii' htail' =>
        refine .cons ?_ (ih (by simp [hpre, hii.dest?_eq]) htail')
        cases hii' with
        | same => exact hii
        | copy he hx hdef =>
          obtain rfl := hii.eq_of_of? he
          exact .copy he hx ((hf.definedAt_iff hpre).1 hdef)
  exact key (hf b hb) rfl (hg _ (mem_withBodies.2 ⟨b, hb, rfl⟩))

theorem keyed (hf : c.Reuses f) (h : c.Keyed) : (c.withBodies f).Keyed := by
  intro b' dest sources l hb' hi hlabel
  obtain ⟨b, hb, hl, hi⟩ := hf.exists_phi hb' hi
  exact edge_withBodies.2 (hl ▸ h hb hi hlabel)

theorem keeps (hf : c.Reuses f) {env : Surroundings} (hk : env.Keeps c.bodies) :
    env.Keeps (c.withBodies f).bodies := by
  have hbody : ∀ {i'}, i' ∈ (c.withBodies f).bodies → ∃ l pre, ∃ i ∈ c.bodies, c.Replaced l pre i i' := by
    intro i' hi'
    obtain ⟨b', hb', hi'⟩ := mem_bodies.1 hi'
    obtain ⟨b, hb, rfl⟩ := mem_withBodies.1 hb'
    obtain ⟨pre, i, hi, hii⟩ := (hf b hb).exists_of_mem hi'
    exact ⟨b.label, pre, i, mem_bodies.2 ⟨b, hb, hi⟩, hii⟩
  refine hk.transfer (fun i' hi' e t he ht _ => ?_) fun i' hi' target ht => ?_
  · obtain ⟨l, pre, i, hi, hii⟩ := hbody hi'
    cases hii with
    | same => exact ⟨_, hi, e, he, ht⟩
    | copy => cases he
  · obtain ⟨l, pre, i, hi, hii⟩ := hbody hi'
    cases hii with
    | same => exact ⟨_, hi, ht⟩
    | copy => cases ht

end Reuses

end Cfg

end ThreeAddress

import ThreeAddress.CopyPropagation
import ThreeAddress.Proofs.Computed
import ThreeAddress.Proofs.FormCheck
import ThreeAddress.Proofs.InPlace
/-!
# Copy propagation is sound

In strict SSA form a copy holds what its source holds wherever it reaches, and so does what the chain
of copies that it begins comes to (`follow_sound`). Reading that instead, and deleting the copies, is a
rewriting in place that hides them.
-/

namespace ThreeAddress.CopyPropagation

/-- What copy propagation does to bodies. -/
def rewriting (c : Cfg) : Rewriting where
  keeps i := !isDeleted (resolved c) i
  operand := replace (resolved c)
  source _ _ := true

theorem propagate_cfg (c : Cfg) : (propagate c).cfg = c.mapBlocks (rewriting c).block := by
  simp only [propagate, Cfg.mapBlocks]
  congr 1
  refine List.map_congr_left fun b _ => ?_
  simp only [replaceIn, Block.mapInstrs, Rewriting.block, Rewriting.body]
  congr 1
  have hsource : ∀ l k, (rewriting c).source l k = true := fun _ _ => rfl
  exact List.map_congr_left fun i _ => (Rewriting.instr_of_source hsource b.label i).symm

/-! ## Candidates -/

variable {params : List Temp} {c : Cfg}

/-- A candidate is a copy, of an immediate or a local into another local. -/
theorem mem_candidates {x : Temp} {source : Operand} (h : (x, source) ∈ candidates c) :
    (∃ b ∈ c.blocks, .copy x source ∈ b.body) ∧ x.isGlobal = false ∧
      ∀ t, source = .temp t → t.isGlobal = false := by
  obtain ⟨i, hi, he⟩ := List.mem_filterMap.1 h
  obtain ⟨b, hb, hib⟩ := List.mem_flatMap.1 hi
  cases i with
  | copy dest s =>
    dsimp only at he
    split at he
    · rename_i hp
      cases he
      refine ⟨⟨b, hb, hib⟩, ?_, ?_⟩
      · simp only [isPropagatable, Bool.and_eq_true, Bool.not_eq_true'] at hp
        exact hp.1.1
      · rintro t rfl
        simp only [isPropagatable, Bool.and_eq_true, Bool.not_eq_true'] at hp
        exact hp.2.1.2
    · cases he
  | _ => cases he

/-- What can be read at a point: written locals are defined there. -/
def Readable (c : Cfg) (l : Label) (pre : List Instr) (o : Operand) : Prop :=
  ∀ u ∈ c.writtenLocals, o = .temp u → c.DefinedAt l pre u

/-- Where a candidate reaches, so does its source, and it has the same value. -/
theorem candidate_sound (h : c.Strict params) {x : Temp} {source : Operand}
    (hx : (x, source) ∈ candidates c) {b : Block} {pre post : List Instr} (hb : b ∈ c.blocks)
    (hpre : b.body = pre ++ post) (hread : Readable c b.label pre (.temp x)) :
    Readable c b.label pre source ∧
      ∀ σ v, c.Computed b pre σ → σ.temp? x = some v → σ.value? source = some v := by
  obtain ⟨⟨d, hd, hi⟩, hlocal, hsource⟩ := mem_candidates hx
  obtain ⟨before, after, hsplit⟩ := List.append_of_mem hi
  have hdef := hread x (Cfg.mem_writtenLocals.2 ⟨d, hd, _, hi, rfl, hlocal⟩) rfl
  constructor
  · rintro u hu rfl
    refine Cfg.definedAt_trans h.single hlocal hd hsplit rfl ?_ hb hpre hdef
    exact h.read hd hsplit rfl (by simp [Instr.usedTemps, Instr.uses, Operand.temp?]) hu
  · rintro σ v ⟨-, hcomp⟩ hv
    obtain ⟨vs, w, hvs, ha, hw⟩ := hcomp d hd before _ after x hsplit rfl rfl hlocal
      (fun t ht => hsource t (List.mem_singleton.1 ht).symm) hdef
    obtain ⟨u, rfl, -, hwu⟩ := ha (fun _ _ _ _ _ => False) σ.toMemory
    obtain rfl : w = v := Option.some.inj ((hw x rfl).symm.trans hv)
    simpa [Instr.uses, Option.some.inj hwu] using hvs

/-! ## Chains -/

/-- What a chain of copies comes to is no candidate, and it is a global only where the chain is empty. -/
theorem follow_end {n : Nat} {o o' : Operand} (h : follow (candidates c) n o = some o') :
    (∀ t, o' = .temp t → (candidates c).lookup t = none) ∧
      ∀ t, o' = .temp t → t.isGlobal = true → o = .temp t := by
  induction n generalizing o with
  | zero => cases h
  | succ n ih =>
    cases o with
    | imm k => cases h; simp
    | temp x =>
      simp only [follow] at h
      split at h
      · rename_i next hnext
        obtain ⟨hlast, hglobal⟩ := ih h
        refine ⟨hlast, fun t ht hg => ?_⟩
        have := (mem_candidates (mem_of_lookup hnext)).2.2 t (hglobal t ht hg)
        rw [this] at hg
        cases hg
      · cases h
        exact ⟨fun t ht => by cases ht; assumption, fun t ht _ => ht⟩

/-- Where the beginning of a chain of copies can be read, so can its end, with the same value. -/
theorem follow_sound (h : c.Strict params) {b : Block} {pre post : List Instr} (hb : b ∈ c.blocks)
    (hpre : b.body = pre ++ post) {n : Nat} {o o' : Operand}
    (hfollow : follow (candidates c) n o = some o') (hread : Readable c b.label pre o) :
    Readable c b.label pre o' ∧
      ∀ σ v, c.Computed b pre σ → σ.value? o = some v → σ.value? o' = some v := by
  induction n generalizing o with
  | zero => cases hfollow
  | succ n ih =>
    cases o with
    | imm k => cases hfollow; exact ⟨hread, fun _ _ _ hv => hv⟩
    | temp x =>
      simp only [follow] at hfollow
      split at hfollow
      · rename_i next hnext
        obtain ⟨hread', hvalue⟩ := candidate_sound h (mem_of_lookup hnext) hb hpre hread
        obtain ⟨hread'', hvalue'⟩ := ih hfollow hread'
        exact ⟨hread'', fun σ v hσ hv => hvalue' σ v hσ (hvalue σ v hσ hv)⟩
      · cases hfollow
        exact ⟨hread, fun _ _ _ hv => hv⟩

/-! ## The rewriting -/

theorem mem_resolved {x : Temp} {o : Operand} (h : (resolved c).lookup x = some o) :
    ∃ source n, (x, source) ∈ candidates c ∧ follow (candidates c) n source = some o := by
  obtain ⟨⟨y, source⟩, hmem, hf⟩ := List.mem_filterMap.1 (mem_of_lookup h)
  obtain ⟨o', hfollow, he⟩ := Option.map_eq_some_iff.1 hf
  cases he
  exact ⟨source, _, hmem, hfollow⟩

/-- Only candidates are deleted. -/
theorem lookup_resolved_eq_none {t : Temp} (h : (candidates c).lookup t = none) :
    (resolved c).lookup t = none := by
  rw [Option.eq_none_iff_forall_ne_some]
  intro o ho
  obtain ⟨source, n, hmem, -⟩ := mem_resolved ho
  simpa using List.lookup_eq_none_iff.1 h _ hmem

/-- What is read instead of an operand can be read wherever the operand can, with its value. -/
theorem replace_sound (h : c.Strict params) {b : Block} {pre post : List Instr} (hb : b ∈ c.blocks)
    (hpre : b.body = pre ++ post) {o : Operand} (hread : Readable c b.label pre o) :
    Readable c b.label pre (replace (resolved c) o) ∧ ∀ σ v, c.Computed b pre σ →
      σ.value? o = some v → σ.value? (replace (resolved c) o) = some v := by
  cases o with
  | imm k => exact ⟨hread, fun _ _ _ hv => hv⟩
  | temp x =>
    simp only [replace]
    cases hx : (resolved c).lookup x with
    | none => exact ⟨hread, fun _ _ _ hv => hv⟩
    | some o' =>
      obtain ⟨source, n, hmem, hfollow⟩ := mem_resolved hx
      obtain ⟨hread', hvalue⟩ := candidate_sound h hmem hb hpre hread
      obtain ⟨hread'', hvalue'⟩ := follow_sound h hb hpre hfollow hread'
      exact ⟨hread'', fun σ v hσ hv => hvalue' σ v hσ (hvalue σ v hσ hv)⟩

/-- What is read in the end is not deleted. -/
theorem lookup_of_replace {o : Operand} {t : Temp} (h : replace (resolved c) o = .temp t) :
    (resolved c).lookup t = none := by
  cases o with
  | imm k => cases h
  | temp x =>
    simp only [replace] at h
    cases hx : (resolved c).lookup x with
    | none =>
      rw [hx] at h
      cases h
      exact hx
    | some o' =>
      rw [hx] at h
      obtain ⟨source, n, -, hfollow⟩ := mem_resolved hx
      exact lookup_resolved_eq_none ((follow_end hfollow).1 t h)

/-- Globals stay where they are: no chain of copies leads to one. -/
theorem eq_of_operand_global {o : Operand} {t : Temp} (ho : (rewriting c).operand o = .temp t)
    (hg : t.isGlobal = true) : o = .temp t := by
  cases o with
  | imm k => cases ho
  | temp x =>
    simp only [rewriting, replace] at ho
    cases hx : (resolved c).lookup x with
    | none => simpa [hx] using ho
    | some o' =>
      obtain ⟨source, n, hmem, hfollow⟩ := mem_resolved hx
      rw [hx] at ho
      have := (mem_candidates hmem).2.2 t ((follow_end hfollow).2 t ho hg)
      rw [this] at hg
      cases hg

theorem inPlace_rewriting (h : c.Strict params) : (rewriting c).InPlace c where
  source _ _ := rfl
  operand := by
    intro o t ho ht
    cases o with
    | imm k => cases ho
    | temp x =>
      cases hx : (resolved c).lookup x with
      | none =>
        -- What is not the destination of a copy stays; the others have a chain of copies with an end.
        have : (rewriting c).operand (.temp x) = .temp x := by simp [rewriting, replace, hx]
        exact .inl (this.symm.trans ho)
      | some o' =>
        obtain ⟨source, n, hmem, -⟩ := mem_resolved hx
        obtain ⟨⟨d, hd, hi⟩, hlocal, -⟩ := mem_candidates hmem
        refine .inr ⟨x, Cfg.mem_writtenLocals.2 ⟨d, hd, _, hi, rfl, hlocal⟩, rfl, ?_⟩
        intro b hb pre post hpre hdef
        refine (replace_sound h hb hpre (o := .temp x) ?_).1 t ht ho
        rintro u - hu
        cases hu
        exact hdef
  operand_global t ht := by
    have : (resolved c).lookup t = none := by
      rw [Option.eq_none_iff_forall_ne_some]
      intro o ho
      obtain ⟨source, n, hmem, -⟩ := mem_resolved ho
      rw [(mem_candidates hmem).2.1] at ht
      cases ht
    simp [rewriting, replace, this]
  eq_of_operand_global _ _ := eq_of_operand_global

theorem ssaForm_propagate (h : c.SsaForm params) : (propagate c).cfg.SsaForm params := by
  rw [propagate_cfg]
  exact (inPlace_rewriting h.toStrict).ssaForm h

/-- Copy propagation is a sound rewriting that hides the copies that it deletes. -/
theorem sound_propagate (h : c.Strict params) (calls : Calls) :
    (rewriting c).Sound calls c (c.mapBlocks (rewriting c).block) c.Computed
      (fun t => ((resolved c).lookup t).isSome = true) := by
  refine Rewriting.sound_block h (fun _ _ => rfl) (h.computed calls) ?_ ?_ ?_
  · intro b pre post o σ v hb hpre hσ hread hv
    refine ⟨(replace_sound h hb hpre hread).2 σ v hσ hv, fun t ht _ hh => ?_⟩
    simp only [lookup_of_replace ht, Option.isSome_none, Bool.false_eq_true] at hh
  · intro b hb i hi hk hphi
    cases i with
    | copy dest s =>
      have hk : ((resolved c).lookup dest).isSome = true := by
        simpa [rewriting, isDeleted] using hk
      refine ⟨by simp, by simp, fun t ht => ?_⟩
      cases ht
      obtain ⟨o, ho⟩ := Option.isSome_iff_exists.1 hk
      obtain ⟨source, n, hmem, -⟩ := mem_resolved ho
      exact ⟨(mem_candidates hmem).2.1, hk⟩
    | _ => simp [rewriting, isDeleted] at hk
  · intro p b dest sources σ _ _ _ _ _ hk
    simp [rewriting, isDeleted] at hk

/-- The graph after copy propagation returns whatever it returned before. -/
theorem refines_propagate {env : Surroundings} (h : c.StrictForm params) :
    c.Refines env params (propagate c).cfg := by
  intro calls σ f _ _ hrun
  rw [propagate_cfg]
  exact (sound_propagate h.toStrict calls).runs h.phisFirst rfl (fun _ _ hl => c.computed_entry hl σ) hrun

theorem closed_propagate (h : c.Closed) : (propagate c).cfg.Closed := by
  rw [propagate_cfg]
  exact Rewriting.closed_block h

theorem tidy_propagate (h : c.Strict params) : (rewriting c).Tidy (fun _ => true)
    (fun b => b.jumps.map (·.mapOperands (rewriting c).operand)) c (propagate c).cfg := by
  rw [propagate_cfg]
  exact (inPlace_rewriting h).tidy

/-- Copy propagation keeps the form and all that the graph does. -/
theorem improves_propagate {env : Surroundings} (h : c.SsaForm params) :
    c.Improves env params (propagate c).cfg where
  ssaForm := ssaForm_propagate h
  refines := refines_propagate h.toStrictForm
  keeps := (tidy_propagate h.toStrict).keeps
  keyed := (tidy_propagate h.toStrict).keyed

/-! ## Programs -/

/-- Copy propagation in strict SSA form keeps the runs of every program around the procedure. -/
theorem keptBy_propagate {p : Procedure} (h : c.StrictForm p.params) (before after : Program) :
    Program.KeptBy (before ++ .proc (p.withCode c) :: after)
      (before ++ .proc (p.withCode (propagate c).cfg) :: after) :=
  (refines_propagate h).keptBy h.closed (closed_propagate h.closed) before after

/-- A loop that carries a value over by a chain of copies. -/
def chained : Cfg where
  proc := "@main"
  entry := ⟨"entry"⟩
  blocks := [
    ⟨⟨"entry"⟩, [.copy ⟨"%a"⟩ (.imm 1), .copy ⟨"%b"⟩ (.temp ⟨"%a"⟩)], [.jump ⟨"head"⟩]⟩,
    ⟨⟨"head"⟩,
      [.phi ⟨"%i"⟩ (.ofList [(⟨"entry"⟩, .temp ⟨"%n"⟩), (⟨"head"⟩, .temp ⟨"%k"⟩)]),
        .binary ⟨"%j"⟩ .sub (.temp ⟨"%i"⟩) (.temp ⟨"%b"⟩), .copy ⟨"%k"⟩ (.temp ⟨"%j"⟩)],
      [.branch .jnle (.temp ⟨"%k"⟩) ⟨"head"⟩, .jump ⟨"exit"⟩]⟩,
    ⟨⟨"exit"⟩, [], [.ret (some (.temp ⟨"%k"⟩))]⟩]

/-- A procedure around `chained`. -/
def chainedProc : Procedure := ⟨"@main", [⟨"%n"⟩], []⟩

theorem keptBy_propagate_chained :
    chained.StrictForm chainedProc.params ∧ (propagate chained).cfg ≠ chained ∧
      (∃ o, Program.run [.proc (chainedProc.withCode chained)] "@main" [3] 100 = .ok o) ∧
      Program.KeptBy [.proc (chainedProc.withCode chained)]
        [.proc (chainedProc.withCode (propagate chained).cfg)] := by
  have hvalid : Cfg.ofBlocks chained.proc chained.blocks = .ok chained := rfl
  have hstrict : chained.Strict chainedProc.params :=
    (Cfg.ofBlocks_eq_ok.1 hvalid).2.2.strict (by decide +kernel)
  have hform : chained.StrictForm chainedProc.params := ⟨hstrict, by decide, by decide, by decide⟩
  exact ⟨hform, by decide, ⟨_, rfl⟩, keptBy_propagate hform [] []⟩

/-- A block that holds the label of another one. Linear code goes there, past the copy, and the source is
written again. -/
def strayLabel : Cfg where
  proc := "@main"
  entry := ⟨"E"⟩
  blocks := [
    ⟨⟨"E"⟩, [], [.jump ⟨"Y"⟩]⟩,
    ⟨⟨"Y"⟩, [.copy ⟨"%y"⟩ (.temp ⟨"@n"⟩)], [.branch .jnz (.temp ⟨"%y"⟩) ⟨"X"⟩, .jump ⟨"D"⟩]⟩,
    ⟨⟨"X"⟩, [], [.ret (some (.imm 7))]⟩,
    ⟨⟨"D"⟩, [.copy ⟨"%x"⟩ (.temp ⟨"%y"⟩), .label ⟨"X"⟩, .const ⟨"@n"⟩ 1],
      [.branch .jz (.temp ⟨"%y"⟩) ⟨"Y"⟩, .ret (some (.temp ⟨"%x"⟩))]⟩]

/-- A program around `strayLabel`, or what becomes of it. -/
def aroundStray (c : Cfg) : Program := [.var ⟨"@n", 0⟩, .proc (Procedure.withCode ⟨"@main", [], []⟩ c)]

/-- Labels in bodies have to be left out: the result changes from 0 to 1. -/
theorem not_keptBy_propagate_strayLabel :
    Cfg.ofBlocks strayLabel.proc strayLabel.blocks = .ok strayLabel ∧ strayLabel.Strict [] ∧
      (∀ b ∈ strayLabel.blocks, b.EndsOnce) ∧ (∀ b ∈ strayLabel.blocks, b.PhisFirst) ∧
      ¬ Program.KeptBy (aroundStray strayLabel) (aroundStray (propagate strayLabel).cfg) := by
  have hvalid : Cfg.ofBlocks strayLabel.proc strayLabel.blocks = .ok strayLabel := rfl
  refine ⟨hvalid, (Cfg.ofBlocks_eq_ok.1 hvalid).2.2.strict (by decide +kernel), by decide, by decide,
    fun h => ?_⟩
  obtain ⟨o, ho, hr⟩ : ∃ o, (aroundStray strayLabel).run "@main" [] 100 = .ok o ∧ o.result? = some 0 :=
    ⟨_, rfl, rfl⟩
  obtain ⟨o', ho', hr'⟩ : ∃ o, (aroundStray (propagate strayLabel).cfg).run "@main" [] 100 = .ok o ∧
    o.result? = some 1 := ⟨_, rfl, rfl⟩
  have heq := h.result?_eq ho ho'
  rw [hr, hr'] at heq
  exact absurd heq (by decide)

end ThreeAddress.CopyPropagation

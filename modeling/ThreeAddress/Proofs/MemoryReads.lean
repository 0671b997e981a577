import Mathlib.Data.List.Forall2
import ThreeAddress.Proofs.Constants.Form
import ThreeAddress.Proofs.CopyPropagation
import ThreeAddress.Proofs.PhiRounds
/-!
# What passes read in the place of operands

Passes that delete instructions and read other operands leave, block by block, some of the instructions that read
something, in their order (`Cfg.Alters`). Globals are memory: where a global is read behind copy propagation or the
folding of constants, it was read in the same place before. The deletion of redundant phis follows them to whatever
they read (`Cfg.PhiReads`), and that may be a global: what was loaded from memory at the phi is then loaded again
wherever it is read.
-/

namespace ThreeAddress

variable {P : Operand → Operand → Prop}

/-! ## Instructions with other operands -/

/-- A place of an instruction where an operand is read. -/
inductive ReadSite
  /-- One of the operands of an instruction that is no phi, in their order. -/
  | operand (n : Nat)
  /-- The source of a phi for a block. -/
  | source (l : Label)

namespace Instr

/-- The operand that an instruction reads at a place. -/
def read? (i : Instr) : ReadSite → Option Operand
  | .operand n => if i.isPhi then none else i.uses[n]?
  | .source l => i.sources?.bind (·.find? l)

/-- The instruction without what it reads. -/
def frame : Instr → Instr
  | phi dest _ => phi dest ∅
  | i => i.mapOperands fun _ => .imm 0

/-- The second instruction is the first one with other operands; each of them stands in a relation to the one that
was read in its place. -/
structure Alters (P : Operand → Operand → Prop) (i i' : Instr) : Prop where
  frame : i'.frame = i.frame
  read : ∀ site o', i'.read? site = some o' → ∃ o, i.read? site = some o ∧ P o o'

theorem exists_read? {i : Instr} {o : Operand} (h : o ∈ i.uses) : ∃ site, i.read? site = some o := by
  cases i with
  | phi dest sources =>
    obtain ⟨l, hl⟩ := PhiSources.exists_of_mem_operands h
    exact ⟨.source l, hl⟩
  | _ =>
    obtain ⟨n, hn⟩ := List.mem_iff_getElem?.1 h
    exact ⟨.operand n, hn⟩

theorem mem_uses_of_read? {i : Instr} {site : ReadSite} {o : Operand} (h : i.read? site = some o) : o ∈ i.uses := by
  cases site with
  | operand n =>
    simp only [read?] at h
    split at h
    · cases h
    · exact List.mem_of_getElem? h
  | source l =>
    cases i with
    | phi dest sources => exact PhiSources.mem_operands h
    | _ => cases h

theorem frame_mapOperands (f : Operand → Operand) (i : Instr) : (i.mapOperands f).frame = i.frame := by
  cases i with
  | ret v? => cases v? <;> rfl
  | _ => rfl

namespace Alters

variable {i i' i'' : Instr}

theorem trans (hP : ∀ a b c, P a b → P b c → P a c) (h : i.Alters P i') (h' : i'.Alters P i'') : i.Alters P i'' := by
  refine ⟨h'.frame.trans h.frame, fun site o'' ho'' => ?_⟩
  obtain ⟨o', ho', hoo'⟩ := h'.read site o'' ho''
  obtain ⟨o, ho, hoo⟩ := h.read site o' ho'
  exact ⟨o, ho, hP _ _ _ hoo hoo'⟩

theorem mono {Q : Operand → Operand → Prop} (hPQ : ∀ a b, P a b → Q a b) (h : i.Alters P i') : i.Alters Q i' :=
  ⟨h.frame, fun site o' ho' => (h.read site o' ho').imp fun _ ho => ⟨ho.1, hPQ _ _ ho.2⟩⟩

/-- Where something is read, something was read before. -/
theorem uses_ne_nil (h : i.Alters P i') (hi' : i'.uses ≠ []) : i.uses ≠ [] := by
  obtain ⟨o', ho'⟩ := List.exists_mem_of_ne_nil _ hi'
  obtain ⟨site, hsite⟩ := exists_read? ho'
  obtain ⟨o, ho, -⟩ := h.read site o' hsite
  exact List.ne_nil_of_mem (mem_uses_of_read? ho)

theorem mapOperands {f : Operand → Operand} (hf : ∀ o, P o (f o)) (i : Instr) : i.Alters P (i.mapOperands f) := by
  refine ⟨frame_mapOperands f i, fun site o' ho' => ?_⟩
  cases site with
  | operand n =>
    simp only [read?, isPhi_mapOperands, uses_mapOperands, List.getElem?_map] at ho' ⊢
    split at ho'
    · cases ho'
    · rename_i hphi
      obtain ⟨o, ho, rfl⟩ := Option.map_eq_some_iff.1 ho'
      exact ⟨o, by simpa [hphi] using ho, hf o⟩
  | source l =>
    cases i with
    | phi dest sources =>
      simp only [read?, sources?, Instr.mapOperands, Option.bind_some, PhiSources.find?_mapOperands] at ho' ⊢
      obtain ⟨o, ho, rfl⟩ := Option.map_eq_some_iff.1 ho'
      exact ⟨o, ho, hf o⟩
    | _ => cases ho'

/-- Sources that are taken from a phi are not read any more. -/
theorem rewriting {r : Rewriting} (hr : ∀ o, P o (r.operand o)) (l : Label) (i : Instr) :
    i.Alters P (r.instr l i) := by
  cases i with
  | phi dest sources =>
    refine ⟨rfl, fun site o' ho' => ?_⟩
    cases site with
    | operand n => cases ho'
    | source k =>
      simp only [read?, sources?, Rewriting.instr, Option.bind_some, PhiSources.find?_mapOperands,
        PhiSources.find?_filter] at ho' ⊢
      obtain ⟨o, ho, rfl⟩ := Option.map_eq_some_iff.1 ho'
      split at ho
      · exact ⟨o, ho, hr o⟩
      · cases ho
  | _ => exact mapOperands hr _

end Alters

end Instr

/-! ## Code with other operands -/

/-- The instructions that read something. -/
def readers (is : List Instr) : List Instr := is.filter (!·.uses.isEmpty)

theorem mem_readers {i : Instr} {is : List Instr} : i ∈ readers is ↔ i ∈ is ∧ i.uses ≠ [] := by
  simp [readers]

theorem readers_sublist {is js : List Instr} (h : is.Sublist js) : (readers is).Sublist (readers js) := h.filter _

/-- What reads something in the second list is what is left of the first one, in its order, with other operands. -/
def Remnant (P : Operand → Operand → Prop) (is is' : List Instr) : Prop :=
  List.SublistForall₂ (fun i' i => Instr.Alters P i i') (readers is') (readers is)

namespace Remnant

variable {is is' is'' js js' : List Instr}

theorem of_mem (h : Remnant P is is') {i' : Instr} (hi' : i' ∈ readers is') : ∃ i ∈ is, i.Alters P i' := by
  obtain ⟨kept, hkept, hsub⟩ := List.sublistForall₂_iff.1 h
  obtain ⟨n, hn, rfl⟩ := List.mem_iff_getElem.1 hi'
  obtain ⟨hlength, hget⟩ := List.forall₂_iff_get.1 hkept
  exact ⟨_, (mem_readers.1 (hsub.subset (List.getElem_mem (hlength ▸ hn)))).1, hget n hn (hlength ▸ hn)⟩

theorem mono {Q : Operand → Operand → Prop} (hPQ : ∀ a b, P a b → Q a b) (h : Remnant P is is') : Remnant Q is is' := by
  obtain ⟨kept, hkept, hsub⟩ := List.sublistForall₂_iff.1 h
  exact List.sublistForall₂_iff.2 ⟨kept, hkept.imp fun _ _ hi => hi.mono hPQ, hsub⟩

theorem trans (hP : ∀ a b c, P a b → P b c → P a c) (h : Remnant P is is') (h' : Remnant P is' is'') :
    Remnant P is is'' :=
  have : IsTrans Instr fun i' i => Instr.Alters P i i' := ⟨fun _ _ _ h₂ h₁ => Instr.Alters.trans hP h₁ h₂⟩
  List.SublistForall₂.is_trans.trans _ _ _ h' h

theorem append (h : Remnant P is is') (hj : Remnant P js js') : Remnant P (is ++ js) (is' ++ js') := by
  obtain ⟨kept, hkept, hsub⟩ := List.sublistForall₂_iff.1 h
  obtain ⟨kept', hkept', hsub'⟩ := List.sublistForall₂_iff.1 hj
  rw [Remnant, readers, readers, List.filter_append, List.filter_append]
  exact List.sublistForall₂_iff.2 ⟨kept ++ kept', List.rel_append hkept hkept', hsub.append hsub'⟩

/-- What is deleted beforehand does not matter. -/
theorem of_sublist (h : Remnant P is is') (hsub : (readers is).Sublist (readers js)) : Remnant P js is' := by
  obtain ⟨kept, hkept, hsub'⟩ := List.sublistForall₂_iff.1 h
  exact List.sublistForall₂_iff.2 ⟨kept, hkept, hsub'.trans hsub⟩

theorem map {f : Instr → Instr} (hf : ∀ i, Instr.Alters P i (f i)) (is : List Instr) : Remnant P is (is.map f) := by
  induction is with
  | nil => exact .nil
  | cons i is ih =>
    rw [Remnant, readers, readers, List.map_cons, List.filter_cons, List.filter_cons]
    by_cases hi' : (f i).uses = []
    · rw [if_neg (by simp [hi'])]
      split
      · exact .cons_right ih
      · exact ih
    · rw [if_pos (by simpa using hi'), if_pos (by simpa using (hf i).uses_ne_nil hi')]
      exact .cons (hf i) ih

end Remnant

/-- Block by block, what reads something in the second graph is what is left of the first one. -/
def Cfg.Alters (P : Operand → Operand → Prop) (c c' : Cfg) : Prop :=
  ∀ b' ∈ c'.blocks, ∃ b ∈ c.blocks, b.label = b'.label ∧ Remnant P b.instrs b'.instrs

namespace Cfg.Alters

variable {c c' c'' : Cfg}

theorem refl (hP : ∀ o, P o o) (c : Cfg) : c.Alters P c := fun b hb =>
  ⟨b, hb, rfl, by simpa using Remnant.map (f := id) (fun i => ⟨rfl, fun _ o ho => ⟨o, ho, hP o⟩⟩) b.instrs⟩

theorem trans (hP : ∀ a b c, P a b → P b c → P a c) (h : c.Alters P c') (h' : c'.Alters P c'') : c.Alters P c'' := by
  intro b'' hb''
  obtain ⟨b', hb', hlabel', hremnant'⟩ := h' b'' hb''
  obtain ⟨b, hb, hlabel, hremnant⟩ := h b' hb'
  exact ⟨b, hb, hlabel.trans hlabel', hremnant.trans hP hremnant'⟩

theorem mono {Q : Operand → Operand → Prop} (hPQ : ∀ a b, P a b → Q a b) (h : c.Alters P c') : c.Alters Q c' := by
  intro b' hb'
  obtain ⟨b, hb, hlabel, hremnant⟩ := h b' hb'
  exact ⟨b, hb, hlabel, hremnant.mono hPQ⟩

theorem rewriting {r : Rewriting} (hr : ∀ o, P o (r.operand o)) (c : Cfg) : c.Alters P (c.mapBlocks r.block) := by
  intro b' hb'
  obtain ⟨b, hb, rfl⟩ := Cfg.mem_mapBlocks.1 hb'
  refine ⟨b, hb, rfl, .append ?_ (.map (Instr.Alters.mapOperands hr) b.jumps)⟩
  exact (Remnant.map (Instr.Alters.rewriting hr b.label) _).of_sublist (readers_sublist List.filter_sublist)

end Cfg.Alters

/-! ## Globals -/

/-- Where a global is read now, it was read before. -/
def Operand.SameMemory (o o' : Operand) : Prop := ∀ t : Temp, t.isGlobal = true → o' = .temp t → o = .temp t

theorem CopyPropagation.sameMemory_propagate (c : Cfg) : c.Alters Operand.SameMemory (propagate c).cfg := by
  rw [propagate_cfg]
  exact .rewriting (fun _ _ ht ho => eq_of_operand_global ho ht) c

namespace Constants

theorem sameMemory_fold (f : Facts) (o : Operand) : o.SameMemory (fold f o) :=
  fun _ _ ho => eq_of_fold ho

theorem readers_resolveJumps (f : Facts) (js : List Instr) : (readers (resolveJumps f js)).Sublist (readers js) := by
  have hkept : (readers (decideJumps f js).kept).Sublist (readers js) := by
    have hsub := readers_sublist (sublist_decideJumps f js)
    simpa [readers, List.filter_filter] using hsub
  unfold resolveJumps
  dsimp only
  split
  · simpa [readers, Instr.uses] using hkept
  · exact hkept

theorem sameMemory_foldConstants (c : Cfg) : c.Alters Operand.SameMemory (foldConstants c).1.cfg := by
  intro b' hb'
  obtain ⟨b, hb, rfl⟩ := List.mem_map.1 (folded_blocks (analyze c) c ▸ hb')
  refine ⟨b, (List.mem_filter.1 hb).1, rfl, .append ?_ ?_⟩
  · exact (Remnant.map (Instr.Alters.rewriting (r := rewriting (analyze c)) (sameMemory_fold _) b.label) _).of_sublist
      (readers_sublist List.filter_sublist)
  · exact (Remnant.map (Instr.Alters.mapOperands (sameMemory_fold _)) _).of_sublist (readers_resolveJumps _ _)

end Constants

/-! ## Sources of phis -/

/-- The first operand is the destination of a phi, and the second one is one of its sources. -/
def Cfg.PhiReads (c : Cfg) (o o' : Operand) : Prop :=
  ∃ dest sources, .phi dest sources ∈ c.instrs ∧ o = .temp dest ∧ o' ∈ sources.operands

theorem Instr.eq_phi_of_frame {i : Instr} {dest : Temp} {sources : PhiSources}
    (h : (Instr.phi dest sources).frame = i.frame) : ∃ sources', i = .phi dest sources' := by
  cases i with
  | phi dest' sources' =>
    cases h
    exact ⟨sources', rfl⟩
  | ret v? => cases v? <;> cases h
  | _ => cases h

section

open Relation (ReflTransGen)

variable {c c' : Cfg}

/-- A phi that reads what the phis behind a source led to reads nothing new. -/
theorem Cfg.PhiReads.of_alters (h : c.Alters (ReflTransGen c.PhiReads) c') {o o' : Operand} (ho : c'.PhiReads o o') :
    ReflTransGen c.PhiReads o o' := by
  obtain ⟨dest, sources, hi', rfl, ho'⟩ := ho
  obtain ⟨b', hb', hi'⟩ := List.mem_flatMap.1 hi'
  obtain ⟨b, hb, -, hremnant⟩ := h b' hb'
  obtain ⟨i, hi, halters⟩ := hremnant.of_mem (mem_readers.2 ⟨hi', List.ne_nil_of_mem ho'⟩)
  obtain ⟨sources', rfl⟩ := Instr.eq_phi_of_frame halters.frame
  obtain ⟨l, hl⟩ := PhiSources.exists_of_mem_operands ho'
  obtain ⟨o, ho, hchain⟩ := halters.read (.source l) o' hl
  exact .head ⟨dest, sources', List.mem_flatMap.2 ⟨b, hb, hi⟩, rfl, PhiSources.mem_operands ho⟩ hchain

theorem Cfg.Alters.phiReads_trans {c'' : Cfg} (h : c.Alters (ReflTransGen c.PhiReads) c')
    (h' : c'.Alters (ReflTransGen c'.PhiReads) c'') : c.Alters (ReflTransGen c.PhiReads) c'' := by
  refine h.trans (fun _ _ _ => ReflTransGen.trans) (h'.mono fun o o' => ?_)
  exact Relation.reflTransGen_closed (fun _ _ => Cfg.PhiReads.of_alters h) o o'

namespace PhiMinimization

/-- What reads the destination reads the source that was found. -/
theorem alters_apply {r : Renamable} (hr : findRenamable? c = some r) :
    c.Alters (ReflTransGen c.PhiReads) (apply c r) := by
  obtain ⟨d, hd, -, sources, hi, hsource⟩ := exists_of_findRenamable? hr
  have hphi : c.PhiReads (.temp r.dest) r.source :=
    ⟨r.dest, sources, List.mem_flatMap.2 ⟨d, hd, List.mem_append_left _ (List.mem_of_getElem? hi)⟩, rfl,
      ((singleSource?_eq_some.1 hsource _).2 rfl).1⟩
  have hsubst : ∀ o : Operand, ReflTransGen c.PhiReads o (o.subst r.dest r.source) := by
    intro o
    unfold Operand.subst
    split
    · rename_i ho
      rw [of_decide_eq_true ho]
      exact .single hphi
    · exact .refl
  intro b'' hb''
  obtain ⟨b', hb', rfl⟩ := Cfg.mem_mapBlocks.1 hb''
  obtain ⟨b, hb, rfl⟩ := Cfg.mem_mapBlocks.1 hb'
  refine ⟨b, hb, by split <;> rfl, .append ((Remnant.map (Instr.Alters.mapOperands hsubst) _).of_sublist ?_) ?_⟩
  · refine readers_sublist ?_
    split
    · exact List.eraseIdx_sublist ..
    · exact .refl _
  · have hjumps := Remnant.map (Instr.Alters.mapOperands hsubst) b.jumps
    split <;> exact hjumps

theorem alters_removeNullChoices (c : Cfg) : c.Alters (ReflTransGen c.PhiReads) (removeNullChoices c).cfg :=
  removeNullChoices_cfg c ▸ .rewriting (fun _ => .refl) c

/-- Behind the deletion of phis an operand is read where there was a phi that leads to it, or the operand itself. -/
theorem alters_minimize (c : Cfg) (rounds : Nat) : c.Alters (ReflTransGen c.PhiReads) (minimize rounds c).cfg :=
  minimize_induction (P := c.Alters (ReflTransGen c.PhiReads)) (fun _ _ hr h => h.phiReads_trans (alters_apply hr))
    (fun c' h => h.phiReads_trans (alters_removeNullChoices c')) (.refl (fun _ => .refl) c) rounds

end PhiMinimization

/-- Phis that read globals only for themselves lead to no other global. -/
theorem Operand.SameMemory.of_phiReads (h : ∀ o o', c.PhiReads o o' → o.SameMemory o') {o o' : Operand}
    (ho : ReflTransGen c.PhiReads o o') : o.SameMemory o' := by
  induction ho with
  | refl => exact fun _ _ ho => ho
  | tail _ hphi ih => exact fun t ht ho => ih t ht (h _ _ hphi t ht ho)

end

/-- In the form that construction gives, phis read globals only for themselves. -/
theorem Cfg.SsaForm.sameMemory {params : List Temp} {c : Cfg} (h : c.SsaForm params) {o o' : Operand}
    (ho : c.PhiReads o o') : o.SameMemory o' := by
  rintro t ht rfl
  obtain ⟨dest, sources, hi, rfl, hmem⟩ := ho
  obtain ⟨b, hb, hi⟩ := List.mem_flatMap.1 hi
  rcases List.mem_append.1 hi with hi | hi
  · cases hdest : dest.isGlobal with
    | true => exact (h.globalPhi hb hi hdest _ hmem).symm
    | false => exact absurd ht (by simp [h.localPhi hb hi hdest t hmem])
  · cases (h.endsOnce b hb).isTerminator_of_mem hi

theorem PhiMinimization.sameMemory_minimize {params : List Temp} {c : Cfg} (h : c.SsaForm params) (rounds : Nat) :
    c.Alters Operand.SameMemory (minimize rounds c).cfg :=
  (alters_minimize c rounds).mono fun _ _ => Operand.SameMemory.of_phiReads fun _ _ => h.sameMemory

/-- Where an instruction reads a global behind copy propagation or the folding of constants, it read that global
before. Behind the deletion of phis it read that global or what phis derive from it, so the same holds where phis read
globals only for themselves. -/
theorem Cfg.memory_read_before (c : Cfg) :
    c.Alters Operand.SameMemory (CopyPropagation.propagate c).cfg ∧
    c.Alters Operand.SameMemory (Constants.foldConstants c).1.cfg ∧
    ∀ rounds, c.Alters (Relation.ReflTransGen c.PhiReads) (PhiMinimization.minimize rounds c).cfg ∧
      ((∀ o o', c.PhiReads o o' → o.SameMemory o') →
        c.Alters Operand.SameMemory (PhiMinimization.minimize rounds c).cfg) :=
  ⟨CopyPropagation.sameMemory_propagate c, Constants.sameMemory_foldConstants c, fun rounds =>
    ⟨PhiMinimization.alters_minimize c rounds, fun h =>
      (PhiMinimization.alters_minimize c rounds).mono fun _ _ => Operand.SameMemory.of_phiReads h⟩⟩

/-- A sum of the only source of a phi and a global. -/
def summed : Cfg where
  proc := "@main"
  entry := ⟨"A"⟩
  blocks := [
    ⟨⟨"A"⟩, [], [.jump ⟨"B"⟩]⟩,
    ⟨⟨"B"⟩, [.phi ⟨"%x.1"⟩ (.ofList [(⟨"A"⟩, .temp ⟨"%y"⟩)]),
      .binary ⟨"%z"⟩ .add (.temp ⟨"%x.1"⟩) (.temp ⟨"@g"⟩)], [.ret (some (.temp ⟨"%z"⟩))]⟩]

theorem Cfg.memory_read_before_summed : (∀ o o', summed.PhiReads o o' → o.SameMemory o') ∧
    .binary ⟨"%z"⟩ .add (.temp ⟨"%y"⟩) (.temp ⟨"@g"⟩) ∈ (PhiMinimization.minimize 1 summed).cfg.instrs ∧
      summed.Alters Operand.SameMemory (PhiMinimization.minimize 1 summed).cfg := by
  have hphi : ∀ o o', summed.PhiReads o o' → o.SameMemory o' := by
    rintro o o' ⟨dest, sources, hi, rfl, ho'⟩ t ht rfl
    have huses : ∀ i ∈ summed.instrs, i.isPhi = true → ∀ o ∈ i.uses, o = .temp ⟨"%y"⟩ := by decide
    cases huses _ hi rfl _ ho'
    cases ht
  exact ⟨hphi, by decide, ((Cfg.memory_read_before summed).2.2 1).2 hphi⟩

/-- Returns what a phi loaded from memory before a call. -/
def loaded : Cfg where
  proc := "@main"
  entry := ⟨"A"⟩
  blocks := [
    ⟨⟨"A"⟩, [], [.jump ⟨"B"⟩]⟩,
    ⟨⟨"B"⟩, [.phi ⟨"%x"⟩ (.ofList [(⟨"A"⟩, .temp ⟨"@g"⟩)]), .call none "@f" 0], [.ret (some (.temp ⟨"%x"⟩))]⟩]

/-- Phis of locals that read globals have to be left out: the return reads memory behind the call. -/
theorem not_sameMemory_minimize_loaded : Cfg.ofBlocks loaded.proc loaded.blocks = .ok loaded ∧
    ¬ loaded.Alters Operand.SameMemory (PhiMinimization.minimize PhiMinimization.defaultRounds loaded).cfg := by
  refine ⟨rfl, fun h => ?_⟩
  have hret : ⟨⟨"B"⟩, [.call none "@f" 0], [.ret (some (.temp ⟨"@g"⟩))]⟩ ∈
      (PhiMinimization.minimize PhiMinimization.defaultRounds loaded).cfg.blocks := by decide
  obtain ⟨b, hb, -, hremnant⟩ := h _ hret
  obtain ⟨i, hi, halters⟩ := hremnant.of_mem (mem_readers.2 ⟨List.mem_append_right _ List.mem_cons_self, by decide⟩)
  obtain ⟨o, ho, hsame⟩ := halters.read (.operand 0) (.temp ⟨"@g"⟩) rfl
  have hnone : ∀ i ∈ loaded.instrs, i.read? (.operand 0) ≠ some (.temp ⟨"@g"⟩) := by decide
  exact hnone i (List.mem_flatMap.2 ⟨b, hb, hi⟩) (hsame ⟨"@g"⟩ (by decide) rfl ▸ ho)

end ThreeAddress

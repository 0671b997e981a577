import ThreeAddress.Proofs.CommonSubexpr.Steady
import ThreeAddress.Proofs.Computed
import ThreeAddress.Proofs.FormCheck
/-!
# Dominance is enough, but for loops

In SSA form a dominator should be able to supply whatever it computes: its operands and its result are written once,
in front of it. Where reuse within blocks finds nothing to do, the only thing that can stand against it is a loop that
leads from the dominator back to a block that writes an operand, and on to the place of the reuse, which has to pass
the dominator again. `writesBetween` takes that for a write on the way, also if it is a phi of the dominator itself
(`not_dominated_loop`). Everything else is reused (`eliminateGlobal_dominated`).
-/

namespace ThreeAddress

variable {params : List Temp} {c : Cfg}

namespace Cfg

/-- The block `l` computes the expression. -/
def Computes (c : Cfg) (l : Label) (e : Expr) : Prop :=
  ∃ b ∈ c.blocks, b.label = l ∧ ∃ i ∈ b.body, Expr.of? i = some e

/-- Some block that can be come to from `k`, and left for `l`, writes an operand of the expression. -/
def OperandWritten (c : Cfg) (k l : Label) (e : Expr) : Prop :=
  ∃ b ∈ c.blocks, c.Leads k b.label ∧ c.Leads b.label l ∧ ∃ i ∈ b.instrs, ∃ t ∈ e.temps, i.dest? = some t

/-- A graph in strict SSA form that puts results into locals, and in which reuse within blocks finds nothing to do. -/
structure LocallyReused (params : List Temp) (c : Cfg) : Prop extends c.Strict params where
  /-- No local is written twice, by jumps neither. -/
  once : (c.instrs.filterMap Instr.localDest?).Nodup
  results : ∀ b ∈ c.blocks, ∀ i ∈ b.body, ∀ e t, Expr.ofInstr? i = some e → i.dest? = some t → t.isGlobal = false
  fixed : (CommonSubexpr.eliminateLocal c).cfg = c

open CommonSubexpr

/-! ## Bodies -/

section

variable {l : Label} {e : Expr} {t : Temp} {pre is is' : List Instr}

theorem Reused.result (h : c.Reused l pre is is') (hr : Result is' e t) : Result is e t := by
  obtain ⟨i', hi', he, ht⟩ := hr
  obtain ⟨before, i, hi, hii⟩ := h.exists_of_mem hi'
  obtain rfl := hii.eq_of_of? he
  exact ⟨i, hi, he, ht⟩

/-- Copies in the place of computations undo no result. -/
theorem Reused.steady (h : c.Reused l pre is is') (hs : Steady is) : Steady is' where
  spares hsplit hr := by
    obtain ⟨before, i, after, hsplit, hbefore, hii⟩ := h.exists_of_split hsplit
    intro x hx
    exact hs.spares hsplit (hbefore.result hr) x (hii.dest?_eq ▸ hx)
  own hi' he ht := by
    obtain ⟨before, i, hi, hii⟩ := h.exists_of_mem hi'
    obtain rfl := hii.eq_of_of? he
    exact hs.own hi he ht

end

namespace LocallyReused

variable {l : Label} {e : Expr} {x : Temp} {b d : Block}

/-- An instruction that a result reaches spares it. -/
theorem spares (h : c.LocallyReused params) (hd : d ∈ c.blocks) {i : Instr} (hi : i ∈ d.body)
    (he : Expr.of? i = some e) (hx : i.dest? = some x) (hb : b ∈ c.blocks) (hr : c.Reachable b.label)
    {pre post : List Instr} {j : Instr} (hsplit : b.body = pre ++ j :: post) (hdef : c.DefinedAt b.label pre x) :
    j.Spares e x := by
  obtain ⟨before, after, hsplit'⟩ := List.append_of_mem hi
  have hlocal := h.results d hd i hi e x (Expr.of?_eq_some.1 he).1 hx
  refine fun y hy => ⟨?_, fun hmem => ?_⟩
  · rintro rfl
    exact not_definedAt_site h.single hlocal hb hsplit hy hr hdef
  · have hread : .temp y ∈ i.uses := Expr.operands_of_of? he ▸ Expr.mem_temps.1 hmem
    exact h.not_writes_operand hd hsplit' (Expr.plain_of_of? he).1 hx hlocal hread (Expr.isGlobal_of_mem_temps he hmem)
      hb hr hsplit hdef hy

/-- Blocks that can be reached undo no result. -/
theorem steady (h : c.LocallyReused params) (hb : b ∈ c.blocks) (hr : c.Reachable b.label) : Steady b.body where
  spares {pre post i e t} hsplit hresult := by
    obtain ⟨j, hj, he, ht⟩ := hresult
    exact h.spares hb (by simp [hsplit, hj]) he ht hb hr hsplit (.inl ⟨j, hj, ht⟩)
  own {i e t} hi he ht hmem := by
    obtain ⟨pre, post, hsplit⟩ := List.append_of_mem hi
    have hlocal := Expr.isGlobal_of_mem_temps he hmem
    have hw : t ∈ c.writtenLocals := mem_writtenLocals.2 ⟨b, hb, i, hi, ht, hlocal⟩
    rw [Expr.temps_of_ofInstr? (Expr.of?_eq_some.1 he).1] at hmem
    exact not_definedAt_site h.single hlocal hb hsplit ht hr (h.read hb hsplit (Expr.plain_of_of? he).1 hmem hw)

theorem reuseBody_eq (h : c.LocallyReused params) (hb : b ∈ c.blocks) : reuseBody [] b.body = b.body := by
  have hblock : b.reuseLocal = b := map_eq_self_iff.1 (congrArg Cfg.blocks h.fixed) b hb
  exact congrArg Block.body hblock

end LocallyReused

/-! ## Supply by dominators -/

/-- Two places among all instructions that write one local are the same. -/
theorem eq_of_once (h : (c.instrs.filterMap Instr.localDest?).Nodup) {b b' : Block} (hb : b ∈ c.blocks)
    (hb' : b' ∈ c.blocks) {n n' : Nat} {i i' : Instr} (hi : b.instrs[n]? = some i) (hi' : b'.instrs[n']? = some i')
    {t : Temp} (ht : i.localDest? = some t) (ht' : i'.localDest? = some t) : b = b' ∧ n = n' := by
  rw [instrs, List.filterMap_flatMap] at h
  obtain rfl := eq_of_nodup_flatMap h hb hb' (List.mem_of_getElem? hi) (List.mem_of_getElem? hi') ht ht'
  have hsplit : ∀ {n : Nat} {i}, b.instrs[n]? = some i → b.instrs = b.instrs.take n ++ i :: b.instrs.drop (n + 1) := by
    intro n i hi
    obtain ⟨hn, rfl⟩ := List.getElem?_eq_some_iff.1 hi
    rw [List.getElem_cons_drop, List.take_append_drop]
  obtain ⟨heq, -⟩ := eq_of_nodup_filterMap ((List.nodup_flatMap.1 h).1 b hb) ht ht' (hsplit hi) (hsplit hi')
  have hlength := congrArg List.length heq
  have hn := (List.getElem?_eq_some_iff.1 hi).1
  have hn' := (List.getElem?_eq_some_iff.1 hi').1
  simp only [List.length_take] at hlength
  exact ⟨rfl, by omega⟩

section

variable {f : Block → List Instr} {k l : Label} {e : Expr}

theorem mem_labels_withBodies : l ∈ (c.withBodies f).labels ↔ l ∈ c.labels := by
  rw [withBodies, labels_mapBlocks (f := fun b => ⟨b.label, f b, b.jumps⟩) fun _ => rfl]

theorem leads_withBodies : (c.withBodies f).Leads k l ↔ c.Leads k l := by
  have hedge : (c.withBodies f).Edge = c.Edge := funext fun _ => funext fun _ => propext edge_withBodies
  rw [Leads, hedge]

theorem Reuses.computes (hf : c.Reuses f) (h : (c.withBodies f).Computes l e) : c.Computes l e := by
  obtain ⟨b', hb', hl, i', hi', he⟩ := h
  obtain ⟨b, hb, hlabel, pre, i, hi, hii⟩ := hf.exists_of_mem hb' hi'
  obtain rfl := hii.eq_of_of? he
  exact ⟨b, hb, hlabel.trans hl, i, hi, he⟩

/-- Places of a block write what they wrote. -/
theorem Reuses.dest_place (hf : c.Reuses f) {b : Block} (hb : b ∈ c.blocks) {n : Nat} {t : Temp} :
    (∃ i, (f b ++ b.jumps)[n]? = some i ∧ i.dest? = some t) ↔ ∃ i, b.instrs[n]? = some i ∧ i.dest? = some t := by
  rw [← Option.map_eq_some_iff, ← Option.map_eq_some_iff, ← List.getElem?_map, ← List.getElem?_map, List.map_append,
    (hf b hb).map_dest?, Block.instrs, List.map_append]

/-- Between two blocks is written what was written there. -/
theorem Reuses.writesBetween_eq (hf : c.Reuses f) (h : c.Valid) (hk : k ∈ c.labels) (hl : l ∈ c.labels) (skip : Nat)
    (temps : List Temp) : (c.withBodies f).writesBetween k skip l temps = c.writesBetween k skip l temps := by
  rw [Bool.eq_iff_iff, (hf.valid h).writesBetween_iff (mem_labels_withBodies.2 hk) (mem_labels_withBodies.2 hl),
    h.writesBetween_iff hk hl]
  constructor
  · rintro ⟨_, hmem, hkb, hbl, n, i, t, hi, hskip, hit, ht⟩
    obtain ⟨b, hb, rfl⟩ := mem_withBodies.1 hmem
    obtain ⟨i₀, hi₀, hit₀⟩ := (hf.dest_place hb).1 ⟨i, hi, hit⟩
    exact ⟨b, hb, leads_withBodies.1 hkb, leads_withBodies.1 hbl, n, i₀, t, hi₀, hskip, hit₀, ht⟩
  · rintro ⟨b, hb, hkb, hbl, n, i, t, hi, hskip, hit, ht⟩
    obtain ⟨i₀, hi₀, hit₀⟩ := (hf.dest_place hb).2 ⟨i, hi, hit⟩
    exact ⟨_, mem_withBodies.2 ⟨b, hb, rfl⟩, leads_withBodies.2 hkb, leads_withBodies.2 hbl, n, i₀, t, hi₀, hskip, hit₀,
      ht⟩

namespace LocallyReused

variable {b d : Block} {holder : Holder}

/-- What the end of a block holds is written at its place there, and nowhere else. -/
theorem place_of_held (h : c.LocallyReused params) (hf : c.Reuses f) (hd : d ∈ c.blocks)
    (hheld : (heldAtExit (f d)).lookup e = some holder) {n : Nat} (hb : b ∈ c.blocks) :
    (∃ i, b.instrs[n]? = some i ∧ i.dest? = some holder.temp) ↔ b = d ∧ n = holder.index := by
  obtain ⟨i', hi', he, ht'⟩ := exists_of_mem_heldAtExit (mem_of_lookup hheld)
  obtain ⟨i, hi, ht⟩ := (hf.dest_place hd).1
    ⟨i', (List.getElem?_append_left (List.getElem?_eq_some_iff.1 hi').1).trans hi', ht'⟩
  have hlocal : holder.temp.isGlobal = false := by
    obtain ⟨j, hj, hje, hjt⟩ := (hf d hd).result ⟨i', List.mem_of_getElem? hi', he, ht'⟩
    exact h.results d hd j hj e holder.temp (Expr.of?_eq_some.1 hje).1 hjt
  constructor
  · rintro ⟨j, hj, hjt⟩
    exact eq_of_once h.once hb hd hj hi (Instr.localDest?_eq_some.2 ⟨hjt, hlocal⟩)
      (Instr.localDest?_eq_some.2 ⟨ht, hlocal⟩)
  · rintro ⟨rfl, rfl⟩
    exact ⟨i, hi, ht⟩

/-- Something that the end of a block holds is no operand of what it is held for. -/
theorem notMem_temps_of_held (h : c.LocallyReused params) (hf : c.Reuses f) (hd : d ∈ c.blocks)
    (hr : c.Reachable d.label) (hheld : (heldAtExit (f d)).lookup e = some holder) : holder.temp ∉ e.temps := by
  obtain ⟨i, hi, he, ht⟩ := exists_of_mem_heldAtExit (mem_of_lookup hheld)
  exact ((hf d hd).steady (h.steady hd hr)).own (List.mem_of_getElem? hi) he ht

/-- What is written on the way from where a result is held is not that result, so that only the operands matter. -/
theorem writesBetween_iff_operandWritten (h : c.LocallyReused params) (hf : c.Reuses f) (hb : b ∈ c.blocks)
    (hd : d ∈ c.blocks) (hr : c.Reachable d.label) (hheld : (heldAtExit (f d)).lookup e = some holder) :
    (c.withBodies f).writesBetween d.label holder.index b.label (holder.temp :: e.temps) = true ↔
      c.OperandWritten d.label b.label e := by
  rw [hf.writesBetween_eq h.toValid (List.mem_map_of_mem hd) (List.mem_map_of_mem hb),
    h.toValid.writesBetween_iff (List.mem_map_of_mem hd) (List.mem_map_of_mem hb)]
  constructor
  · rintro ⟨w, hw, hkw, hwl, n, i, t, hi, hskip, hit, ht⟩
    rcases List.mem_cons.1 ht with rfl | ht
    · obtain ⟨rfl, rfl⟩ := (h.place_of_held hf hd hheld hw).1 ⟨i, hi, hit⟩
      exact absurd rfl (hskip rfl)
    · exact ⟨w, hw, hkw, hwl, i, List.mem_of_getElem? hi, t, ht, hit⟩
  · rintro ⟨w, hw, hkw, hwl, i, hi, t, ht, hit⟩
    obtain ⟨n, hn⟩ := List.mem_iff_getElem?.1 hi
    refine ⟨w, hw, hkw, hwl, n, i, t, hn, ?_, hit, List.mem_cons_of_mem holder.temp ht⟩
    -- the computation itself writes none of its operands
    rintro hlabel rfl
    obtain rfl := h.eq_of_label hw hd hlabel
    obtain ⟨j, hj, hjt⟩ := (h.place_of_held hf hd hheld hd).2 ⟨rfl, rfl⟩
    cases hj.symm.trans hn
    cases hjt.symm.trans hit
    exact h.notMem_temps_of_held hf hd hr hheld ht

/-- Where no operand is written on the way, a dominator that computes an expression supplies it. -/
theorem exists_holderAt (h : c.LocallyReused params) (hf : c.Reuses f) (hb : b ∈ c.blocks) (hr : c.Reachable b.label)
    (hk : k ∈ c.dominance.strict b.label) (he : (c.withBodies f).Computes k e) (hw : ¬ c.OperandWritten k b.label e)
    (n : Nat) : ∃ t, (c.withBodies f).holderAt? ⟨b.label, f b, b.jumps⟩ n e k = some t := by
  obtain ⟨d', hd', rfl, i, hi, hie⟩ := he
  obtain ⟨d, hd, rfl⟩ := mem_withBodies.1 hd'
  have hrd : c.Reachable d.label := hr.of_dominated fun _ hls => h.mem_of_mem_strict hk hls
  -- some computation is held at the end of the dominator
  obtain ⟨x, hx⟩ := Expr.exists_dest hie
  obtain ⟨_, index, hheld⟩ := ((hf d hd).steady (h.steady hd hrd)).heldBehind ⟨i, hi, hie, hx⟩
  obtain ⟨holder, hholder⟩ : ∃ holder, (heldAtExit (f d)).lookup e = some holder :=
    Option.ne_none_iff_exists'.1 fun hnone => by simpa using List.lookup_eq_none_iff.1 hnone _ hheld
  have hblock : (c.withBodies f).block? d.label = some ⟨d.label, f d, d.jumps⟩ :=
    block?_withBodies (h.block?_of_mem hd)
  refine ⟨holder.temp, holderAt?_eq_some.2 ⟨_, holder, hblock, hholder, rfl, fun j hj hjt => ?_, ?_⟩⟩
  · obtain ⟨m, hm⟩ := List.mem_iff_getElem?.1 (List.mem_append_left b.jumps (List.mem_of_mem_take hj))
    obtain ⟨rfl, -⟩ := (h.place_of_held hf hd hholder hb).1 ((hf.dest_place hb).1 ⟨j, hm, hjt⟩)
    exact h.ne_of_mem_strict hk rfl
  · exact Bool.eq_false_iff.2 (mt (h.writesBetween_iff_operandWritten hf hb hd hrd hholder).1 hw)

/-- Where an operand is written on the way, a dominator supplies nothing. -/
theorem holderAt?_ne_some (h : c.LocallyReused params) (hf : c.Reuses f) (hb : b ∈ c.blocks)
    (hr : c.Reachable b.label) (hk : k ∈ c.dominance.strict b.label)
    (hw : c.Computes k e → c.OperandWritten k b.label e) (n : Nat) (t : Temp) :
    (c.withBodies f).holderAt? ⟨b.label, f b, b.jumps⟩ n e k ≠ some t := by
  intro hholder
  obtain ⟨d', holder, hd', hheld, rfl, -, hbetween⟩ := holderAt?_eq_some.1 hholder
  obtain ⟨d, hd, rfl⟩ := mem_withBodies.1 (mem_of_block? hd')
  have hlabel := label_of_block? hd'
  obtain rfl : d.label = k := hlabel
  have hrd : c.Reachable d.label := hr.of_dominated fun _ hls => h.mem_of_mem_strict hk hls
  obtain ⟨i, hi, hie, -⟩ := exists_of_mem_heldAtExit (mem_of_lookup hheld)
  have hcomputes : (c.withBodies f).Computes d.label e :=
    ⟨_, mem_withBodies.2 ⟨d, hd, rfl⟩, rfl, i, List.mem_of_getElem? hi, hie⟩
  have hwrites := (h.writesBetween_iff_operandWritten hf hb hd hrd hheld).2 (hw (hf.computes hcomputes))
  cases hwrites.symm.trans hbetween

end LocallyReused

/-- A block writes no operand of what a strict dominator computes. -/
theorem LocallyReused.not_mem_temps_of_dominated (h : c.LocallyReused params) {b : Block} (hb : b ∈ c.blocks)
    (hr : c.Reachable b.label) (hk : k ∈ c.dominance.strict b.label) (hek : c.Computes k e) {j : Instr}
    (hj : j ∈ b.body) {x : Temp} (hx : j.dest? = some x) : x ∉ e.temps := by
  obtain ⟨d, hd, rfl, i, hi, he⟩ := hek
  obtain ⟨y, hy⟩ := Expr.exists_dest he
  obtain ⟨pre, post, hsplit⟩ := List.append_of_mem hj
  have hdef : c.DefinedAt b.label pre y := .inr fun ls hls =>
    ⟨d.label, h.mem_of_mem_strict hk hls, d, hd, rfl, i, hi, hy⟩
  exact (h.spares hd hi he hy hb hr hsplit hdef x hx).2

theorem of?_copied {copies : List (Nat × Temp)} {i : Instr} {n : Nat} (he : Expr.of? (copied copies (i, n)) = some e) :
    Expr.of? i = some e ∧ copies.lookup n = none := by
  unfold copied at he
  split at he
  · cases he
  · rename_i hcopies
    obtain ⟨x, hx⟩ := Expr.exists_dest he
    exact ⟨he, Option.eq_none_iff_forall_ne_some.2 fun t ht => hcopies t x ht hx⟩

/-- A computation of what a dominator computes is the first one, and its operands are from in front of the block. -/
theorem LocallyReused.mem_cleanFirst (h : c.LocallyReused params) (hf : c.Reuses f) {b : Block} (hb : b ∈ c.blocks)
    (hr : c.Reachable b.label) (hk : k ∈ c.dominance.strict b.label) (hek : c.Computes k e) {i : Instr} {n : Nat}
    (hi : (i, n) ∈ (f b).zipIdx) (he : Expr.of? i = some e) : (n, e) ∈ cleanFirst [] [] (f b).zipIdx := by
  obtain ⟨before, after, hzip⟩ := List.append_of_mem hi
  have hsplit : f b = before.map Prod.fst ++ i :: after.map Prod.fst := by
    rw [← List.zipIdx_map_fst 0 (f b), hzip, List.map_append, List.map_cons]
  obtain ⟨before₀, i₀, after₀, hsplit₀, hbefore, hii⟩ := (hf b hb).exists_of_split hsplit
  obtain rfl := hii.eq_of_of? he
  have hplace : ∀ j ∈ before, ∃ pre, ∃ j₀ ∈ before₀, c.Replaced b.label pre j₀ j.1 := fun j hj =>
    hbefore.exists_of_mem (List.mem_map_of_mem hj)
  refine CommonSubexpr.mem_cleanFirst hzip he nofun (fun j hj hje => ?_) nofun fun j hj x hx => ?_
  · obtain ⟨pre, j₀, hj₀, hjj⟩ := hplace j hj
    obtain rfl := hjj.eq_of_of? hje
    exact (h.steady hb hr).first_of_reuseBody (h.reuseBody_eq hb) hsplit₀ he _ hj₀ hje
  · obtain ⟨pre, j₀, hj₀, hjj⟩ := hplace j hj
    exact h.not_mem_temps_of_dominated hb hr hk hek (by simp [hsplit₀, hj₀]) (hjj.dest?_eq ▸ hx)

/-- A computation of what a dominator computes is left only where that dominator has nothing to supply. -/
theorem LocallyReused.exists_place (h : c.LocallyReused params) (hf : c.Reuses f) {b : Block} (hb : b ∈ c.blocks)
    (hr : c.Reachable b.label) (hk : k ∈ c.dominance.strict b.label) (hek : c.Computes k e) {i' : Instr}
    (hi' : i' ∈ visit c.dominance (c.withBodies f) b.label ⟨b.label, f b, b.jumps⟩) (he : Expr.of? i' = some e) :
    ∃ n, (c.withBodies f).holderAt? ⟨b.label, f b, b.jumps⟩ n e k = none := by
  obtain ⟨⟨i, n⟩, hi, rfl⟩ := List.mem_map.1 hi'
  obtain ⟨he, hcopies⟩ := of?_copied he
  rw [copiesAt, if_pos rfl] at hcopies
  refine ⟨n, ?_⟩
  by_contra hsome
  obtain ⟨t, ht⟩ : ∃ t, (c.dominance.closestFirst b.label).findSome?
      ((c.withBodies f).holderAt? ⟨b.label, f b, b.jumps⟩ n e) = some t :=
    Option.ne_none_iff_exists'.1 fun hnone => hsome (List.findSome?_eq_none_iff.1 hnone k (mem_closestFirst.2 hk))
  have hplace : (n, t) ∈ (c.withBodies f).reusable c.dominance ⟨b.label, f b, b.jumps⟩ :=
    List.mem_filterMap.2 ⟨(n, e), h.mem_cleanFirst hf hb hr hk hek hi he, by rw [ht]; rfl⟩
  simpa using List.lookup_eq_none_iff.1 hcopies _ hplace

/-- Bodies stay in the same dominance. -/
theorem Reuses.mem_strict_iff (hf : c.Reuses f) (h : c.Valid) (hk : k ∈ c.labels) (hl : l ∈ c.labels) :
    k ∈ (c.withBodies f).dominance.strict l ↔ k ∈ c.dominance.strict l := by
  rw [h.mem_strict_iff hk hl, (hf.valid h).mem_strict_iff (mem_labels_withBodies.2 hk) (mem_labels_withBodies.2 hl)]
  simp only [path_withBodies]

theorem Computes.mem_labels (h : c.Computes l e) : l ∈ c.labels := by
  obtain ⟨b, hb, rfl, -⟩ := h
  exact List.mem_map_of_mem hb

end

end Cfg

namespace CommonSubexpr

variable {f : Block → List Instr} {k l m : Label} {e : Expr}

/-! ## One block after another -/

/-- The bodies when one more block has been visited. -/
def visited (c : Cfg) (f : Block → List Instr) (m : Label) (b : Block) : List Instr :=
  visit c.dominance (c.withBodies f) m ⟨b.label, f b, b.jumps⟩

theorem reuses_visit_withBodies (h : c.Valid) (hf : c.Reuses f) (m : Label) :
    (c.withBodies f).Reuses (visit c.dominance (c.withBodies f) m) :=
  reuses_visit (hf.valid h) fun _ hk _ hls =>
    h.mem_of_mem_strict (Cfg.mem_closestFirst.1 hk) (Cfg.path_withBodies.1 hls)

theorem reuses_visited (h : c.Valid) (hf : c.Reuses f) (m : Label) : c.Reuses (visited c f m) :=
  hf.trans (reuses_visit_withBodies h hf m)

theorem computes_of_visited (h : c.Valid) (hf : c.Reuses f) (he : (c.withBodies (visited c f m)).Computes l e) :
    (c.withBodies f).Computes l e := by
  have heq := c.withBodies_withBodies f (visit c.dominance (c.withBodies f) m)
  exact (reuses_visit_withBodies h hf m).computes (heq ▸ he)

/-- What the visit of a block brings about, and the visits of others keep, holds in the end. -/
theorem eliminateGlobal_visited {motive : (Block → List Instr) → Prop} (h : c.Valid) (hl : l ∈ c.labels)
    (hat : ∀ {f}, c.Reuses f → motive (visited c f l))
    (hkeeps : ∀ {f m}, c.Reuses f → motive f → motive (visited c f m)) :
    ∃ f, c.Reuses f ∧ (eliminateGlobal c).cfg = c.withBodies f ∧ motive f := by
  have key : ∀ (ls : List Label) (r : Transformed) {f}, c.Reuses f → r.cfg = c.withBodies f → l ∈ ls ∨ motive f →
      ∃ f, c.Reuses f ∧ (ls.foldl (eliminateAt c.dominance) r).cfg = c.withBodies f ∧ motive f := by
    intro ls
    induction ls with
    | nil => exact fun r f hf hr hm => ⟨f, hf, hr, hm.resolve_left nofun⟩
    | cons m ls ih =>
      intro r f hf hr hm
      have hcfg : (eliminateAt c.dominance r m).cfg = c.withBodies (visited c f m) := by
        rw [eliminateAt_cfg c.dominance r (hr ▸ hf.valid h) m, hr, Cfg.withBodies_withBodies]
        rfl
      refine ih _ (reuses_visited h hf m) hcfg ?_
      rcases hm with hm | hm
      · rcases List.mem_cons.1 hm with rfl | hm
        · exact .inr (hat hf)
        · exact .inl hm
      · exact .inr (hkeeps hf hm)
  exact key c.labels ⟨c, [], false⟩ (Cfg.Reuses.refl c) c.withBodies_body.symm (.inl hl)

/-- Where a block and a dominator go on computing the same, an operand is written between them. -/
theorem operandWritten_of_computes (h : c.LocallyReused params) (hr : c.Reachable l) (hk : k ∈ c.dominance.strict l)
    (hel : (eliminateGlobal c).cfg.Computes l e) (hek : (eliminateGlobal c).cfg.Computes k e) :
    c.OperandWritten k l e := by
  have hlabel : l ∈ c.labels := by
    obtain ⟨u, v, -, hv, -⟩ := (Cfg.mem_strict_iff_nodes h.nodup).1 hk
    exact List.mem_of_getElem? hv
  have hat : ∀ {f}, c.Reuses f → (c.withBodies (visited c f l)).Computes l e →
      (c.withBodies (visited c f l)).Computes k e → c.OperandWritten k l e := by
    rintro f hf ⟨b', hb', hl, i', hi', he⟩ hek
    obtain ⟨b, hb, rfl⟩ := Cfg.mem_withBodies.1 hb'
    obtain rfl : b.label = l := hl
    have hek := computes_of_visited h.toValid hf hek
    obtain ⟨n, hnone⟩ := h.exists_place hf hb hr hk (hf.computes hek) hi' he
    by_contra hw
    obtain ⟨t, ht⟩ := h.exists_holderAt hf hb hr hk hek hw n
    rw [hnone] at ht
    cases ht
  obtain ⟨f, -, hcfg, hf⟩ := eliminateGlobal_visited (motive := fun f => (c.withBodies f).Computes l e →
      (c.withBodies f).Computes k e → c.OperandWritten k l e) h.toValid hlabel hat fun hf hm hel hek =>
    hm (computes_of_visited h.toValid hf hel) (computes_of_visited h.toValid hf hek)
  rw [hcfg] at hel hek
  exact hf hel hek

/-- A computation stays where an operand is written between it and each dominator that computes the same. -/
theorem computes_of_operandWritten (h : c.LocallyReused params) (hr : c.Reachable l) (hel : c.Computes l e)
    (hw : ∀ k ∈ c.dominance.strict l, c.Computes k e → c.OperandWritten k l e) :
    (eliminateGlobal c).cfg.Computes l e := by
  have key : ∃ f, c.Reuses f ∧ (eliminateGlobal c).cfg = c.withBodies f ∧ (c.withBodies f).Computes l e := by
    refine eliminateGlobal_induction (motive := fun c' => ∃ f, c.Reuses f ∧ c' = c.withBodies f ∧
      (c.withBodies f).Computes l e) h.toValid ⟨_, .refl c, c.withBodies_body.symm, c.withBodies_body.symm ▸ hel⟩ ?_
    rintro _ m - ⟨f, hf, rfl, b', hb', hl, i, hi, he⟩ -
    obtain ⟨b, hb, rfl⟩ := Cfg.mem_withBodies.1 hb'
    obtain rfl : b.label = l := hl
    refine ⟨visited c f m, reuses_visited h.toValid hf m, Cfg.withBodies_withBodies .., _,
      Cfg.mem_withBodies.2 ⟨b, hb, rfl⟩, rfl, i, ?_, he⟩
    obtain ⟨pre, post, hsplit⟩ := List.append_of_mem hi
    have hsplit : f b = pre ++ i :: post := hsplit
    have hplace : (i, pre.length) ∈ (f b).zipIdx := List.mem_zipIdx_iff_getElem?.2 (by simp [hsplit])
    have hcases := copied_cases_holderAt (c := c.withBodies f) (d := c.dominance) (l := m)
      (b := ⟨b.label, f b, b.jumps⟩) hsplit
    refine List.mem_map.2 ⟨_, hplace, hcases.resolve_right ?_⟩
    rintro ⟨e', -, k, t, -, he', -, rfl, hk, hholder, -⟩
    obtain rfl := Option.some.inj (he.symm.trans he')
    have hk : k ∈ c.dominance.strict b.label := Cfg.mem_closestFirst.1 hk
    exact h.holderAt?_ne_some hf hb hr hk (hw k hk) _ _ hholder
  obtain ⟨f, -, hcfg, hf⟩ := key
  exact hcfg ▸ hf

/-! ## The law -/

/-- In SSA form, after reuse within blocks, a block that can be reached and a strict dominator of it go on computing
the same only if some block on a way from the one to the other writes an operand. And where such a block is in the
way of each dominator that computes the same, nothing is reused. -/
theorem eliminateGlobal_dominated (h : c.LocallyReused params) :
    (∀ l e, (eliminateGlobal c).cfg.Reachable l → ∀ k ∈ (eliminateGlobal c).cfg.dominance.strict l,
      (eliminateGlobal c).cfg.Computes l e → (eliminateGlobal c).cfg.Computes k e → c.OperandWritten k l e) ∧
    ∀ l e, c.Reachable l → c.Computes l e → (∀ k ∈ c.dominance.strict l, c.Computes k e → c.OperandWritten k l e) →
      (eliminateGlobal c).cfg.Computes l e := by
  refine ⟨fun l e ⟨ls, hls⟩ k hk hel hek => ?_, fun l e hr hel hw => computes_of_operandWritten h hr hel hw⟩
  obtain ⟨f, hf, hcfg⟩ : ∃ f, c.Reuses f ∧ (eliminateGlobal c).cfg = c.withBodies f := by
    refine eliminateGlobal_induction (motive := fun c' => ∃ f, c.Reuses f ∧ c' = c.withBodies f) h.toValid
      ⟨_, .refl c, c.withBodies_body.symm⟩ ?_
    rintro _ m - ⟨f, hf, rfl⟩ -
    exact ⟨visited c f m, reuses_visited h.toValid hf m, Cfg.withBodies_withBodies ..⟩
  have hdom : k ∈ c.dominance.strict l := by
    rw [hcfg] at hk hel hek
    exact (hf.mem_strict_iff h.toValid (hf.computes hek).mem_labels (hf.computes hel).mem_labels).1 hk
  exact operandWritten_of_computes h ⟨ls, Cfg.path_withBodies.1 (hcfg ▸ hls)⟩ hdom hel hek

/-- A loop that counts in its head and again in its body, between two computations of what never changes. -/
def loop : Cfg where
  proc := "@main"
  entry := ⟨"start"⟩
  blocks := [
    ⟨⟨"start"⟩, [.binary ⟨"%0"⟩ .add (.temp ⟨"%n"⟩) (.imm 1)], [.jump ⟨"head"⟩]⟩,
    ⟨⟨"head"⟩,
      [.phi ⟨"%i.1"⟩ (.ofList [(⟨"body"⟩, .temp ⟨"%i.2"⟩), (⟨"start"⟩, .temp ⟨"%n"⟩)]),
        .binary ⟨"%1"⟩ .add (.temp ⟨"%i.1"⟩) (.imm 1)],
      [.jump ⟨"body"⟩]⟩,
    ⟨⟨"body"⟩, [.binary ⟨"%i.2"⟩ .add (.temp ⟨"%i.1"⟩) (.imm 1)],
      [.branch .jz (.temp ⟨"%i.2"⟩) ⟨"exit"⟩, .jump ⟨"head"⟩]⟩,
    ⟨⟨"exit"⟩, [.binary ⟨"%2"⟩ .add (.temp ⟨"%n"⟩) (.imm 1)], [.ret (some (.temp ⟨"%2"⟩))]⟩]

theorem locallyReused_loop : loop.LocallyReused [⟨"%n"⟩] := by
  have hvalid : Cfg.ofBlocks loop.proc loop.blocks = .ok loop := rfl
  refine ⟨(Cfg.ofBlocks_eq_ok.1 hvalid).2.2.strict (by decide +kernel), by decide, fun b hb i hi e t _ ht => ?_, rfl⟩
  have hdest : ∀ b ∈ loop.blocks, ∀ i ∈ b.body, i.dest?.all (!·.isGlobal) = true := by decide
  simpa [ht] using hdest b hb i hi

/-- What reuse along dominators makes of `loop`. -/
def loopReused : Cfg :=
  loop.modify ⟨"exit"⟩ fun b => { b with body := [.copy ⟨"%2"⟩ (.temp ⟨"%0"⟩)] }

theorem eliminateGlobal_loop : (eliminateGlobal loop).cfg = loopReused := by
  have hclosest : loop.dominance.closestFirst = loop.dominance.strict := Cfg.closestFirst_eq_strict (by decide +kernel)
  delta eliminateGlobal eliminateAt Cfg.reuseGlobal Cfg.reusable
  rw [hclosest]
  decide +kernel

/-- What the head and the body of `loop` compute. -/
def counted : Expr := .binary .add (.temp ⟨"%i.1"⟩) (.imm 1)

/-- Both go on computing it. -/
theorem computes_counted : loopReused.Reachable ⟨"body"⟩ ∧ ⟨"head"⟩ ∈ loopReused.dominance.strict ⟨"body"⟩ ∧
    loopReused.Computes ⟨"head"⟩ counted ∧ loopReused.Computes ⟨"body"⟩ counted := by
  have hentry : loopReused.Edge ⟨"start"⟩ ⟨"head"⟩ := Cfg.mem_edges.1 (by decide)
  have hhead : loopReused.Edge ⟨"head"⟩ ⟨"body"⟩ := Cfg.mem_edges.1 (by decide)
  refine ⟨⟨_, (Cfg.Path.entry.step hentry).step hhead⟩, by decide +kernel, ?_, ?_⟩
  · exact ⟨_, .tail _ (.head _), rfl, _, .tail _ (.head _), rfl⟩
  · exact ⟨_, .tail _ (.tail _ (.head _)), rfl, _, .head _, rfl⟩

theorem eliminateGlobal_dominated_loop : loop.LocallyReused [⟨"%n"⟩] ∧
    (eliminateGlobal loop).cfg.Computes ⟨"start"⟩ (.binary .add (.temp ⟨"%n"⟩) (.imm 1)) ∧
    loop.OperandWritten ⟨"head"⟩ ⟨"body"⟩ counted := by
  obtain ⟨hleft, hkept⟩ := eliminateGlobal_dominated locallyReused_loop
  refine ⟨locallyReused_loop, ?_, ?_⟩
  · have hnone : loop.dominance.strict ⟨"start"⟩ = [] := by decide +kernel
    refine hkept ⟨"start"⟩ _ loop.reachable_entry ⟨_, .head _, rfl, _, .head _, rfl⟩ fun k hk => ?_
    rw [hnone] at hk
    cases hk
  · rw [eliminateGlobal_loop] at hleft
    obtain ⟨hr, hk, hhead, hbody⟩ := computes_counted
    exact hleft _ _ hr _ hk hbody hhead

/-- The exception is needed: the body of `loop` does not reuse what its head has computed, though the phi that stands
in the way is in front of both. -/
theorem not_dominated_loop : ¬ ∀ (c : Cfg) (params : List Temp), c.LocallyReused params → ∀ l e,
    (eliminateGlobal c).cfg.Reachable l → ∀ k ∈ (eliminateGlobal c).cfg.dominance.strict l,
      (eliminateGlobal c).cfg.Computes l e → ¬ (eliminateGlobal c).cfg.Computes k e := by
  intro h
  have hloop := h loop _ locallyReused_loop
  rw [eliminateGlobal_loop] at hloop
  obtain ⟨hr, hk, hhead, hbody⟩ := computes_counted
  exact hloop _ _ hr _ hk hbody hhead

end CommonSubexpr

end ThreeAddress

import ThreeAddress.Proofs.Simulation
import ThreeAddress.Proofs.Strict
/-!
# What definitions keep true

A computation without side effects leaves in its destination what its operands come to. In strict SSA
form this stays true wherever the destination reaches: neither it nor an operand is written again
before the computation itself is repeated (`Cfg.Strict.computed`). Globals are left out, as any call
may change them.
-/

namespace ThreeAddress

/-- Computations that change nothing but their destination. -/
def Instr.isPure : Instr → Bool
  | .const .. | .copy .. | .binary .. | .unary .. => true
  | _ => false

theorem Instr.not_phi_of_isPure {i : Instr} (h : i.isPure = true) : i.isPhi = false := by
  cases i <;> first | rfl | simp [isPure] at h

namespace Store

/-- The destination of a computation holds what its operands come to. -/
def Holds (σ : Store) (i : Instr) : Prop :=
  ∃ vs w, i.uses.map σ.value? = vs.map some ∧ (∀ calls m, i.Acts calls vs m m (some w)) ∧
    ∀ t, i.dest? = some t → σ.temp? t = some w

theorem Holds.congr {σ σ' : Store} {i : Instr} (h : σ.Holds i)
    (huses : ∀ o ∈ i.uses, σ'.value? o = σ.value? o)
    (hdest : ∀ t, i.dest? = some t → σ'.temp? t = σ.temp? t) : σ'.Holds i := by
  obtain ⟨vs, w, hv, ha, hd⟩ := h
  refine ⟨vs, w, ?_, ha, fun t ht => (hdest t ht).trans (hd t ht)⟩
  rw [← hv]
  exact List.map_congr_left huses

/-- A computation does the same in every memory. -/
theorem acts_of_isPure {i : Instr} (hi : i.isPure = true) {calls : Calls} {vs : List Int64}
    {m m' : Memory} {w : Option Int64} (h : i.Acts calls vs m m' w) :
    ∃ v, w = some v ∧ ∀ calls m, i.Acts calls vs m m (some v) := by
  cases i with
  | const d k =>
    obtain ⟨rfl, -, rfl⟩ := h
    exact ⟨k, rfl, fun _ _ => ⟨rfl, rfl, rfl⟩⟩
  | copy d s =>
    obtain ⟨v, rfl, -, rfl⟩ := h
    exact ⟨v, rfl, fun _ _ => ⟨v, rfl, rfl, rfl⟩⟩
  | binary d op l r =>
    obtain ⟨u, v, k, rfl, he, -, rfl⟩ := h
    exact ⟨k, rfl, fun _ _ => ⟨u, v, k, rfl, he, rfl, rfl⟩⟩
  | unary d op o =>
    obtain ⟨v, rfl, -, rfl⟩ := h
    exact ⟨_, rfl, fun _ _ => ⟨v, rfl, rfl, rfl⟩⟩
  | _ => simp [Instr.isPure] at hi

/-- Operands without globals and without the destination keep their values. -/
theorem value?_receive {m : Memory} {σ : Store} {dest? : Option Temp} {w : Option Int64} {o : Operand}
    (hg : ∀ t, o = .temp t → t.isGlobal = false) (hd : ∀ t, o = .temp t → dest? ≠ some t) :
    ((Store.mk m σ.locals).receive dest? w).value? o = σ.value? o := by
  cases o with
  | imm k => rfl
  | temp t =>
    have ht := hg t rfl
    rw [value?_temp, value?_temp, temp?_receive_local ht, if_neg (hd t rfl), temp?_of_local ht,
      temp?_of_local ht]

/-- A computation is true behind itself. -/
theorem Exec.holds {calls : Calls} {σ σ' : Store} {i : Instr} (h : σ.Exec calls i σ')
    (hi : i.isPure = true) {x : Temp} (hx : i.dest? = some x) (hlocal : x.isGlobal = false)
    (hg : ∀ t, .temp t ∈ i.uses → t.isGlobal = false) (hself : .temp x ∉ i.uses) : σ'.Holds i := by
  obtain ⟨vs, m, w, hv, ha, rfl⟩ := h
  obtain ⟨v, rfl, ha'⟩ := acts_of_isPure hi ha
  refine ⟨vs, v, ?_, ha', fun t ht => ?_⟩
  · rw [← hv]
    refine List.map_congr_left fun o ho => value?_receive (fun t ht => hg t (ht ▸ ho)) fun t ht hd => ?_
    exact hself (Option.some.inj (hx.symm.trans hd) ▸ ht ▸ ho)
  · cases hx.symm.trans ht
    rw [temp?_receive_local hlocal, if_pos hx]

end Store

namespace Cfg

/-- At a point that can be reached, every local that reaches it holds what it was computed from. -/
def Computed (c : Cfg) (b : Block) (pre : List Instr) (σ : Store) : Prop :=
  c.Reachable b.label ∧ ∀ d ∈ c.blocks, ∀ before i after x, d.body = before ++ i :: after →
    i.isPure = true → i.dest? = some x → x.isGlobal = false →
    (∀ t, .temp t ∈ i.uses → t.isGlobal = false) → c.DefinedAt b.label pre x → σ.Holds i

theorem computed_entry (c : Cfg) {b : Block} (hb : b.label = c.entry) (σ : Store) :
    c.Computed b [] σ := by
  refine ⟨hb ▸ c.reachable_entry, ?_⟩
  rintro d hd before i after x - - - - - (⟨j, hj, -⟩ | hpaths)
  · simp at hj
  · obtain ⟨k, hk, -⟩ := hpaths [] (hb ▸ .entry)
    simp at hk

variable {params : List Temp} {c : Cfg}

/-- What a place reads is not written where the place reaches, other than on the way to it. -/
theorem Strict.not_writes_operand (h : c.Strict params) {d b : Block} {before after : List Instr}
    {i : Instr} {x y : Temp} (hd : d ∈ c.blocks) (hsplit : d.body = before ++ i :: after)
    (hphi : i.isPhi = false) (hx : i.dest? = some x) (hlocal : x.isGlobal = false)
    (hy : .temp y ∈ i.uses) (hylocal : y.isGlobal = false) (hb : b ∈ c.blocks)
    (hr : c.Reachable b.label) {pre post : List Instr} {j : Instr} (hpre : b.body = pre ++ j :: post)
    (hdef : c.DefinedAt b.label pre x) : j.dest? ≠ some y := by
  intro hj
  have hw : y ∈ c.writtenLocals := mem_writtenLocals.2 ⟨b, hb, j, by simp [hpre], hj, hylocal⟩
  have hydef := h.read hd hsplit hphi (Instr.mem_usedTemps.2 hy) hw
  exact not_definedAt_site h.single hylocal hb hpre hj hr
    (definedAt_trans h.single hlocal hd hsplit hx hydef hb hpre hdef)

/-- Computations stay true in strict SSA form. -/
theorem Strict.computed (h : c.Strict params) (calls : Calls) : c.Invariant calls c.Computed where
  enter := by
    rintro p b phis rest σ σ₁ hp hb ⟨hr, hcomp⟩ he hbody hphis hrest hexec
    have hedge : c.Edge p.label b.label := ⟨p, hp, rfl, Store.mem_targets_of_exit? he⟩
    refine ⟨hr.step hedge, fun d hd before i after x hsplit hi hx hlocal hg hdef => ?_⟩
    have hphi := Instr.not_phi_of_isPure hi
    have hnot : ∀ j ∈ phis, j.dest? ≠ some x := by
      intro j hj hjx
      obtain ⟨before', after', hsplit'⟩ := List.append_of_mem hj
      have hsplit' : b.body = before' ++ j :: (after' ++ rest) := by simp [hbody, hsplit']
      obtain ⟨-, -, rfl⟩ := eq_of_site h.single hlocal hd hb hsplit hsplit' hx hjx
      simp [hphis i hj] at hphi
    -- The phis write neither the result nor its operands, so that what holds has held before.
    have hdef : c.DefinedAt b.label [] x := hdef.head_or.resolve_left fun ⟨j, hj, hjx⟩ => hnot j hj hjx
    have hkeeps : ∀ t, t.isGlobal = false → (∀ j ∈ phis, j.dest? ≠ some t) → σ₁.temp? t = σ.temp? t :=
      fun t ht hn => hexec.temp?_of_notMem ht hn
    refine (hcomp d hd before i after x hsplit hi hx hlocal hg
      (hdef.of_edge h.toValid hp hedge)).congr (fun o ho => ?_) fun t ht => ?_
    · cases o with
      | imm k => rfl
      | temp y =>
        refine hkeeps y (hg y ho) fun j hj hjy => ?_
        obtain ⟨before', after', hsplit'⟩ := List.append_of_mem hj
        have hsplit' : b.body = before' ++ j :: (after' ++ rest) := by simp [hbody, hsplit']
        exact h.not_writes_operand hd hsplit hphi hx hlocal ho (hg y ho) hb (hr.step hedge) hsplit'
          (hdef.mono (by simp)) hjy
    · cases hx.symm.trans ht
      exact hkeeps x hlocal hnot
  exec := by
    rintro b pre post j σ σ₁ hb hbody ⟨hr, hcomp⟩ hexec
    refine ⟨hr, fun d hd before i after x hsplit hi hx hlocal hg hdef => ?_⟩
    have hphi := Instr.not_phi_of_isPure hi
    by_cases hjx : j.dest? = some x
    · obtain ⟨rfl, rfl, rfl⟩ := eq_of_site h.single hlocal hd hb hsplit hbody hx hjx
      refine hexec.holds hi hx hlocal hg fun hself => ?_
      exact not_definedAt_site h.single hlocal hd hsplit hx hr
        (h.read hd hsplit hphi (Instr.mem_usedTemps.2 hself)
          (mem_writtenLocals.2 ⟨d, hd, i, by simp [hsplit], hx, hlocal⟩))
    · have hdef : c.DefinedAt b.label pre x := hdef.concat.resolve_left hjx
      refine (hcomp d hd before i after x hsplit hi hx hlocal hg hdef).congr (fun o ho => ?_)
        fun t ht => ?_
      · cases o with
        | imm k => rfl
        | temp y =>
          exact hexec.temp?_of_ne (hg y ho)
            (h.not_writes_operand hd hsplit hphi hx hlocal ho (hg y ho) hb hr hbody hdef)
      · cases hx.symm.trans ht
        exact hexec.temp?_of_ne hlocal hjx

end Cfg

end ThreeAddress

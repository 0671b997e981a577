import ThreeAddress.CommonSubexpr.Global
import ThreeAddress.Proofs.Improvement
/-!
# Values that are held

Reuse of expressions rests on `σ.Holding e t`: the temporary `t` holds the value of `e`. Then a
computation of `e` does the same as a copy of `t`. A computation leaves its value in its destination,
where it is held until that or an operand is written (`Truthful.exec`). Globals may be lost, or changed by
calls; `Lasting` says that the results of a body are not.
-/

namespace ThreeAddress

/-! ## Expressions and their values -/

namespace Expr

/-- The value of an expression, from those of its operands. -/
def eval? : Expr → List Int64 → Option Int64
  | binary op _ _, [u, v] => op.eval u v
  | unary op _, [v] => some (op.eval v)
  | _, _ => none

variable {i : Instr} {e : Expr}

theorem acts_iff (h : of? i = some e) {calls : Calls} {vs : List Int64} {m m' : Memory}
    {w : Option Int64} : i.Acts calls vs m m' w ↔ m' = m ∧ ∃ k, e.eval? vs = some k ∧ w = some k := by
  have h := (of?_eq_some.1 h).1
  cases i with
  | binary d op l r =>
    cases h
    constructor
    · rintro ⟨u, v, k, rfl, hk, rfl, rfl⟩
      exact ⟨rfl, k, hk, rfl⟩
    · rintro ⟨rfl, k, hk, rfl⟩
      obtain ⟨u, v, rfl⟩ : ∃ u v, vs = [u, v] := by
        match vs, hk with
        | [u, v], _ => exact ⟨u, v, rfl⟩
      exact ⟨u, v, k, rfl, hk, rfl, rfl⟩
  | unary d op o =>
    cases h
    constructor
    · rintro ⟨v, rfl, rfl, rfl⟩
      exact ⟨rfl, _, rfl, rfl⟩
    · rintro ⟨rfl, k, hk, rfl⟩
      obtain ⟨v, rfl⟩ : ∃ v, vs = [v] := by
        match vs, hk with
        | [v], _ => exact ⟨v, rfl⟩
      exact ⟨v, rfl, rfl, congrArg some (Option.some.inj hk).symm⟩
  | _ => cases h

theorem operands_of_of? (h : of? i = some e) : e.operands = i.uses :=
  operands_of_ofInstr? (of?_eq_some.1 h).1

theorem isGlobal_of_mem_temps (h : of? i = some e) {t : Temp} (ht : t ∈ e.temps) : t.isGlobal = false :=
  (of?_eq_some.1 h).2 t ht

theorem mem_temps {e : Expr} {t : Temp} : t ∈ e.temps ↔ .temp t ∈ e.operands := by
  rw [temps, List.mem_filterMap]
  constructor
  · rintro ⟨o, ho, hot⟩
    cases o <;> cases hot
    exact ho
  · exact fun h => ⟨_, h, rfl⟩

end Expr

/-- A computation of an expression into a temporary stands among the instructions. -/
def Result (is : List Instr) (e : Expr) (t : Temp) : Prop :=
  ∃ i ∈ is, Expr.of? i = some e ∧ i.dest? = some t

namespace Store

variable {calls : Calls} {is group : List Instr} {σ σ' : Store} {i : Instr} {e : Expr} {x t : Temp}

/-- The temporary holds the value of the expression. -/
def Holding (σ : Store) (e : Expr) (t : Temp) : Prop :=
  ∃ vs k, e.operands.map σ.value? = vs.map some ∧ e.eval? vs = some k ∧ σ.temp? t = some k

theorem exec_iff_of_of? (he : Expr.of? i = some e) : σ.Exec calls i σ' ↔
    ∃ vs k, e.operands.map σ.value? = vs.map some ∧ e.eval? vs = some k ∧
      σ' = σ.receive i.dest? (some k) := by
  simp only [Exec, Expr.acts_iff he, Expr.operands_of_of? he]
  constructor
  · rintro ⟨vs, m, w, hvs, ⟨rfl, k, hk, rfl⟩, rfl⟩
    exact ⟨vs, k, hvs, hk, rfl⟩
  · rintro ⟨vs, k, hvs, hk, rfl⟩
    exact ⟨vs, _, _, hvs, ⟨rfl, k, hk, rfl⟩, rfl⟩

/-- A computation does what a copy of its value does. -/
theorem Holding.exec_copy_iff (h : σ.Holding e t) (he : Expr.of? i = some e) (hx : i.dest? = some x) :
    σ.Exec calls (.copy x (.temp t)) σ' ↔ σ.Exec calls i σ' := by
  obtain ⟨vs, k, hvs, hk, ht⟩ := h
  rw [exec_iff_of_of? he, hx]
  constructor
  · rintro ⟨us, m, w, hus, ⟨u, rfl, rfl, rfl⟩, rfl⟩
    obtain rfl : k = u := by simpa [Instr.uses, ht] using hus
    exact ⟨vs, k, hvs, hk, rfl⟩
  · rintro ⟨vs', k', hvs', hk', rfl⟩
    obtain rfl : vs' = vs :=
      (List.map_inj_right fun _ _ h => Option.some.inj h).1 (hvs'.symm.trans hvs)
    obtain rfl : k' = k := Option.some.inj (hk'.symm.trans hk)
    exact ⟨[k'], _, _, by simp [Instr.uses, ht], ⟨k', rfl, rfl, rfl⟩, rfl⟩

theorem map_value?_operands (h : ∀ u ∈ e.temps, σ'.temp? u = σ.temp? u) :
    e.operands.map σ'.value? = e.operands.map σ.value? := by
  refine List.map_congr_left fun o ho => ?_
  cases o with
  | imm v => rfl
  | temp u => exact h u (Expr.mem_temps.2 ho)

theorem Holding.congr (h : σ.Holding e t) (ht : σ'.temp? t = σ.temp? t)
    (htemps : ∀ u ∈ e.temps, σ'.temp? u = σ.temp? u) : σ'.Holding e t := by
  obtain ⟨vs, k, hvs, hk, hheld⟩ := h
  exact ⟨vs, k, (map_value?_operands htemps).trans hvs, hk, ht.trans hheld⟩

/-! ## Results that last -/

/-- Results that are put into globals are held there, and no call changes them. -/
def Lasting (σ : Store) (calls : Calls) (is : List Instr) : Prop :=
  ∀ e t, Result is e t → t.isGlobal = true →
    σ.globals.contains t = true ∧ ∀ j ∈ is, ∀ target, j.called? = some target → calls.Quiet target

theorem Lasting.exec (h : σ.Lasting calls is) (hi : i ∈ is) (hexec : σ.Exec calls i σ') :
    σ'.Lasting calls is := by
  intro e t hr hg
  obtain ⟨hcontains, hquiet⟩ := h e t hr hg
  exact ⟨hexec.contains (hquiet i hi) hcontains, hquiet⟩

theorem Lasting.congr (h : σ.Lasting calls is) (hm : σ'.toMemory = σ.toMemory) : σ'.Lasting calls is := by
  intro e t hr hg
  rw [hm]
  exact h e t hr hg

/-- An instruction leaves results where they are, but for its destination. -/
theorem Lasting.temp?_eq (h : σ.Lasting calls is) (hr : Result is e t) (hi : i ∈ is)
    (hexec : σ.Exec calls i σ') (hd : i.dest? ≠ some t) : σ'.temp? t = σ.temp? t := by
  cases hg : t.isGlobal with
  | false => exact hexec.temp?_of_ne hg hd
  | true => exact hexec.temp?_of_quiet ((h e t hr hg).2 i hi) hd

/-- A computation that does not write its own operand leaves its value in its destination. -/
theorem Lasting.holding (h : σ.Lasting calls is) (hi : i ∈ is) (he : Expr.of? i = some e)
    (hx : i.dest? = some x) (hself : x ∉ e.temps) (hexec : σ.Exec calls i σ') : σ'.Holding e x := by
  have hlocal : ∀ u ∈ e.temps, σ'.temp? u = σ.temp? u := fun u hu =>
    hexec.temp?_of_ne (Expr.isGlobal_of_mem_temps he hu) fun hd => hself (Option.some.inj (hx.symm.trans hd) ▸ hu)
  obtain ⟨vs, k, hvs, hk, rfl⟩ := (exec_iff_of_of? he).1 hexec
  have hheld : (σ.receive i.dest? (some k)).temp? x = some k := by
    rw [hx]
    exact σ.temp?_receive_self (fun hg => (h e x ⟨i, hi, he, hx⟩ hg).1) k
  exact ⟨vs, k, (map_value?_operands hlocal).trans hvs, hk, hheld⟩

end Store

/-- No call changes results in surroundings that keep them. -/
theorem Surroundings.Keeps.lasting {env : Surroundings} {is : List Instr} (h : env.Keeps is)
    {calls : Calls} {σ : Store} (ho : env.Offers calls σ.globals) : σ.Lasting calls is := by
  rintro e t ⟨i, hi, he, ht⟩ hg
  obtain ⟨hdeclared, hquiet⟩ := h i hi e t he ht hg
  exact ⟨ho.covers t hdeclared, fun j hj target htarget => ho.quiet target (hquiet j hj target htarget)⟩

/-! ## What is known to be held -/

theorem Available.computed?_of_isPhi {i : Instr} (hi : i.isPhi = true) (t : Temp) :
    Available.computed? i t = none := by
  cases i <;> first | rfl | cases hi

/-- The instruction writes neither the temporary nor an operand of the expression. -/
def Instr.Spares (i : Instr) (e : Expr) (t : Temp) : Prop :=
  ∀ x, i.dest? = some x → x ≠ t ∧ x ∉ e.temps

theorem Instr.spares_of_dest {i : Instr} {dest : Temp} (hdest : i.dest? = some dest) {e : Expr} {t : Temp}
    (h : (decide (t ≠ dest) && !e.reads dest) = true) : i.Spares e t := by
  simp only [Expr.reads, Bool.and_eq_true, decide_eq_true_eq, Bool.not_eq_true'] at h
  intro x hx
  obtain rfl : dest = x := Option.some.inj (hdest.symm.trans hx)
  exact ⟨h.1.symm, by simpa using h.2⟩

/-- What is said to be held is so, by computations among `is`. -/
def Truthful (is : List Instr) (σ : Store) (held : Expr → Temp → Prop) : Prop :=
  ∀ e t, held e t → Result is e t ∧ σ.Holding e t

namespace Truthful

variable {calls : Calls} {is group : List Instr} {σ σ' : Store} {i : Instr} {held held' : Expr → Temp → Prop}

/-- An instruction leaves what is held behind it: what it spares, and what it computes. -/
theorem exec (h : Truthful is σ held) (hl : σ.Lasting calls is) (hi : i ∈ is) (hexec : σ.Exec calls i σ')
    (hheld : ∀ e t, held' e t → (held e t ∧ i.Spares e t) ∨
      (i.dest? = some t ∧ Available.computed? i t = some e)) : Truthful is σ' held' := by
  intro e t hmem
  rcases hheld e t hmem with ⟨hold, hspares⟩ | ⟨hd, hcomputed⟩
  · obtain ⟨hr, hholding⟩ := h e t hold
    obtain ⟨j, -, hje, -⟩ := id hr
    refine ⟨hr, hholding.congr ?_ fun u hu => ?_⟩
    · exact hl.temp?_eq hr hi hexec fun hd => (hspares t hd).1 rfl
    · exact hexec.temp?_of_ne (Expr.isGlobal_of_mem_temps hje hu) fun hd => (hspares u hd).2 hu
  · obtain ⟨he, hself⟩ := Option.filter_eq_some_iff.1 hcomputed
    refine ⟨⟨i, hi, he, hd⟩, hl.holding hi he hd ?_ hexec⟩
    simpa [Expr.reads] using hself

/-- Phis leave what they spare. -/
theorem phis (h : Truthful is σ held) {l : Label} (hphis : σ.Phis l group σ')
    (hheld : ∀ e t, held' e t → held e t ∧ ∀ i ∈ group, i.Spares e t) : Truthful is σ' held' := by
  intro e t hmem
  obtain ⟨hold, hspares⟩ := hheld e t hmem
  obtain ⟨hr, hholding⟩ := h e t hold
  obtain ⟨j, -, hje, -⟩ := id hr
  refine ⟨hr, hholding.congr ?_ fun u hu => ?_⟩
  · cases hg : t.isGlobal with
    | true => exact Store.temp?_congr_of_global hphis.toMemory hg
    | false => exact hphis.temp?_of_notMem hg fun i hi hd => (hspares i hi t hd).1 rfl
  · exact hphis.temp?_of_notMem (Expr.isGlobal_of_mem_temps hje hu) fun i hi hd => (hspares i hi u hd).2 hu

end Truthful

end ThreeAddress

import ThreeAddress.CommonSubexpr.Expr
import ThreeAddress.Proofs.Refinement
import ThreeAddress.Proofs.SsaForm
/-!
# What passes keep

A pass improves a graph if the new one is in the same form and returns whatever the old one returns.
Besides, passes add no call and put the results of expressions into the same places: reuse of
expressions is sound where no call changes these (`Surroundings.Keeps`).
-/

namespace ThreeAddress

/-! ## Procedures around graphs -/

/-- A procedure in the linear form of a graph returns what the graph returns. -/
theorem Cfg.Refines.withCode {env : Surroundings} {p : Procedure} {c c' : Cfg}
    (h : c.Refines env p.params c') (hc : c.Closed) (hc' : c'.Closed) :
    (p.withCode c).Refines env (p.withCode c') where
  name_eq := rfl
  params_eq := rfl
  runs {_ args globals output _} ho hrun := by
    have hstart := Store.onlyParams_start p.params args globals output
    exact hc'.linearRun_iff.2 (h ho hstart (hc.linearRun_iff.1 hrun))

/-- A graph that takes the place of one that it refines keeps the runs of every program around it. -/
theorem Cfg.Refines.keptBy {p : Procedure} {c c' : Cfg} (h : c.Refines .unknown p.params c') (hc : c.Closed)
    (hc' : c'.Closed) (before after : Program) :
    Program.KeptBy (before ++ .proc (p.withCode c) :: after) (before ++ .proc (p.withCode c') :: after) :=
  (Program.Refines.replace (h.withCode hc hc') before after).keptBy (Surroundings.around_unknown _)

/-! ## Expressions -/

namespace Expr

theorem of?_eq_some {i : Instr} {e : Expr} :
    of? i = some e ↔ ofInstr? i = some e ∧ ∀ t ∈ e.temps, t.isGlobal = false := by
  simp [of?, Option.filter_eq_some_iff]

theorem operands_of_ofInstr? {i : Instr} {e : Expr} (h : ofInstr? i = some e) : e.operands = i.uses := by
  cases i <;> cases h <;> rfl

theorem temps_of_ofInstr? {i : Instr} {e : Expr} (h : ofInstr? i = some e) : e.temps = i.usedTemps := by
  rw [temps, operands_of_ofInstr? h, Instr.usedTemps]

/-- What has an expression is no phi, jump or label. -/
theorem plain_of_of? {i : Instr} {e : Expr} (h : of? i = some e) :
    i.isPhi = false ∧ i.isTerminator = false ∧ i.label? = none := by
  have := (of?_eq_some.1 h).1
  cases i <;> first | exact ⟨rfl, rfl, rfl⟩ | cases this

/-- An instruction that has an expression keeps one under an operand map that leaves globals alone. -/
theorem exists_of?_of_mapOperands {i : Instr} {f : Operand → Operand}
    (hf : ∀ t, t.isGlobal = true → f (.temp t) = .temp t) {e : Expr}
    (h : of? (i.mapOperands f) = some e) : ∃ e', of? i = some e' := by
  obtain ⟨hofInstr, hlocal⟩ := of?_eq_some.1 h
  obtain ⟨e', he'⟩ : ∃ e', ofInstr? i = some e' := by
    cases i <;> first | exact ⟨_, rfl⟩ | cases hofInstr
  refine ⟨e', of?_eq_some.2 ⟨he', fun t ht => ?_⟩⟩
  rw [temps_of_ofInstr? he', Instr.usedTemps, List.mem_filterMap] at ht
  obtain ⟨o, ho, hot⟩ := ht
  cases o <;> cases hot
  by_contra hg
  have hg : t.isGlobal = true := by simpa using hg
  have hmem : .temp t ∈ (i.mapOperands f).uses := by
    rw [Instr.uses_mapOperands, List.mem_map]
    exact ⟨_, ho, hf t hg⟩
  rw [temps_of_ofInstr? hofInstr] at hlocal
  rw [hlocal t (List.mem_filterMap.2 ⟨_, hmem, rfl⟩)] at hg
  cases hg

end Expr

/-! ## Results that stay -/

/-- No call changes where the result of an expression is put: that is a local, or it is a declared global and
only procedures are called that leave the globals alone. -/
def Surroundings.Keeps (env : Surroundings) (is : List Instr) : Prop :=
  ∀ i ∈ is, ∀ e t, Expr.of? i = some e → i.dest? = some t → t.isGlobal = true →
    env.declares t ∧ ∀ j ∈ is, ∀ target, j.called? = some target → env.quiet target

/-- Results stay if there are no other results and no other calls. -/
theorem Surroundings.Keeps.transfer {env : Surroundings} {is is' : List Instr} (h : env.Keeps is)
    (hresult : ∀ i' ∈ is', ∀ e t, Expr.of? i' = some e → i'.dest? = some t → t.isGlobal = true →
      ∃ i ∈ is, ∃ e, Expr.of? i = some e ∧ i.dest? = some t)
    (hcall : ∀ i' ∈ is', ∀ target, i'.called? = some target → ∃ i ∈ is, i.called? = some target) :
    env.Keeps is' := by
  intro i' hi' e t he ht hg
  obtain ⟨i, hi, e, he, ht⟩ := hresult i' hi' e t he ht hg
  obtain ⟨hdeclared, hquiet⟩ := h i hi e t he ht hg
  refine ⟨hdeclared, fun j' hj' target htarget => ?_⟩
  obtain ⟨j, hj, htarget⟩ := hcall j' hj' target htarget
  exact hquiet j hj target htarget

theorem Surroundings.Keeps.mono {env : Surroundings} {is is' : List Instr} (h : env.Keeps is)
    (hsub : is' ⊆ is) : env.Keeps is' :=
  h.transfer (fun i hi e _ he ht _ => ⟨i, hsub hi, e, he, ht⟩) fun i hi _ ht => ⟨i, hsub hi, ht⟩

theorem Cfg.mem_bodies {c : Cfg} {i : Instr} : i ∈ c.bodies ↔ ∃ b ∈ c.blocks, i ∈ b.body :=
  List.mem_flatMap

@[simp] theorem Rewriting.called?_instr (r : Rewriting) (l : Label) (i : Instr) :
    (r.instr l i).called? = i.called? := by
  cases i with
  | ret v => cases v <;> rfl
  | _ => rfl

theorem Rewriting.Tidy.keeps {r : Rewriting} {stays : Block → Bool} {jumps : Block → List Instr}
    {c c' : Cfg} (h : r.Tidy stays jumps c c') {env : Surroundings} (hc : env.Keeps c.bodies) :
    env.Keeps c'.bodies := by
  have hbody : ∀ {i'}, i' ∈ c'.bodies → ∃ l, ∃ i ∈ c.bodies, r.instr l i = i' := by
    intro i' hi'
    obtain ⟨b', hb', hi'⟩ := Cfg.mem_bodies.1 hi'
    obtain ⟨b, hb, -, rfl⟩ := h.mem_blocks.1 hb'
    obtain ⟨i, hi, -, rfl⟩ := mem_body.1 hi'
    exact ⟨b.label, i, Cfg.mem_bodies.2 ⟨b, hb, hi⟩, rfl⟩
  refine hc.transfer (fun i' hi' e t he ht _ => ?_) fun i' hi' target ht => ?_
  · obtain ⟨l, i, hi, rfl⟩ := hbody hi'
    rw [dest?_instr] at ht
    have hphi : i.isPhi = false := by simpa using (Expr.plain_of_of? he).1
    rw [r.instr_of_not_phi l hphi] at he
    obtain ⟨e', he'⟩ := Expr.exists_of?_of_mapOperands h.operand_global he
    exact ⟨i, hi, e', he', ht⟩
  · obtain ⟨l, i, hi, rfl⟩ := hbody hi'
    exact ⟨i, hi, by simpa using ht⟩

/-! ## Improvement -/

/-- `c'` has the form of `c` and returns whatever it returns. -/
structure Cfg.Improves (env : Surroundings) (params : List Temp) (c c' : Cfg) : Prop where
  ssaForm : c'.SsaForm params
  refines : c.Refines env params c'
  keeps : env.Keeps c.bodies → env.Keeps c'.bodies
  keyed : c.Keyed → c'.Keyed

namespace Cfg.Improves

variable {env : Surroundings} {params : List Temp} {c c' c'' : Cfg}

theorem refl (h : c.SsaForm params) : c.Improves env params c :=
  ⟨h, .refl env params c, id, id⟩

theorem trans (h : c.Improves env params c') (h' : c'.Improves env params c'') :
    c.Improves env params c'' :=
  ⟨h'.ssaForm, h.refines.trans h'.refines, fun hc => h'.keeps (h.keeps hc), fun hc => h'.keyed (h.keyed hc)⟩

end Cfg.Improves

end ThreeAddress

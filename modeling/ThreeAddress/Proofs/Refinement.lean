import Mathlib.Data.List.Forall2
import ThreeAddress.Proofs.Machine
/-!
# Refinement

A procedure refines another if it returns whatever the other returns, for all calls and globals that its
surroundings may offer. Replacing procedures of a program by ones that refine them keeps every run that succeeds: the
printed lines, the result and the globals (`Program.Refines.keptBy`). Which procedures leave the globals
alone can be read off the program (`Program.LeavesGlobals`).
-/

namespace ThreeAddress

/-! ## Surroundings -/

namespace Surroundings

variable {env : Surroundings} {calls : Calls}

/-- The calls with what is declared among the globals. -/
def within (env : Surroundings) (calls : Calls) : Calls :=
  fun target args globals output f => env.Covers globals ∧ calls target args globals output f

/-- What the surroundings take for granted holds in a program. -/
structure Around (env : Surroundings) (P : Program) : Prop where
  quiet : ∀ room target, env.quiet target → Calls.Quiet (P.calls room) target
  covers : env.Covers P.globals

theorem around_unknown (P : Program) : unknown.Around P := ⟨nofun, nofun⟩

theorem covers_receive {σ : Store} (h : env.Covers σ.globals) (dest? : Option Temp) (v? : Option Int64) :
    env.Covers (σ.receive dest? v?).globals :=
  fun t ht => Store.contains_receive (h t ht) dest? v?

end Surroundings

section

variable {env : Surroundings} {calls : Calls}

theorem Instr.Acts.within {i : Instr} {vs : List Int64} {m m' : Memory} {w : Option Int64}
    (hcalls : ∀ t a g o f, env.Covers g → calls t a g o f → env.Covers f.globals)
    (h : i.Acts calls vs m m' w) (hm : env.Covers m.globals) :
    i.Acts (env.within calls) vs m m' w ∧ env.Covers m'.globals := by
  cases i with
  | call dest? target argc =>
    obtain ⟨hvs, args, f, hs, hc, rfl, hw⟩ := h
    exact ⟨⟨hvs, args, f, hs, ⟨hm, hc⟩, rfl, hw⟩, hcalls _ _ _ _ _ hm hc⟩
  | param =>
    refine ⟨h, ?_⟩
    obtain ⟨v, -, rfl, -⟩ := h
    exact hm
  | _ => exact ⟨h, h.memory_eq nofun nofun ▸ hm⟩

theorem Store.Exec.within {σ σ' : Store} {i : Instr}
    (hcalls : ∀ t a g o f, env.Covers g → calls t a g o f → env.Covers f.globals)
    (h : σ.Exec calls i σ') (hσ : env.Covers σ.globals) :
    σ.Exec (env.within calls) i σ' ∧ env.Covers σ'.globals := by
  obtain ⟨vs, m, w, hv, ha, rfl⟩ := h
  obtain ⟨ha, hm⟩ := ha.within hcalls hσ
  exact ⟨⟨vs, m, w, hv, ha, rfl⟩, Surroundings.covers_receive (σ := ⟨m, σ.locals⟩) hm _ _⟩

/-- What is declared stays so, as no instruction takes a global away. -/
theorem LinearRun.within {body rest : List Instr} {prev? cur? : Option Label} {σ : Store} {f : Final}
    (h : LinearRun calls body rest prev? cur? σ f)
    (hcalls : ∀ t a g o f, env.Covers g → calls t a g o f → env.Covers f.globals)
    (hσ : env.Covers σ.globals) :
    LinearRun (env.within calls) body rest prev? cur? σ f ∧ env.Covers f.globals := by
  induction h with
  | done => exact ⟨.done, hσ⟩
  | label _ ih => exact (ih hσ).imp_left .label
  | exec he _ ih =>
    obtain ⟨he, hσ'⟩ := he.within hcalls hσ
    exact (ih hσ').imp_left (.exec he)
  | phis hi hp hg _ ih =>
    have hm := hg.toMemory
    exact (ih (by rw [hm]; exact hσ)).imp_left (.phis hi hp hg)
  | jump hl _ ih => exact (ih hσ).imp_left (.jump hl)
  | taken hv hc hl _ ih => exact (ih hσ).imp_left (.taken hv hc hl)
  | passed hv hc _ ih => exact (ih hσ).imp_left (.passed hv hc)
  | ret => exact ⟨.ret, hσ⟩
  | retValue hv => exact ⟨.retValue hv, hσ⟩

end

/-! ## Procedures that leave the globals alone -/

/-- The globals stay as they are if nothing but locals is written and the calls are quiet. -/
theorem LinearRun.globals_eq {calls : Calls} {body rest : List Instr} {prev? cur? : Option Label} {σ : Store}
    {f : Final} (h : LinearRun calls body rest prev? cur? σ f)
    (hbody : ∀ i ∈ body, (∀ t, i.dest? = some t → t.isGlobal = false) ∧
      ∀ target, i.called? = some target → calls.Quiet target)
    (hrest : rest ⊆ body) : f.globals = σ.globals := by
  induction h with
  | done | ret | retValue => rfl
  | label _ ih => exact ih fun i hi => hrest (.tail _ hi)
  | @exec i _ _ _ σ _ _ he _ ih =>
    rw [ih fun i hi => hrest (.tail _ hi)]
    obtain ⟨vs, m, w, -, ha, rfl⟩ := he
    obtain ⟨hlocal, hquiet⟩ := hbody i (hrest List.mem_cons_self)
    rw [← ha.globals_eq hquiet]
    cases hd : i.dest? with
    | none => rfl
    | some t => rw [Store.toMemory_receive_local _ (hlocal t hd)]
  | phis _ _ hg _ ih =>
    rw [ih fun i hi => hrest (.tail _ ((List.dropWhile_sublist _).subset hi)), hg.toMemory]
  | jump hl _ ih => exact ih (from?_suffix hl).subset
  | taken _ _ hl _ ih => exact ih (from?_suffix hl).subset
  | passed _ _ _ ih => exact ih fun i hi => hrest (.tail _ hi)

namespace Program

variable {P : Program} {quiet : String → Prop}

/-- Procedures of these names write no global, and call only procedures of these names. -/
def LeavesGlobals (P : Program) (quiet : String → Prop) : Prop :=
  ∀ target p, quiet target → P.procedure? target = some p → ∀ i ∈ p.body,
    (∀ t, i.dest? = some t → t.isGlobal = false) ∧ ∀ callee, i.called? = some callee → quiet callee

theorem LeavesGlobals.quiet_calls (h : P.LeavesGlobals quiet) (room : Nat) {target : String}
    (ht : quiet target) : Calls.Quiet (P.calls room) target := by
  induction room generalizing target with
  | zero =>
    intro args globals output f hc
    unfold Program.calls at hc
    split at hc
    · exact hc.elim
    · rw [hc]
    · exact hc.elim
  | succ room ih =>
    intro args globals output f hc
    unfold Program.calls at hc
    split at hc
    · exact hc.elim
    · rw [hc]
    · rename_i p hp
      obtain ⟨-, hp, -⟩ := callee_proc_iff.1 hp
      refine LinearRun.globals_eq hc (fun i hi => ?_) (List.Subset.refl _)
      obtain ⟨hlocal, hcallee⟩ := h target p ht hp i hi
      exact ⟨hlocal, fun callee hc => ih (hcallee callee hc)⟩

/-- What is known around the procedures of a program: its variables, and which procedures leave them alone. -/
def surroundings (P : Program) (quiet : String → Prop) : Surroundings :=
  ⟨quiet, fun t => P.globals.contains t = true⟩

theorem LeavesGlobals.around (h : P.LeavesGlobals quiet) : (P.surroundings quiet).Around P :=
  ⟨fun room _ ht => h.quiet_calls room ht, fun _ ht => ht⟩

end Program

/-! ## Procedures and declarations -/

/-- `q` returns whatever `p` returns in the surroundings. -/
structure Procedure.Refines (env : Surroundings) (p q : Procedure) : Prop where
  name_eq : q.name = p.name
  params_eq : q.params = p.params
  runs {calls : Calls} {args : List Int64} {globals : Table Temp Int64} {output : List String}
    {f : Final} : env.Offers calls globals → p.Runs calls args globals output f →
      q.Runs calls args globals output f

theorem Procedure.Refines.refl (env : Surroundings) (p : Procedure) : p.Refines env p :=
  ⟨rfl, rfl, fun _ => id⟩

theorem Procedure.Refines.trans {env : Surroundings} {p q r : Procedure} (h : p.Refines env q)
    (h' : q.Refines env r) : p.Refines env r :=
  ⟨h'.name_eq.trans h.name_eq, h'.params_eq.trans h.params_eq, fun ho hrun => h'.runs ho (h.runs ho hrun)⟩

/-- The same variable, or a procedure that refines the other. -/
inductive Declaration.Refines (env : Surroundings) : Declaration → Declaration → Prop
  | var (v : GlobalVar) : Declaration.Refines env (.var v) (.var v)
  | proc {p q : Procedure} : p.Refines env q → Declaration.Refines env (.proc p) (.proc q)

theorem Declaration.Refines.refl (env : Surroundings) : (d : Declaration) → d.Refines env d
  | .var v => .var v
  | .proc p => .proc (.refl env p)

/-! ## Programs -/

namespace Program

/-- Declarations refine one another in their places. -/
def Refines (env : Surroundings) (P Q : Program) : Prop := List.Forall₂ (Declaration.Refines env) P Q

variable {env : Surroundings}

theorem Refines.refl (P : Program) : P.Refines env P :=
  List.forall₂_same.2 fun d _ => .refl env d

/-- One procedure of a program is replaced. -/
theorem Refines.replace {p q : Procedure} (h : p.Refines env q) (before after : Program) :
    Refines env (before ++ .proc p :: after) (before ++ .proc q :: after) :=
  List.rel_append (Refines.refl before) (.cons (.proc h) (Refines.refl after))

theorem Refines.globals_eq {P Q : Program} (h : P.Refines env Q) : Q.globals = P.globals := by
  unfold globals
  congr 1
  induction h with
  | nil => rfl
  | cons hd _ ih =>
    rw [List.filterMap_cons, List.filterMap_cons, ih]
    cases hd <;> rfl

theorem Refines.procedures {P Q : Program} (h : P.Refines env Q) :
    List.Forall₂ (Procedure.Refines env) P.procedures Q.procedures := by
  unfold Program.procedures
  induction h with
  | nil => exact .nil
  | cons hd _ ih =>
    cases hd with
    | var v => simpa [List.filterMap_cons, Declaration.proc?] using ih
    | proc hp => simpa [List.filterMap_cons, Declaration.proc?] using ⟨hp, ih⟩

/-- The procedure of a name refines the one of that name. -/
theorem Refines.procedure? {P Q : Program} (h : P.Refines env Q) (name : String) :
    Option.Rel (Procedure.Refines env) (P.procedure? name) (Q.procedure? name) := by
  unfold Program.procedure?
  have hrev := List.rel_reverse h.procedures
  generalize P.procedures.reverse = ps, Q.procedures.reverse = qs at hrev
  induction hrev with
  | nil => exact .none
  | cons hp _ ih =>
    rw [List.find?_cons, List.find?_cons, hp.name_eq]
    split
    · exact .some hp
    · exact ih

theorem Refines.callee_proc {P Q : Program} (h : P.Refines env Q) {depth : Nat} {target : String}
    {args : List Int64} {p : Procedure} (hc : callee P depth target args = .ok (.proc p)) :
    ∃ q, callee Q depth target args = .ok (.proc q) ∧ p.Refines env q := by
  obtain ⟨hname, hp, hargs, hdepth⟩ := callee_proc_iff.1 hc
  have hrel := h.procedure? target
  rw [hp] at hrel
  cases hQ : Q.procedure? target with
  | none => rw [hQ] at hrel; cases hrel
  | some q =>
    rw [hQ] at hrel
    cases hrel with
    | some hpq => exact ⟨q, callee_proc_iff.2 ⟨hname, hQ, hpq.params_eq ▸ hargs, hdepth⟩, hpq⟩

/-- Calls in a program that refines another do all that they do in the other. -/
theorem Refines.calls {P Q : Program} (h : P.Refines env Q) (henv : env.Around P) (room : Nat)
    {target : String} {args : List Int64} {globals : Table Temp Int64} {output : List String} {f : Final}
    (hg : env.Covers globals) (hc : P.calls room target args globals output f) :
    Q.calls room target args globals output f ∧ env.Covers f.globals := by
  induction room generalizing target args globals output f with
  | zero =>
    unfold Program.calls at hc ⊢
    split at hc
    · exact hc.elim
    · rename_i text hl
      subst hc
      exact ⟨by simp only [callee_line hl Q], hg⟩
    · exact hc.elim
  | succ room ih =>
    unfold Program.calls at hc ⊢
    split at hc
    · exact hc.elim
    · rename_i text hl
      subst hc
      exact ⟨by simp only [callee_line hl Q], hg⟩
    · rename_i p hp
      obtain ⟨q, hcallee, hpq⟩ := h.callee_proc hp
      simp only [hcallee]
      obtain ⟨hrun, hf⟩ := hc.within (fun _ _ _ _ _ hg hc => (ih hg hc).2) hg
      refine ⟨LinearRun.mono (fun _ _ _ _ _ hc => (ih hc.1 hc.2).1) (hpq.runs ⟨?_, hg⟩ hrun), hf⟩
      exact fun target htarget _ _ _ _ hc => henv.quiet room target htarget _ _ _ _ hc.2

/-- Every run of `P` that succeeds is one of `Q`, within every limit from some number on, with the same
output, result and globals. -/
def KeptBy (P Q : Program) : Prop :=
  ∀ ⦃entry : String⦄ ⦃args : List Int64⦄ ⦃limit : Nat⦄ ⦃o : Outcome⦄, P.run entry args limit = .ok o →
    ∃ n, ∀ limit', n ≤ limit' → ∃ o', Q.run entry args limit' = .ok o' ∧ o'.toFinal = o.toFinal

/-- Of programs that run to an end, one that keeps the runs of the other has the same result. -/
theorem KeptBy.result?_eq {P Q : Program} (h : P.KeptBy Q) {entry : String} {args : List Int64}
    {limit limit' : Nat} {o o' : Outcome} (ho : P.run entry args limit = .ok o)
    (ho' : Q.run entry args limit' = .ok o') : o'.result? = o.result? := by
  obtain ⟨n, hn⟩ := h ho
  obtain ⟨o'', ho'', heq⟩ := hn n (Nat.le_refl n)
  exact congrArg Final.result? ((run_functional ho' ho'').trans heq)

/-- A program keeps the runs of those that it refines. -/
theorem Refines.keptBy {P Q : Program} (h : P.Refines env Q) (henv : env.Around P) : P.KeptBy Q := by
  intro entry args limit o hrun
  have hP : P.Calls entry args o.toFinal := run_iff.1 ⟨limit, o, hrun, rfl⟩
  refine run_of_calls ?_
  unfold Calls at hP ⊢
  rw [h.globals_eq]
  exact (h.calls henv maxDepth henv.covers hP).1

end Program

end ThreeAddress

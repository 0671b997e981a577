import ThreeAddress.CommonSubexpr.Elimination
import ThreeAddress.Proofs.CommonSubexpr.Local
import ThreeAddress.Proofs.Lockstep
/-!
# Reuse in straight-line code

Straight-line code stands in a procedure of some program (`Site`). The machine executes it alike before and
behind reuse (`Site.executes_reuseLocal`): from any state it gets to its end with the same store, or gets there
neither before nor behind. Calls in the code may lead back to the procedure in which it stands, so the two
programs are run in step. `Reusing` relates what is still to come of them: within the code by what is available
there, which the locals bear out, and elsewhere with nothing available.
-/

namespace ThreeAddress.CommonSubexpr

/-! ## Single instructions -/

@[simp] theorem label?_reuse (av : Available) (i : Instr) : (reuse av i).label? = i.label? := by
  unfold reuse
  split
  · rename_i e x he hx
    split
    · cases i <;> first | rfl | cases he
    · rfl
  · rfl

/-- Only computations are replaced. -/
theorem reuse_of_of?_eq_none {i : Instr} (hi : Expr.of? i = none) (av : Available) : reuse av i = i := by
  unfold reuse
  rw [hi]

theorem plain_reuse (av : Available) {i : Instr} (h : i.isPhi = false ∧ i.isTerminator = false ∧ i.label? = none)
    (hc : ∀ d target argc, i ≠ .call d target argc) :
    ((reuse av i).isPhi = false ∧ (reuse av i).isTerminator = false ∧ (reuse av i).label? = none) ∧
      ∀ d target argc, reuse av i ≠ .call d target argc := by
  unfold reuse
  split
  · split
    · exact ⟨⟨rfl, rfl, rfl⟩, nofun⟩
    · exact ⟨h, hc⟩
  · exact ⟨h, hc⟩

/-- Where a copy takes the place of a computation, the computation has a value. -/
theorem exists_exec_of_reuse_ne {calls : Calls} {is : List Instr} {σ : Store} {av : Available} {i : Instr}
    (h : Truthful is σ fun e t => (e, t) ∈ av) (hne : reuse av i ≠ i) : ∃ σ', σ.Exec calls i σ' := by
  unfold reuse at hne
  split at hne
  · rename_i e x he hx
    split at hne
    · rename_i t ht
      obtain ⟨-, vs, k, hvs, hk, -⟩ := h e t (mem_of_lookup ht)
      exact ⟨_, (Store.exec_iff_of_of? he).2 ⟨vs, k, hvs, hk, rfl⟩⟩
    · exact absurd rfl hne
  · exact absurd rfl hne

/-! ## What is still to come -/

theorem takeWhile_dropWhile {α : Type} (p : α → Bool) (l : List α) : (l.dropWhile p).takeWhile p = [] := by
  induction l with
  | nil => rfl
  | cons a l ih =>
    cases ha : p a with
    | true => simpa [ha] using ih
    | false => simp [ha]

/-- The second code is the first with reuse in it: instructions of the straight-line code `body` reuse what is
available where they stand, and of other instructions nothing is known to be available behind them. -/
inductive Reusing (body : List Instr) : Available → List Instr → List Instr → Prop
  | nil (av : Available) : Reusing body av [] []
  | within {av : Available} {i : Instr} {is is' : List Instr} :
      i ∈ body → Reusing body (av.after i) is is' → Reusing body av (i :: is) (reuse av i :: is')
  | outside {av : Available} {i : Instr} {is is' : List Instr} :
      Reusing body [] is is' → Reusing body av (i :: is) (i :: is')

namespace Reusing

variable {body is is' : List Instr} {av : Available}

theorem refl (body : List Instr) (av : Available) (is : List Instr) : Reusing body av is is := by
  induction is generalizing av with
  | nil => exact .nil av
  | cons i is ih => exact .outside (ih [])

theorem append (h : ∀ av, Reusing body av is is') {group : List Instr} (hgroup : group ⊆ body) (av : Available) :
    Reusing body av (group ++ is) (reuseBody av group ++ is') := by
  induction group generalizing av with
  | nil => exact h av
  | cons i group ih =>
    exact .within (hgroup List.mem_cons_self) (ih (fun j hj => hgroup (.tail _ hj)) (av.after i))

theorem prepend (h : Reusing body [] is is') (pre : List Instr) : Reusing body [] (pre ++ is) (pre ++ is') := by
  induction pre with
  | nil => exact h
  | cons i pre ih => exact .outside ih

theorem length_eq (h : Reusing body av is is') : is'.length = is.length := by
  induction h with
  | nil => rfl
  | within _ _ ih | outside _ ih => exact congrArg (· + 1) ih

theorem isEmpty_eq (h : Reusing body av is is') : is'.isEmpty = is.isEmpty := by
  cases h <;> rfl

theorem takeWhile_eq (h : Reusing body av is is') :
    is'.takeWhile Instr.isPhi = is.takeWhile Instr.isPhi := by
  induction h with
  | nil => rfl
  | @within av i is is' _ _ ih =>
    cases hi : i.isPhi with
    | false => simp [hi]
    | true => simp [hi, ih, reuse_of_isPhi hi]
  | @outside av i is is' _ ih =>
    cases hi : i.isPhi with
    | false => simp [hi]
    | true => simp [hi, ih]

/-- Behind the phis that stand together, so much is available as they spare. -/
theorem dropWhile (h : Reusing body av is is') :
    ∃ av', Reusing body av' (is.dropWhile Instr.isPhi) (is'.dropWhile Instr.isPhi) ∧
      ∀ e t, (e, t) ∈ av' → (e, t) ∈ av ∧ ∀ i ∈ is.takeWhile Instr.isPhi, i.Spares e t := by
  induction h with
  | nil av => exact ⟨av, .nil av, fun e t hmem => ⟨hmem, nofun⟩⟩
  | @within av i is is' hi h ih =>
    cases hphi : i.isPhi with
    | false => exact ⟨av, by simpa [hphi] using Reusing.within hi h, fun e t hmem => ⟨hmem, by simp [hphi]⟩⟩
    | true =>
      obtain ⟨av', h', hav'⟩ := ih
      refine ⟨av', by simpa [hphi] using h', fun e t hmem => ?_⟩
      obtain ⟨hafter, hspares⟩ := hav' e t hmem
      have hcomputed := Available.computed?_of_isPhi hphi t
      obtain ⟨hav, hi⟩ := (mem_after hafter).resolve_right fun ⟨_, hc⟩ => by simp [hcomputed] at hc
      exact ⟨hav, by simpa [hphi] using ⟨hi, hspares⟩⟩
  | @outside av i is is' h ih =>
    cases hphi : i.isPhi with
    | false => exact ⟨av, by simpa [hphi] using Reusing.outside h, fun e t hmem => ⟨hmem, by simp [hphi]⟩⟩
    | true =>
      obtain ⟨av', h', hav'⟩ := ih
      exact ⟨av', by simpa [hphi] using h', fun e t hmem => absurd (hav' e t hmem).1 (by simp)⟩

/-- Labels outside the code are found in the same places, where nothing is known to be available. -/
theorem from? (h : Reusing body av is is') {l : Label} (hl : .label l ∉ body) :
    (∃ rest rest', from? l is = some rest ∧ ThreeAddress.from? l is' = some rest' ∧ Reusing body [] rest rest') ∨
      ThreeAddress.from? l is = none ∧ ThreeAddress.from? l is' = none := by
  induction h with
  | nil => exact .inr ⟨rfl, rfl⟩
  | @within av i is is' hi h ih =>
    rcases ih with ⟨rest, rest', hr, hr', hreusing⟩ | ⟨hr, hr'⟩
    · exact .inl ⟨rest, rest', by simp [ThreeAddress.from?, hr], by simp [ThreeAddress.from?, hr'], hreusing⟩
    · have hne : i.label? ≠ some l := fun hlabel => hl (Instr.eq_label_of_label? hlabel ▸ hi)
      exact .inr ⟨by simp [ThreeAddress.from?, hr, hne], by simp [ThreeAddress.from?, hr', hne]⟩
  | @outside av i is is' h ih =>
    rcases ih with ⟨rest, rest', hr, hr', hreusing⟩ | ⟨hr, hr'⟩
    · exact .inl ⟨rest, rest', by simp [ThreeAddress.from?, hr], by simp [ThreeAddress.from?, hr'], hreusing⟩
    · by_cases hi : i.label? = some l
      · exact .inl ⟨i :: is, i :: is', by simp [ThreeAddress.from?, hr, hi], by simp [ThreeAddress.from?, hr', hi],
          .outside h⟩
      · exact .inr ⟨by simp [ThreeAddress.from?, hr, hi], by simp [ThreeAddress.from?, hr', hi]⟩

end Reusing

/-! ## What is known to be available -/

/-- Every computation of the code writes a local. -/
def WritesLocals (body : List Instr) : Prop :=
  ∀ i ∈ body, ∀ e t, Expr.ofInstr? i = some e → i.dest? = some t → t.isGlobal = false

section

variable {body : List Instr} {σ σ' : Store} {i : Instr} {av : Available}

theorem WritesLocals.isGlobal (h : WritesLocals body) {e : Expr} {t : Temp} (hr : Result body e t) :
    t.isGlobal = false := by
  obtain ⟨i, hi, he, ht⟩ := hr
  exact h i hi e t (Expr.of?_eq_some.1 he).1 ht

/-- Results that are locals last, whatever is called. -/
theorem WritesLocals.lasting (h : WritesLocals body) (σ : Store) (calls : Calls) : σ.Lasting calls body := by
  intro e t hr hg
  simp [h.isGlobal hr] at hg

/-- What computes nothing leaves available what it spares, whatever becomes of the globals. -/
theorem WritesLocals.truthful_after (h : WritesLocals body) (hav : Truthful body σ fun e t => (e, t) ∈ av)
    (hi : Expr.of? i = none) (hsame : ∀ u, u.isGlobal = false → i.dest? ≠ some u → σ'.temp? u = σ.temp? u) :
    Truthful body σ' fun e t => (e, t) ∈ av.after i := by
  intro e t hmem
  obtain ⟨hold, hspares⟩ := (mem_after hmem).resolve_right fun ⟨_, hc⟩ => by simp [Available.computed?, hi] at hc
  obtain ⟨hr, hholding⟩ := hav e t hold
  obtain ⟨j, -, hje, -⟩ := id hr
  refine ⟨hr, hholding.congr ?_ fun u hu => ?_⟩
  · exact hsame t (h.isGlobal hr) fun hd => (hspares t hd).1 rfl
  · exact hsame u (Expr.isGlobal_of_mem_temps hje hu) fun hd => (hspares u hd).2 hu

end

/-- The instruction that comes next, and what is available behind it. -/
theorem Reusing.uncons {body is rest' : List Instr} {av : Available} {i : Instr} {σ : Store}
    (h : Reusing body av (i :: is) rest') (hav : Truthful body σ fun e t => (e, t) ∈ av) :
    ∃ av₀ is', rest' = reuse av₀ i :: is' ∧ (Truthful body σ fun e t => (e, t) ∈ av₀) ∧
      ∀ σ', (i ∈ body → Truthful body σ' fun e t => (e, t) ∈ av₀.after i) →
        ∃ av', (Truthful body σ' fun e t => (e, t) ∈ av') ∧ Reusing body av' is is' := by
  cases h with
  | within hi h => exact ⟨av, _, rfl, hav, fun σ' hσ' => ⟨_, hσ' hi, h⟩⟩
  | outside h =>
    have hi : reuse [] i = i := by unfold reuse; split <;> rfl
    exact ⟨[], _, by rw [hi], nofun, fun σ' _ => ⟨[], nofun, h⟩⟩

/-! ## The code and what is around it -/

/-- A place for straight-line code in a procedure of a program. -/
structure Site where
  /-- The declarations before that of the procedure. -/
  before : Program
  /-- The declarations after that of the procedure. -/
  after : Program
  name : String
  params : List Temp
  /-- The instructions before the code. -/
  pre : List Instr
  /-- The instruction after the code. -/
  next : Instr
  /-- The instructions after that one. -/
  post : List Instr
  /-- A phi would be executed with those that the code ends in. -/
  next_isPhi : next.isPhi = false

namespace Site

/-- What follows the code. -/
def rest (c : Site) : List Instr := c.next :: c.post

/-- The procedure with the code in it. -/
def procedure (c : Site) (body : List Instr) : Procedure :=
  ⟨c.name, c.params, c.pre ++ (body ++ c.rest)⟩

/-- The program with the code in it. -/
def program (c : Site) (body : List Instr) : Program := c.before ++ .proc (c.procedure body) :: c.after

/-- The state with the procedure at the code. -/
def enter (c : Site) (body : List Instr) (s : State) : State :=
  { s with frame := { s.frame with proc := c.procedure body, rest := body ++ c.rest } }

/-- The state has the procedure behind the code, on top of so many callers. -/
def Passed (c : Site) (depth : Nat) (s : State) : Prop :=
  s.callers.length = depth ∧ s.frame.rest = c.rest

instance (c : Site) (depth : Nat) (s : State) : Decidable (c.Passed depth s) :=
  inferInstanceAs (Decidable (_ ∧ _))

/-- Executing the code, the machine gets from the state to the end of it with this store. -/
def Executes (c : Site) (body : List Instr) (s : State) (σ : Store) : Prop :=
  ∃ s', Reaches (c.program body) (c.Passed s.callers.length) (c.enter body s) s' ∧ s'.store = σ

/-- The code holds no jump and no return, and nothing jumps into the middle of it. -/
structure Straight (c : Site) (body : List Instr) : Prop where
  isTerminator : ∀ i ∈ body, i.isTerminator = false
  target : ∀ i ∈ c.pre ++ c.rest, ∀ l, i.target? = some l → .label l ∉ body

/-! ## Two procedures in step -/

/-- The procedure with the code and the one with reuse in it stand at corresponding instructions, with the same
store. -/
structure Abreast (c : Site) (body : List Instr) (s s' : State) : Prop where
  store_eq : s'.store = s.store
  previous?_eq : s'.frame.previous? = s.frame.previous?
  current?_eq : s'.frame.current? = s.frame.current?
  proc_eq : s.frame.proc = c.procedure body
  proc_eq' : s'.frame.proc = c.procedure (reuseBody [] body)
  suffix : s.frame.rest <:+ (c.procedure body).body
  suffix' : s'.frame.rest <:+ (c.procedure (reuseBody [] body)).body
  reusing : ∃ av, (Truthful body s.store fun e t => (e, t) ∈ av) ∧ Reusing body av s.frame.rest s'.frame.rest

theorem reusing_procedure (c : Site) (body : List Instr) :
    Reusing body [] (c.procedure body).body (c.procedure (reuseBody [] body)).body :=
  .prepend (.append (fun av => .refl body av c.rest) (List.Subset.refl body) []) c.pre

variable {c : Site} {body : List Instr} {s s' : State}

namespace Abreast

theorem globals_eq (h : c.Abreast body s s') : s'.globals = s.globals := congrArg (·.globals) h.store_eq

theorem output_eq (h : c.Abreast body s s') : s'.output = s.output := congrArg (·.output) h.store_eq

theorem alike_settled (h : c.Abreast body s s') (hcallers : s.callers = []) (hcallers' : s'.callers = []) :
    s.settled.Alike (c.Abreast body) s'.settled := by
  obtain ⟨av, -, hreusing⟩ := h.reusing
  unfold State.settled
  rw [hreusing.isEmpty_eq, h.globals_eq, h.output_eq, hcallers, hcallers']
  split
  · exact .ended _
  · exact .running h

/-- Both go on to later instructions with the same store. -/
theorem goesOn (h : c.Abreast body s s') {is is' : List Instr} (his : is <:+ s.frame.rest)
    (his' : is' <:+ s'.frame.rest) {σ : Store} {av : Available}
    (hav : Truthful body σ fun e t => (e, t) ∈ av) (hreusing : Reusing body av is is') :
    c.Abreast body ((s.alone.withRest is).withStore σ) ((s'.alone.withRest is').withStore σ) where
  store_eq := rfl
  previous?_eq := h.previous?_eq
  current?_eq := h.current?_eq
  proc_eq := h.proc_eq
  proc_eq' := h.proc_eq'
  suffix := his.trans h.suffix
  suffix' := his'.trans h.suffix'
  reusing := ⟨av, hav, hreusing⟩

/-- Where one is at an instruction, the other is at what reuse puts in its place, and both go on behind it. -/
theorem uncons (h : c.Abreast body s s') {i : Instr} {is : List Instr} (hr : s.frame.rest = i :: is) :
    ∃ av is', s'.frame.rest = reuse av i :: is' ∧ (Truthful body s.store fun e t => (e, t) ∈ av) ∧
      ∀ σ, (i ∈ body → Truthful body σ fun e t => (e, t) ∈ av.after i) →
        c.Abreast body ((s.alone.withRest is).withStore σ) ((s'.alone.withRest is').withStore σ) := by
  obtain ⟨av, hav, hreusing⟩ := h.reusing
  rw [hr] at hreusing
  obtain ⟨av₀, is', hr', hav₀, hnext⟩ := hreusing.uncons hav
  refine ⟨av₀, is', hr', hav₀, fun σ hσ => ?_⟩
  obtain ⟨av', hav', hreusing'⟩ := hnext σ hσ
  exact h.goesOn (hr ▸ List.suffix_cons i is) (hr' ▸ List.suffix_cons _ is') hav' hreusing'

/-- What reads an operand goes on alike with its value. -/
theorem matches_read {R : State → State → Prop} {u u' : State} (hstore : u'.store = u.store) (o : Operand)
    {f f' : Int64 → Except Fault Progress} (hf : ∀ k, Matches Eq R (f k) (f' k)) :
    Matches Eq R (u.read o >>= f) (u'.read o >>= f') := by
  have hread : u'.read o = u.read o := by
    have htemp : ∀ t, u'.temp? t = u.temp? t := fun t => congrArg (·.temp? t) hstore
    cases o with
    | imm v => rfl
    | temp t => rw [State.read, State.read, htemp]
  rw [hread]
  cases u.read o with
  | ok k => exact hf k
  | error e => exact .error_of_eq (fun _ => rfl) rfl

/-- An instruction that is executed on the store alone, and what reuse puts in its place. -/
theorem matches_reuse {R : State → State → Prop} {u u' : State} (hstore : u'.store = u.store) {av : Available}
    (hav : Truthful body u.store fun e t => (e, t) ∈ av) {i : Instr}
    (hi : i.isPhi = false ∧ i.isTerminator = false ∧ i.label? = none) (hc : ∀ d target argc, i ≠ .call d target argc)
    (hnext : ∀ σ, u.store.Exec (Program.calls [] 0) i σ → (u.withStore σ).settled.Alike R (u'.withStore σ).settled) :
    Matches Eq R (u.execute [] i) (u'.execute [] (reuse av i)) := by
  obtain ⟨hi', hc'⟩ := plain_reuse av hi hc
  refine .of_exec (Program.calls [] 0) hi hi' hc hc' (fun σ hσ => ⟨σ, hstore ▸ (exec_reuse hav).2 hσ, hnext σ hσ⟩)
    (fun σ hσ => ⟨σ, (exec_reuse hav).1 (hstore ▸ hσ)⟩) fun hstuck => ?_
  -- A computation whose result is available does not fail.
  have hsame : reuse av i = i := by
    by_contra hne
    obtain ⟨σ, hσ⟩ := exists_exec_of_reuse_ne hav hne
    exact hstuck σ hσ
  rw [hsame, hstore]
  cases u.store.undefined? i.uses with
  | none => exact .none
  | some t => exact .some rfl

/-- At an instruction that is executed on the store alone. -/
theorem inStep_plain (h : c.Abreast body s s') (hlocal : WritesLocals body) {i : Instr} {is : List Instr}
    (hr : s.frame.rest = i :: is) (hi : i.isPhi = false ∧ i.isTerminator = false ∧ i.label? = none)
    (hc : ∀ d target argc, i ≠ .call d target argc) : InStep Eq (c.Abreast body) s s' := by
  obtain ⟨av, is', hr', hav, hnext⟩ := h.uncons hr
  obtain ⟨hi', hc'⟩ := plain_reuse av hi hc
  have hstore : (s'.alone.withRest is').store = (s.alone.withRest is).store := h.store_eq
  refine .of_execute hr hr' hi.1 hi'.1 hc hc' (matches_reuse hstore hav hi hc fun σ hσ => ?_)
  exact (hnext σ fun hmem => truthful_after hav (hlocal.lasting _ _) hmem hσ).alike_settled rfl rfl

/-- At a label. -/
theorem inStep_label (h : c.Abreast body s s') (hlocal : WritesLocals body) {l : Label} {is : List Instr}
    (hr : s.frame.rest = .label l :: is) : InStep Eq (c.Abreast body) s s' := by
  obtain ⟨av, is', hr', hav, hnext⟩ := h.uncons hr
  rw [reuse_of_of?_eq_none rfl] at hr'
  have hgoes := hnext s.store fun _ => hlocal.truthful_after hav rfl fun _ _ _ => rfl
  refine .of_execute hr hr' rfl rfl nofun nofun (.ok (Abreast.alike_settled (c := c) ?_ rfl rfl))
  exact { hgoes with store_eq := h.store_eq, previous?_eq := h.current?_eq, current?_eq := rfl }

/-- At a call. -/
theorem inStep_call (h : c.Abreast body s s') (hlocal : WritesLocals body) {d : Option Temp} {target : String}
    {argc : UInt32} {is : List Instr} (hr : s.frame.rest = .call d target argc :: is) :
    InStep Eq (c.Abreast body) s s' := by
  obtain ⟨av, is', hr', hav, hnext⟩ := h.uncons hr
  rw [reuse_of_of?_eq_none rfl] at hr'
  have hlocals : s'.frame.locals = s.frame.locals := congrArg (·.locals) h.store_eq
  refine .call hr hr' (congrArg (·.staged) h.store_eq) fun globals output v? => ?_
  -- Only the destination changes, of the locals.
  have hgoes := hnext ((Store.mk ⟨globals, output, ∅⟩ s.frame.locals).receive d v?) fun _ =>
    hlocal.truthful_after hav rfl fun u hu hd =>
      (Store.temp?_receive_local hu _ d v?).trans ((if_neg hd).trans (Store.temp?_mk hu _ s.store))
  rw [← State.withStore_receive, ← State.withStore_receive]
  have hstore : (State.mk globals output { s'.frame with rest := is', staged := ∅ } []).store =
      Store.mk ⟨globals, output, ∅⟩ s.frame.locals := by rw [← hlocals]; rfl
  rw [hstore]
  exact hgoes

/-- Jumps lead to the same place. -/
theorem goTo_settled (h : c.Abreast body s s') {l : Label} (hl : .label l ∉ body)
    (is is' : List Instr) : Matches Eq (c.Abreast body) ((s.alone.withRest is).goTo l >>= fun u => .ok u.settled)
      ((s'.alone.withRest is').goTo l >>= fun u => .ok u.settled) := by
  have hproc : (s.alone.withRest is).frame.proc = c.procedure body := h.proc_eq
  have hproc' : (s'.alone.withRest is').frame.proc = c.procedure (reuseBody [] body) := h.proc_eq'
  unfold State.goTo
  rw [hproc, hproc']
  rcases (c.reusing_procedure body).from? hl with ⟨rest, rest', hr, hr', hreusing⟩ | ⟨hr, hr'⟩
  · rw [hr, hr']
    have hnext : c.Abreast body (s.alone.withRest rest) (s'.alone.withRest rest') :=
      { h with suffix := from?_suffix hr, suffix' := from?_suffix hr', reusing := ⟨[], nofun, hreusing⟩ }
    exact .ok (hnext.alike_settled rfl rfl)
  · rw [hr, hr']
    exact .error_of_eq (fun _ => rfl) rfl

/-- At a jump or return, which stands outside the code. -/
theorem inStep_terminator (hs : c.Straight body) (h : c.Abreast body s s') {i : Instr} {is : List Instr}
    (hr : s.frame.rest = i :: is) (hi : i.isTerminator = true) : InStep Eq (c.Abreast body) s s' := by
  obtain ⟨av, is', hr', -, hnext⟩ := h.uncons hr
  have hnot : i ∉ body := fun hmem => by simp [hs.isTerminator i hmem] at hi
  have hbehind : c.Abreast body (s.alone.withRest is) (s'.alone.withRest is') :=
    { hnext s.store fun hmem => absurd hmem hnot with store_eq := h.store_eq }
  have hgoes := hbehind.alike_settled rfl rfl
  have hmem : i ∈ c.pre ++ c.rest := by
    have := h.suffix.subset (hr ▸ List.mem_cons_self : i ∈ s.frame.rest)
    simpa [procedure, hnot] using this
  have hended : ∀ k?, (leave s.globals s.output k? []).Alike (c.Abreast body) (leave s'.globals s'.output k? []) := by
    intro k?
    rw [h.globals_eq, h.output_eq]
    exact .ended _
  have hstore : (s'.alone.withRest is').store = (s.alone.withRest is).store := h.store_eq
  cases i with
  | jump l =>
    exact .of_execute hr hr' rfl rfl nofun nofun (h.goTo_settled (hs.target _ hmem l rfl) is is')
  | branch cond o l =>
    refine .of_execute hr hr' rfl rfl nofun nofun (matches_read hstore o fun k => ?_)
    cases cond.holds k with
    | true => exact h.goTo_settled (hs.target _ hmem l rfl) is is'
    | false => exact .ok hgoes
  | ret o? =>
    cases o? with
    | none => exact .of_execute hr hr' rfl rfl nofun nofun (.ok (hended none))
    | some o =>
      exact .of_execute hr hr' rfl rfl nofun nofun (matches_read hstore o fun k => .ok (hended (some k)))
  | _ => cases hi

/-- At phis. -/
theorem inStep_phis (h : c.Abreast body s s') {i : Instr} {is : List Instr} (hr : s.frame.rest = i :: is)
    (hi : i.isPhi = true) : InStep Eq (c.Abreast body) s s' := by
  obtain ⟨av, hav, hreusing⟩ := h.reusing
  obtain ⟨av', hreusing', hav'⟩ := hreusing.dropWhile
  have hgroup : ∀ j ∈ s.frame.rest.takeWhile Instr.isPhi, j.isPhi = true :=
    List.all_eq_true.1 List.all_takeWhile
  have hsplit := (List.takeWhile_append_dropWhile (p := Instr.isPhi) (l := s.frame.rest)).symm
  have hsplit' := (List.takeWhile_append_dropWhile (p := Instr.isPhi) (l := s'.frame.rest)).symm
  rw [hreusing.takeWhile_eq] at hsplit'
  have hsuffix := List.dropWhile_suffix (l := s.frame.rest) Instr.isPhi
  have hsuffix' := List.dropWhile_suffix (l := s'.frame.rest) Instr.isPhi
  have hphis : s.frame.rest.takeWhile Instr.isPhi = i :: is.takeWhile Instr.isPhi := by
    rw [hr, List.takeWhile_cons_of_pos hi]
  generalize s.frame.rest.takeWhile Instr.isPhi = group at *
  subst hphis
  -- Before any label phis are stuck, on both sides.
  cases hprev : s.frame.previous? with
  | none => exact .of_stuck hprev (h.previous?_eq.trans hprev) hsplit hsplit' hi hi
  | some l =>
    refine .of_phis hprev (h.previous?_eq.trans hprev) hsplit hsplit' hgroup hgroup ?_ ?_ ?_ ?_
    · exact takeWhile_dropWhile _ _
    · exact takeWhile_dropWhile _ _
    · rw [h.store_eq]
    · intro σ τ hσ hτ
      rw [h.store_eq] at hτ
      obtain rfl : τ = σ := by
        obtain ⟨ws, hws, rfl⟩ := hσ
        obtain ⟨ws', hws', rfl⟩ := hτ
        cases hws.symm.trans hws'
        rfl
      exact (h.goesOn hsuffix hsuffix' (hav.phis hσ hav') hreusing').alike_settled rfl rfl

/-- Wherever the two procedures stand, they take their next steps together. -/
theorem inStep (hs : c.Straight body) (hlocal : WritesLocals body) (h : c.Abreast body s s') :
    InStep Eq (c.Abreast body) s s' := by
  cases hr : s.frame.rest with
  | nil =>
    obtain ⟨av, -, hreusing⟩ := h.reusing
    have hr' : s'.frame.rest = [] := by simpa [hr] using hreusing.isEmpty_eq
    refine .plain (by simp [State.Calling, hr]) (by simp [State.Calling, hr']) ?_
    have hgoes : s.alone.settled.Alike (c.Abreast body) s'.alone.settled :=
      alike_settled { h with } rfl rfl
    have step_nil {u : State} (hu : u.frame.rest = []) : u.step [] = .ok u.settled := by
      simp only [State.step, hu]
      rfl
    rw [step_nil (u := s.alone) hr, step_nil (u := s'.alone) hr']
    exact .ok hgoes
  | cons i is =>
    cases i with
    | phi => exact h.inStep_phis hr rfl
    | label => exact h.inStep_label hlocal hr
    | call => exact h.inStep_call hlocal hr
    | jump | branch | ret => exact h.inStep_terminator hs hr rfl
    | nop | const | copy | unary | binary | param =>
      exact h.inStep_plain hlocal hr ⟨rfl, rfl, rfl⟩ (by simp)

end Abreast

/-- The procedure runs in step with the one with reuse in it. -/
theorem lockstep (hs : c.Straight body) (hlocal : WritesLocals body) :
    Lockstep Eq (c.procedure body) (c.procedure (reuseBody [] body)) (c.Abreast body) where
  refl _ := rfl
  name_eq := rfl
  params_eq := rfl
  start _ _ _ := {
    store_eq := rfl
    previous?_eq := rfl
    current?_eq := rfl
    proc_eq := rfl
    proc_eq' := rfl
    suffix := List.suffix_refl _
    suffix' := List.suffix_refl _
    reusing := ⟨[], nofun, c.reusing_procedure body⟩ }
  under _ _ h := { h with }
  shared h := ⟨h.globals_eq, h.output_eq⟩
  isEmpty_eq h := h.reusing.elim fun _ hr => hr.2.isEmpty_eq
  step h := .inl (h.inStep hs hlocal)

theorem store_eq (h : s.AllBeside (c.Abreast body) s') : s'.store = s.store := by
  rcases h.top with hsame | hR
  · exact (congrArg State.store hsame :)
  · exact hR.store_eq

/-- Steps of the two programs match. -/
theorem step_matches (hs : c.Straight body) (hlocal : WritesLocals body) (h : s.AllBeside (c.Abreast body) s') :
    Matches Eq (State.AllBeside (c.Abreast body)) (s.step (c.program body))
      (s'.step (c.program (reuseBody [] body))) := by
  have hlockstep := c.lockstep hs hlocal
  rcases h.top with hsame | hR
  · exact hlockstep.step_of_same hsame h.callers
  · exact hlockstep.inStep hR (hR.inStep hs hlocal) h.callers

/-- What follows the code is known by its length. -/
theorem rest_eq_iff {is : List Instr} (h : is <:+ (c.procedure body).body) :
    is = c.rest ↔ is.length = c.rest.length := by
  have hrest : c.rest <:+ (c.procedure body).body := by simp [procedure, ← List.append_assoc]
  refine ⟨fun heq => congrArg List.length heq, fun hlength => ?_⟩
  exact (List.suffix_of_suffix_length_le h hrest (Nat.le_of_eq hlength)).eq_of_length hlength

/-- Both procedures are behind the code, or neither is. -/
theorem passed_iff {depth : Nat} (h : s.AllBeside (c.Abreast body) s') : c.Passed depth s ↔ c.Passed depth s' := by
  unfold Passed
  rw [← h.callers.length_eq]
  refine and_congr_right fun _ => ?_
  rcases h.top with hsame | hR
  · have hframe : s'.frame = s.frame := (congrArg State.frame hsame :)
    rw [hframe]
  · obtain ⟨av, -, hreusing⟩ := hR.reusing
    rw [rest_eq_iff hR.suffix, rest_eq_iff hR.suffix', hreusing.length_eq]

/-- The two programs, at the code in the same state. -/
theorem allBeside_enter (c : Site) (body : List Instr) (s : State) :
    (c.enter body s).AllBeside (c.Abreast body) (c.enter (reuseBody [] body) s) where
  top := .inr {
    store_eq := rfl
    previous?_eq := rfl
    current?_eq := rfl
    proc_eq := rfl
    proc_eq' := rfl
    suffix := List.suffix_append c.pre _
    suffix' := List.suffix_append c.pre _
    reusing := ⟨[], nofun, .append (fun av => .refl body av c.rest) (List.Subset.refl body) []⟩ }
  callers := List.forall₂_same.2 fun k _ => .refl _ k

end Site

/-- What local elimination makes of straight-line code whose computations write locals does what the code did, in
every program around it: from every state the machine gets to the end of the one exactly if it gets to the end of
the other, and there has the same locals, globals, staged arguments and lines. -/
theorem Site.executes_reuseLocal (c : Site) {b : Block} (hs : c.Straight b.body) (hlocal : WritesLocals b.body)
    (s : State) (σ : Store) : c.Executes b.reuseLocal.body s σ ↔ c.Executes b.body s σ := by
  have hbeside := c.allBeside_enter b.body s
  constructor
  · rintro ⟨t', ht', rfl⟩
    obtain ⟨t, ht, h⟩ := ht'.matched (R := fun s' s => s.AllBeside (c.Abreast b.body) s')
      (fun h => (passed_iff h).symm) (fun h => (step_matches hs hlocal h).flip) hbeside
    exact ⟨t, ht, (store_eq h).symm⟩
  · rintro ⟨t, ht, rfl⟩
    obtain ⟨t', ht', h⟩ := ht.matched (R := State.AllBeside (c.Abreast b.body))
      passed_iff (step_matches hs hlocal) hbeside
    exact ⟨t', ht', store_eq h⟩

/-- A place in a procedure that ends at once where its parameter is zero. -/
def descent : Site where
  before := []
  after := []
  name := "@down"
  params := [⟨"%n"⟩]
  pre := [.branch .jz (.temp ⟨"%n"⟩) ⟨"done"⟩]
  next := .label ⟨"done"⟩
  post := [.ret none]
  next_isPhi := rfl

/-- Calls the procedure in which it stands. One less is computed again behind the call, then into the operand itself,
and then from the new operand. -/
def descending : Block where
  label := ⟨"body"⟩
  body := [
    .binary ⟨"%a"⟩ .sub (.temp ⟨"%n"⟩) (.imm 1),
    .param 1 (.temp ⟨"%a"⟩),
    .call (some ⟨"%u"⟩) "@down" 1,
    .binary ⟨"%b"⟩ .sub (.temp ⟨"%n"⟩) (.imm 1),
    .binary ⟨"%n"⟩ .sub (.temp ⟨"%n"⟩) (.imm 1),
    .binary ⟨"%c"⟩ .sub (.temp ⟨"%n"⟩) (.imm 1)]
  jumps := []

/-- The second and the third computation become copies, and the fourth does not. The call leaves its destination
undefined. -/
theorem executes_reuseLocal_descent :
    descent.Straight descending.body ∧ WritesLocals descending.body ∧
      (descending.reuseLocal.body.drop 3 = [.copy ⟨"%b"⟩ (.temp ⟨"%a"⟩), .copy ⟨"%n"⟩ (.temp ⟨"%a"⟩),
        .binary ⟨"%c"⟩ .sub (.temp ⟨"%n"⟩) (.imm 1)]) ∧
      descent.Executes descending.reuseLocal.body
        ⟨∅, [], .start (descent.procedure descending.body) [1], []⟩
        ⟨⟨∅, [], ∅⟩, .ofList [(⟨"%n"⟩, 0), (⟨"%a"⟩, 0), (⟨"%b"⟩, 0), (⟨"%c"⟩, -1)]⟩ := by
  have hs : descent.Straight descending.body := ⟨by decide, fun _ _ _ _ => by simp [descending]⟩
  have hdest : ∀ i ∈ descending.body, ∀ t ∈ i.dest?, t.isGlobal = false := by decide
  have hlocal : WritesLocals descending.body := fun i hi _ t _ ht => hdest i hi t ht
  refine ⟨hs, hlocal, by decide, (descent.executes_reuseLocal hs hlocal _ _).2 ⟨_,
    .step (by decide) rfl <| .step (by decide) rfl <| .step (by decide) rfl <| .step (by decide) rfl <|
    .step (by decide) rfl <| .step (by decide) rfl <| .step (by decide) rfl <| .step (by decide) rfl <|
    .step (by decide) rfl <| .here (by decide), rfl⟩⟩

end ThreeAddress.CommonSubexpr

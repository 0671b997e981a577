import Mathlib.Logic.Relation
import ThreeAddress.Proofs.Runs
/-!
# Where control can be in linear code

A body read as a graph of spots: what is still to come, and the label that was passed last. Conditions are not
looked at, so that a conditional jump leads to both sides. Whatever a program does, each of its procedures stands
at a spot that control can get to in this way (`State.Visiting.of_reaches`).
-/

namespace ThreeAddress

/-- A spot in linear code: the instructions to come, and the label that was passed last. -/
structure Spot where
  rest : List Instr
  passed? : Option Label
deriving DecidableEq

/-- The spots of a body where control can be next: behind the instruction, or where it jumps to. -/
def Spot.nexts (body : List Instr) (s : Spot) : List Spot :=
  match s.rest with
  | [] => []
  | i :: rest =>
    (if i.isFinal then [] else [⟨rest, i.label?.or s.passed?⟩]) ++
      (i.target?.bind (from? · body)).toList.map fun later => ⟨later, s.passed?⟩

/-- A jump to a label that is there finds it. -/
theorem exists_from? {t : Label} {is : List Instr} (h : .label t ∈ is) : ∃ later, from? t is = some later := by
  induction is with
  | nil => cases h
  | cons i is ih =>
    rw [from?]
    cases hlater : from? t is with
    | some later => exact ⟨later, rfl⟩
    | none =>
      rcases List.mem_cons.1 h with rfl | h
      · exact ⟨_, if_pos rfl⟩
      · obtain ⟨later, hsome⟩ := ih h
        rw [hlater] at hsome
        cases hsome

namespace Procedure

variable {p : Procedure}

/-- Control can be at a spot of the body. -/
def Visits (p : Procedure) : Spot → Prop :=
  Relation.ReflTransGen (fun s t => t ∈ s.nexts p.body) ⟨p.body, none⟩

/-- Control stays in the body. -/
theorem Visits.suffix {s : Spot} (h : p.Visits s) : s.rest <:+ p.body := by
  induction h with
  | refl => exact List.suffix_rfl
  | @tail s t _ ht ih =>
    unfold Spot.nexts at ht
    split at ht
    · cases ht
    · rename_i i rest hrest
      rcases List.mem_append.1 ht with ht | ht
      · split at ht
        · cases ht
        · obtain rfl := List.mem_singleton.1 ht
          exact (List.suffix_cons i rest).trans (hrest ▸ ih)
      · obtain ⟨later, hlater, rfl⟩ := List.mem_map.1 ht
        obtain ⟨l, -, hl⟩ := Option.bind_eq_some_iff.1 (Option.mem_toList.1 hlater)
        exact from?_suffix hl

/-- Control goes on behind an instruction that is no jump or return. -/
theorem Visits.on {i : Instr} {rest : List Instr} {k? : Option Label} (h : p.Visits ⟨i :: rest, k?⟩)
    (hi : i.isFinal = false) : p.Visits ⟨rest, i.label?.or k?⟩ :=
  h.tail (by simp [Spot.nexts, hi])

/-- Control goes where an instruction jumps to. -/
theorem Visits.jump {i : Instr} {rest later : List Instr} {k? : Option Label} {t : Label}
    (h : p.Visits ⟨i :: rest, k?⟩) (hi : i.target? = some t) (ht : from? t p.body = some later) :
    p.Visits ⟨later, k?⟩ :=
  h.tail (by simp [Spot.nexts, hi, ht])

/-- Control goes on behind phis. -/
theorem Visits.dropPhis {rest : List Instr} {k? : Option Label} (h : p.Visits ⟨rest, k?⟩) :
    p.Visits ⟨rest.dropWhile Instr.isPhi, k?⟩ := by
  induction rest with
  | nil => exact h
  | cons i rest ih =>
    rw [List.dropWhile_cons]
    split
    · rename_i hi
      have hon := h.on (Instr.isFinal_of_not_isTerminator (Instr.isTerminator_of_isPhi hi))
      rw [Instr.label?_of_isPhi hi] at hon
      exact ih hon
    · exact h

end Procedure

/-! ## Runs of the machine -/

/-- The procedure of a frame stands at a spot where control can be. -/
def Frame.Visiting (fr : Frame) : Prop := fr.proc.Visits ⟨fr.rest, fr.current?⟩

/-- The running procedure does, and those that wait for it. -/
structure State.Visiting (s : State) : Prop where
  frame : s.frame.Visiting
  callers : ∀ k ∈ s.callers, k.frame.Visiting

namespace State

variable {s s' : State}

theorem Visiting.withStore (h : s.Visiting) (σ : Store) : (s.withStore σ).Visiting := ⟨h.frame, h.callers⟩

theorem Visiting.receive (h : s.Visiting) (dest? : Option Temp) (v? : Option Int64) :
    (s.receive dest? v?).Visiting := by
  rw [← withStore_receive]
  exact h.withStore _

/-- A procedure that waited stands where control comes back to. -/
theorem visiting_resumed {callers : List Caller} (h : ∀ k ∈ callers, k.frame.Visiting) (hs : Resumes callers s) :
    s.Visiting := by
  obtain ⟨hsuffix⟩ := hs
  have hstate := fun k hk => h k (hsuffix.subset hk)
  exact Visiting.receive ⟨hstate _ List.mem_cons_self, fun k hk => hstate k (.tail _ hk)⟩ _ _

theorem Visiting.settled (h : s.Visiting) (hs : s.settled = .running s') : s'.Visiting := by
  rcases eq_or_resumes_of_settled hs with rfl | hs
  · exact h
  · exact visiting_resumed h.callers hs

theorem visiting_start (p : Procedure) (args : List Int64) {callers : List Caller}
    (h : ∀ k ∈ callers, k.frame.Visiting) (globals : Table Temp Int64) (output : List String) :
    (State.mk globals output (.start p args) callers).Visiting := ⟨.refl, h⟩

/-- Every step leads from spots where control can be to such spots. -/
theorem Visiting.step {P : Program} (h : s.Visiting) (hs : s.step P = .ok (.running s')) : s'.Visiting := by
  cases hrest : s.frame.rest with
  | nil =>
    rw [State.step, hrest] at hs
    exact h.settled (Except.ok.inj hs)
  | cons i rest =>
  have hspot : s.frame.proc.Visits ⟨i :: rest, s.frame.current?⟩ := hrest ▸ h.frame
  have on (hf : i.isFinal = false) (hl : i.label? = none) : (s.withRest rest).Visiting := by
    have hon := hspot.on hf
    rw [hl] at hon
    exact ⟨hon, h.callers⟩
  have goTo {l : Label} {later : List Instr} (ht : i.target? = some l)
      (hlater : from? l s.frame.proc.body = some later) : (s.withRest later).Visiting :=
    ⟨hspot.jump ht hlater, h.callers⟩
  generalize hnext : Progress.running s' = next at hs
  cases move_of_step hrest hs with
  | phis hi =>
    have hdrop := hspot.dropPhis
    rw [List.dropWhile_cons_of_pos hi] at hdrop
    have hbehind : (s.withRest (rest.dropWhile Instr.isPhi)).Visiting := ⟨hdrop, h.callers⟩
    exact (hbehind.withStore _).settled hnext.symm
  | exec hσ =>
    obtain ⟨-, ht, hl⟩ := hσ.plain
    exact ((on (Instr.isFinal_of_not_isTerminator ht) hl).withStore _).settled hnext.symm
  | @label l =>
    have hpassed : ((s.withRest rest).enter l).Visiting := ⟨hspot.on rfl, h.callers⟩
    exact hpassed.settled hnext.symm
  | jump hlater => exact (goTo rfl hlater).settled hnext.symm
  | taken _ _ hlater => exact (goTo rfl hlater).settled hnext.symm
  | passed => exact (on rfl rfl).settled hnext.symm
  | ret => exact visiting_resumed h.callers (resumes_of_leave hnext.symm)
  | retValue => exact visiting_resumed h.callers (resumes_of_leave hnext.symm)
  | print => exact ((on rfl rfl).withStore _).settled hnext.symm
  | @call _ _ _ args p =>
    -- The caller waits behind its call, where control comes back to.
    refine (visiting_start p args (fun k hk => ?_) _ _).settled hnext.symm
    rcases List.mem_cons.1 hk with rfl | hk
    · exact (on rfl rfl).frame
    · exact h.callers k hk

/-- At every point of every run all procedures stand at spots where control can be. -/
theorem Visiting.of_reaches {P : Program} {entry : String} {args : List Int64} {x : Progress}
    (h : P.Reaches entry args x) : ∀ s, x = .running s → s.Visiting :=
  h.invariant (fun p => visiting_start p args (by simp) _ _) fun h hs => h.step hs

end State

end ThreeAddress

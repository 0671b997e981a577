import ThreeAddress.Proofs.Machine
/-!
# The points of a run

`Program.Reaches` holds of the states that a run passes through and of what it ends with, and
`Program.after` is the point after so many steps. A run that ends in a fault has its points as well.
What holds where a procedure is called from outside and is kept by each step holds at all of them
(`Program.Reaches.invariant`).

A step may end in a return through any number of procedures. `State.Resumes` says all that can come of
it: some procedure that waits goes on with a result, and those that wait for it still do.
-/

namespace ThreeAddress

/-- The points of the run that begins with the call of a procedure. -/
inductive Program.Reaches (P : Program) (entry : String) (args : List Int64) : Progress → Prop
  | start {p : Progress} : P.start entry args = .ok p → Reaches P entry args p
  | step {s : State} {p : Progress} :
      Reaches P entry args (.running s) → s.step P = .ok p → Reaches P entry args p

/-- The point of a run after so many steps, the last one if there are no more. -/
def Program.after (P : Program) (entry : String) (args : List Int64) : Nat → Except Fault Progress
  | 0 => P.start entry args
  | n + 1 =>
    match P.after entry args n with
    | .ok (.running s) => s.step P
    | p => p

theorem Program.reaches_of_after {P : Program} {entry : String} {args : List Int64} {n : Nat}
    {p : Progress} (h : P.after entry args n = .ok p) : P.Reaches entry args p := by
  induction n generalizing p with
  | zero => exact .start h
  | succ n ih =>
    simp only [after] at h
    split at h
    · exact .step (ih ‹_›) h
    · exact ih h

/-! ## Returning -/

namespace State

/-- One of the procedures that wait goes on with a result. -/
inductive Resumes (callers : List Caller) : State → Prop
  | intro {k : Caller} {later : List Caller} {globals : Table Temp Int64} {output : List String}
      {v? : Option Int64} : k :: later <:+ callers →
      Resumes callers ((State.mk globals output k.frame later).receive k.dest? v?)

variable {s s' : State}

/-- Procedures that have nothing left to do are passed over. -/
theorem resumes_of_leave {callers : List Caller} {globals : Table Temp Int64} {output : List String}
    {v? : Option Int64} (h : leave globals output v? callers = .running s) : Resumes callers s := by
  induction callers generalizing globals output v? with
  | nil => cases h
  | cons k callers ih =>
    simp only [leave] at h
    split at h
    · obtain ⟨hsuffix⟩ := ih h
      exact ⟨hsuffix.trans (List.suffix_cons k callers)⟩
    · cases h
      exact ⟨List.suffix_rfl⟩

theorem eq_or_resumes_of_settled (h : s.settled = .running s') : s' = s ∨ Resumes s.callers s' := by
  unfold settled at h
  split at h
  · exact .inr (resumes_of_leave h)
  · exact .inl (Progress.running.inj h).symm

end State

/-! ## Invariants -/

/-- What holds of every procedure that is called from outside and is kept by steps holds wherever a run gets. -/
theorem Program.Reaches.invariant {P : Program} {entry : String} {args : List Int64} {Inv : State → Prop}
    (start : ∀ p : Procedure, Inv (State.mk P.globals [] (.start p args) []))
    (step : ∀ {s s' : State}, Inv s → s.step P = .ok (.running s') → Inv s') {x : Progress}
    (h : P.Reaches entry args x) : ∀ s, x = .running s → Inv s := by
  induction h with
  | start hstart =>
    rintro s rfl
    rcases start_eq_ok.1 hstart with ⟨text, -, hx⟩ | ⟨p, -, hx⟩
    · cases hx
    · rcases State.eq_or_resumes_of_settled hx.symm with rfl | hresumes
      · exact start p
      -- Nothing waits for the procedure that is called from outside.
      · obtain ⟨hsuffix⟩ := hresumes
        cases List.suffix_nil.1 hsuffix
  | step _ hstep ih =>
    rintro s rfl
    exact step (ih _ rfl) hstep

end ThreeAddress

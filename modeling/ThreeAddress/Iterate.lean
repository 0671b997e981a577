/-!
# Iteration

`untilStable f n a` applies `f` again and again until a value stays the same, at most `n` times, and
`exhaust step? n a` takes steps until there is none to take. Where a measure falls with each change, a
bound on it as `n` is enough.
-/

namespace ThreeAddress

/-- Takes steps as long as there is one to take, at most `n` of them. -/
def exhaust {α : Type} (step? : α → Option α) : (n : Nat) → α → α
  | 0, a => a
  | n + 1, a =>
    match step? a with
    | some b => exhaust step? n b
    | none => a

variable {α : Type} [DecidableEq α]

/-- Applies a function until its value no longer changes, at most `n` times. -/
def untilStable (f : α → α) : (n : Nat) → α → α
  | 0, a => a
  | n + 1, a => if f a = a then a else untilStable f n (f a)

/-- What holds at the start and is kept by the function holds at the end. -/
theorem untilStable_induction {f : α → α} {P : α → Prop} (step : ∀ a, P a → P (f a)) (n : Nat)
    {a : α} (h : P a) : P (untilStable f n a) := by
  induction n generalizing a with
  | zero => exact h
  | succ n ih =>
    rw [untilStable]
    split
    · exact h
    · exact ih (step a h)

/-- Nothing changes any more at the end, if each change lowers a measure and there are as many
turns as the measure allows. -/
theorem untilStable_fixed {f : α → α} {P : α → Prop} (μ : α → Nat) (step : ∀ a, P a → P (f a))
    (lower : ∀ a, P a → f a ≠ a → μ (f a) < μ a) {n : Nat} {a : α} (ha : P a) (hn : μ a ≤ n) :
    f (untilStable f n a) = untilStable f n a := by
  induction n generalizing a with
  | zero =>
    refine Classical.byContradiction fun h => ?_
    have : μ (f a) < μ a := lower a ha h
    omega
  | succ n ih =>
    rw [untilStable]
    split
    · assumption
    · rename_i h
      have := lower a ha h
      exact ih (step a ha) (by omega)

end ThreeAddress

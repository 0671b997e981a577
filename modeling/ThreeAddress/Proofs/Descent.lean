import Mathlib.Algebra.GroupWithZero.Nat
import ThreeAddress.Iterate
/-!
# Descent

The iterations of the analyses are made of many small steps, each of which leaves a value as it is or
lowers a measure. Then a whole round does so as well, and a round that changes nothing is made of
steps that change nothing: this is how a fixpoint of rounds is one of every rule.
-/

namespace ThreeAddress

variable {α β : Type} {μ : α → Nat}

/-- `b` is `a` or lower. -/
def Descends (μ : α → Nat) (a b : α) : Prop := b = a ∨ μ b < μ a

namespace Descends

theorem refl (a : α) : Descends μ a a := .inl rfl

theorem trans {a b c : α} (h : Descends μ a b) (h' : Descends μ b c) : Descends μ a c := by
  rcases h with rfl | h
  · exact h'
  · rcases h' with rfl | h'
    · exact .inr h
    · exact .inr (Nat.lt_trans h' h)

/-- A way down that comes back to where it began has never left. -/
theorem eq_of_eq {a b c : α} (h : Descends μ a b) (h' : Descends μ b c) (e : c = a) : b = a := by
  rcases h with h | h
  · exact h
  · rcases h' with rfl | h'
    · exact e
    · subst e
      exact absurd h (Nat.lt_asymm h')

/-- Steps that keep an invariant and descend do so one after another. -/
theorem foldl {P : α → Prop} {op : α → β → α} {xs : List β}
    (step : ∀ x ∈ xs, ∀ a, P a → P (op a x) ∧ Descends μ a (op a x)) {a : α} (ha : P a) :
    P (xs.foldl op a) ∧ Descends μ a (xs.foldl op a) ∧
      (xs.foldl op a = a → ∀ x ∈ xs, op a x = a) := by
  induction xs generalizing a with
  | nil => exact ⟨ha, .refl a, by simp⟩
  | cons x xs ih =>
    obtain ⟨hx, hdown⟩ := step x List.mem_cons_self a ha
    obtain ⟨hp, hdown', hsame⟩ := ih (fun y hy => step y (.tail _ hy)) hx
    rw [List.foldl_cons]
    refine ⟨hp, hdown.trans hdown', fun he y hy => ?_⟩
    have hxa : op a x = a := hdown.eq_of_eq hdown' he
    rw [hxa] at he hsame
    rcases List.mem_cons.1 hy with rfl | hy
    · exact hxa
    · exact hsame he y hy

end Descends

/-- Rounds that descend come to a value that they no longer change. -/
theorem untilStable_of_descends {α : Type} [DecidableEq α] {μ : α → Nat} {f : α → α} {P : α → Prop}
    (step : ∀ a, P a → P (f a) ∧ Descends μ a (f a)) {n : Nat} {a : α} (ha : P a) (hn : μ a ≤ n) :
    f (untilStable f n a) = untilStable f n a :=
  untilStable_fixed μ (fun a h => (step a h).1) (fun a h hne => (step a h).2.resolve_left hne) ha hn

/-- A loop that applies a function until nothing changes any more, however often that is, turns the first value
into the second. -/
inductive Settles {α : Type} (f : α → α) : α → α → Prop
  | stop {a : α} : f a = a → Settles f a a
  | next {a b : α} : f a ≠ a → Settles f (f a) b → Settles f a b

/-- Rounds that descend come to their end before their number does. -/
theorem settles_untilStable {α : Type} [DecidableEq α] {μ : α → Nat} {f : α → α} {P : α → Prop}
    (step : ∀ a, P a → P (f a) ∧ Descends μ a (f a)) {n : Nat} {a : α} (ha : P a) (hn : μ a ≤ n) :
    Settles f a (untilStable f n a) := by
  induction n generalizing a with
  | zero =>
    refine .stop ((step a ha).2.resolve_right fun hlt => ?_)
    omega
  | succ n ih =>
    rw [untilStable]
    split
    · exact .stop ‹_›
    · rename_i hne
      have hlt : μ (f a) < μ a := (step a ha).2.resolve_left hne
      exact .next hne (ih (step a ha).1 (by omega))

/-- A loop that takes steps as long as there is one to take, however many that are, turns the first value into the
second. -/
inductive Exhausts {α : Type} (step? : α → Option α) : α → α → Prop
  | stop {a : α} : step? a = none → Exhausts step? a a
  | next {a b c : α} : step? a = some b → Exhausts step? b c → Exhausts step? a c

/-- Steps that descend come to their end before their number does. -/
theorem exhausts_exhaust {step? : α → Option α} {P : α → Prop}
    (step : ∀ a b, P a → step? a = some b → P b ∧ μ b < μ a) {n : Nat} {a : α} (ha : P a) (hn : μ a ≤ n) :
    Exhausts step? a (exhaust step? n a) := by
  induction n generalizing a with
  | zero =>
    refine .stop (Option.eq_none_iff_forall_ne_some.2 fun b hb => ?_)
    have := (step a b ha hb).2
    omega
  | succ n ih =>
    rw [exhaust]
    split
    · rename_i b hb
      obtain ⟨hp, hlt⟩ := step a b ha hb
      exact .next hb (ih hp (by omega))
    · exact .stop ‹_›

/-- What each step keeps holds in the end, when there is no step to take. -/
theorem Exhausts.induction {step? : α → Option α} {P : α → Prop} (step : ∀ a b, P a → step? a = some b → P b)
    {a b : α} (h : Exhausts step? a b) (ha : P a) : P b ∧ step? b = none := by
  induction h with
  | stop hnone => exact ⟨ha, hnone⟩
  | next hsome _ ih => exact ih (step _ _ ha hsome)

/-- A measure that is a sum of so many numbers of a bounded size. -/
theorem sum_map_le {g : α → Nat} {n : Nat} {xs : List α} (h : ∀ x ∈ xs, g x ≤ n) :
    (xs.map g).sum ≤ xs.length * n := by
  induction xs with
  | nil => simp
  | cons x xs ih =>
    have hx := h x List.mem_cons_self
    have := ih fun y hy => h y (.tail _ hy)
    rw [List.map_cons, List.sum_cons, List.length_cons, Nat.succ_mul]
    omega

end ThreeAddress

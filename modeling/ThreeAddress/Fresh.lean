/-!
# Fresh names

A family of names counts upward; a name is fresh if it is not on a list of names that are taken.
Among one name more than there are on the list, at least one is fresh.
-/

namespace ThreeAddress

/-- The first number from `start` on whose name is not taken. -/
def firstFree {α : Type} [DecidableEq α] (taken : List α) (name : Nat → α) (start : Nat) : Nat :=
  go taken.length start
where
  /-- Tries `n` names before it takes the next one as it is. -/
  go : Nat → Nat → Nat
    | 0, i => i
    | n + 1, i => if name i ∈ taken then go n (i + 1) else i

end ThreeAddress

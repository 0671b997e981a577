/-!
# Ascending lists

A finite set of names as a list in strictly ascending order.
-/

namespace ThreeAddress

variable {α : Type} [LT α] [DecidableLT α]

/-- Puts an element in its place, unless it is there already. -/
def insertAscending (a : α) : List α → List α
  | [] => [a]
  | b :: bs =>
    if a < b then a :: b :: bs
    else if b < a then b :: insertAscending a bs
    else b :: bs

/-- The elements of a list in ascending order, each once. -/
def ascending (as : List α) : List α :=
  as.foldl (fun sorted a => insertAscending a sorted) []

/-! ## Membership -/

theorem mem_of_mem_insertAscending {a b : α} {as : List α} (h : b ∈ insertAscending a as) :
    b = a ∨ b ∈ as := by
  induction as with
  | nil => simpa [insertAscending] using h
  | cons c cs ih =>
    simp only [insertAscending] at h
    split at h
    · simpa using h
    split at h
    · rcases List.mem_cons.1 h with rfl | h
      · simp
      · rcases ih h with h | h <;> simp [h]
    · exact .inr h

theorem mem_insertAscending (hlt : ∀ a b : α, ¬ a < b → ¬ b < a → a = b) {a b : α} {as : List α} :
    b ∈ insertAscending a as ↔ b = a ∨ b ∈ as := by
  refine ⟨mem_of_mem_insertAscending, fun h => ?_⟩
  induction as with
  | nil => simpa [insertAscending] using h
  | cons c cs ih =>
    unfold insertAscending
    split
    · simpa using h
    · split
      · rcases h with h | h
        · exact .tail _ (ih (.inl h))
        · rcases List.mem_cons.1 h with rfl | h
          · exact .head _
          · exact .tail _ (ih (.inr h))
      · rename_i hac hca
        rcases h with rfl | h
        · exact hlt _ _ hac hca ▸ .head _
        · exact h

/-- The ascending list has all elements, where elements that are not ordered are equal. -/
theorem mem_ascending (hlt : ∀ a b : α, ¬ a < b → ¬ b < a → a = b) {a : α} {as : List α} :
    a ∈ ascending as ↔ a ∈ as := by
  have key : ∀ (as sorted : List α), a ∈ as.foldl (fun sorted a => insertAscending a sorted) sorted ↔
      a ∈ sorted ∨ a ∈ as := by
    intro as
    induction as with
    | nil => simp
    | cons b bs ih =>
      intro sorted
      rw [List.foldl_cons, ih, mem_insertAscending hlt, List.mem_cons]
      grind
  simpa [ascending] using key as []

/-! ## Order -/

theorem pairwise_insertAscending (htrans : ∀ a b c : α, a < b → b < c → a < c) (a : α) {as : List α}
    (h : as.Pairwise (· < ·)) : (insertAscending a as).Pairwise (· < ·) := by
  induction as with
  | nil => simp [insertAscending]
  | cons b bs ih =>
    obtain ⟨hb, hbs⟩ := List.pairwise_cons.1 h
    simp only [insertAscending]
    split
    · rename_i hab
      refine List.pairwise_cons.2 ⟨fun c hc => ?_, h⟩
      rcases List.mem_cons.1 hc with rfl | hc
      · exact hab
      · exact htrans _ _ _ hab (hb c hc)
    split
    · rename_i hba
      refine List.pairwise_cons.2 ⟨fun c hc => ?_, ih hbs⟩
      rcases mem_of_mem_insertAscending hc with rfl | hc
      · exact hba
      · exact hb c hc
    · exact h

theorem pairwise_ascending (htrans : ∀ a b c : α, a < b → b < c → a < c) (as : List α) :
    (ascending as).Pairwise (· < ·) :=
  List.foldlRecOn as _ List.Pairwise.nil fun _ h a _ => pairwise_insertAscending htrans a h

end ThreeAddress

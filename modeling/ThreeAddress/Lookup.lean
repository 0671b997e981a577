/-!
# Looking up a key in a list of pairs

Tables are lists of pairs, read by `List.lookup`. One equation, in which the head pair is not
taken apart, carries the lemmas about them.
-/

namespace ThreeAddress

variable {α β : Type} [BEq α] [LawfulBEq α] [DecidableEq α]

theorem lookup_cons_if (k : α) (e : α × β) (es : List (α × β)) :
    (e :: es).lookup k = if k = e.1 then some e.2 else es.lookup k := by
  obtain ⟨a, b⟩ := e
  rw [List.lookup_cons]
  by_cases h : k = a
  · simp [h]
  · have : (k == a) = false := beq_eq_false_iff_ne.2 h
    simp [h, this]

/-- A table with the same keys, whose values depend on the keys alone. -/
theorem lookup_map_key {γ : Type} (h : α → γ) (es : List (α × β)) (k : α) :
    (es.map fun e => (e.1, h e.1)).lookup k = (es.lookup k).map fun _ => h k := by
  induction es with
  | nil => rfl
  | cons e es ih =>
    rw [List.map_cons, lookup_cons_if, lookup_cons_if, ih]
    by_cases hk : k = e.1 <;> simp [hk]

omit [DecidableEq α] in
/-- What is found is there. -/
theorem mem_of_lookup {k : α} {v : β} {es : List (α × β)} (h : es.lookup k = some v) : (k, v) ∈ es := by
  obtain ⟨before, after, rfl, -⟩ := List.lookup_eq_some_iff.1 h
  simp

end ThreeAddress

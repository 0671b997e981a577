import ThreeAddress.Lookup
/-!
# Tables

A finite map as a list of pairs, read by `get?`. A key that is set again keeps its place. One lemma
for each operation says what it does to `get?`.
-/

namespace ThreeAddress

/-- A finite map from keys to values. -/
structure Table (α β : Type) where
  entries : List (α × β)
deriving DecidableEq, Repr

namespace Table

variable {α β : Type} [DecidableEq α]

instance : EmptyCollection (Table α β) := ⟨⟨[]⟩⟩

instance : Inhabited (Table α β) := ⟨∅⟩

/-- The value of a key. -/
def get? (t : Table α β) (k : α) : Option β :=
  t.entries.lookup k

def contains (t : Table α β) (k : α) : Bool :=
  (t.get? k).isSome

/-- Writes over the entry of a key, or adds one at the end. -/
def setEntry (k : α) (v : β) : List (α × β) → List (α × β)
  | [] => [(k, v)]
  | e :: es => if k = e.1 then (k, v) :: es else e :: setEntry k v es

/-- The table with `v` for the key `k`. -/
def set (t : Table α β) (k : α) (v : β) : Table α β :=
  ⟨setEntry k v t.entries⟩

/-- The table without the key `k`. -/
def erase (t : Table α β) (k : α) : Table α β :=
  ⟨t.entries.filter (fun e => e.1 ≠ k)⟩

/-- The table with `v?` for the key `k`, without it if there is none. -/
def put (t : Table α β) (k : α) (v? : Option β) : Table α β :=
  match v? with
  | some v => t.set k v
  | none => t.erase k

/-- The table with `f` applied to each value. -/
def mapValues (t : Table α β) (f : β → β) : Table α β :=
  ⟨t.entries.map fun e => (e.1, f e.2)⟩

/-- The table of a list of entries; of two entries with one key the later counts. -/
def ofList (es : List (α × β)) : Table α β :=
  es.foldl (fun t e => t.set e.1 e.2) ∅

/-! ## What each operation does to `get?` -/

@[simp] theorem get?_empty (k : α) : (∅ : Table α β).get? k = none := rfl

theorem lookup_setEntry (k l : α) (v : β) (es : List (α × β)) :
    (setEntry k v es).lookup l = if l = k then some v else es.lookup l := by
  induction es with
  | nil => simp [setEntry, lookup_cons_if]
  | cons e es ih =>
    simp only [setEntry]
    split
    · rename_i h
      rw [lookup_cons_if, lookup_cons_if, h]
      by_cases hl : l = e.1 <;> simp [hl]
    · rename_i h
      rw [lookup_cons_if, lookup_cons_if, ih]
      by_cases hl : l = e.1
      · simp [hl, Ne.symm h]
      · simp [hl]

@[simp] theorem get?_set (t : Table α β) (k l : α) (v : β) :
    (t.set k v).get? l = if l = k then some v else t.get? l :=
  lookup_setEntry k l v t.entries

@[simp] theorem get?_erase (t : Table α β) (k l : α) :
    (t.erase k).get? l = if l = k then none else t.get? l := by
  obtain ⟨es⟩ := t
  simp only [get?, erase]
  induction es with
  | nil => simp
  | cons e es ih =>
    rw [List.filter_cons, lookup_cons_if]
    by_cases he : e.1 = k
    · simp only [he, ne_eq, not_true_eq_false, decide_false, Bool.false_eq_true, if_false, ih]
      by_cases hl : l = k <;> simp [hl]
    · simp only [he, ne_eq, not_false_eq_true, decide_true, if_true]
      rw [lookup_cons_if, ih]
      by_cases hl : l = e.1
      · simp [hl, he]
      · simp [hl]

@[simp] theorem get?_put (t : Table α β) (k l : α) (v? : Option β) :
    (t.put k v?).get? l = if l = k then v? else t.get? l := by
  cases v? <;> simp [put]

@[simp] theorem get?_mapValues (t : Table α β) (k : α) (f : β → β) :
    (t.mapValues f).get? k = (t.get? k).map f := by
  obtain ⟨es⟩ := t
  simp only [get?, mapValues]
  induction es with
  | nil => rfl
  | cons e es ih =>
    rw [List.map_cons, lookup_cons_if, lookup_cons_if, ih]
    by_cases hk : k = e.1 <;> simp [hk]

theorem contains_iff {t : Table α β} {k : α} : t.contains k = true ↔ ∃ v, t.get? k = some v :=
  Option.isSome_iff_exists

theorem contains_set_of_contains {t : Table α β} {k : α} (h : t.contains k = true) (l : α) (v : β) :
    (t.set l v).contains k = true := by
  unfold contains at h ⊢
  rw [get?_set]
  split
  · rfl
  · exact h

theorem setEntry_of_notMem {k : α} {v : β} {es : List (α × β)} (h : k ∉ es.map Prod.fst) :
    setEntry k v es = es ++ [(k, v)] := by
  induction es with
  | nil => rfl
  | cons e es ih =>
    rw [List.map_cons, List.mem_cons, not_or] at h
    rw [setEntry, if_neg h.1, ih h.2, List.cons_append]

/-- Where no key comes twice, the entries of a list stay as they are. -/
theorem ofList_of_nodup {es : List (α × β)} (h : (es.map Prod.fst).Nodup) : ofList es = ⟨es⟩ := by
  have key : ∀ es ds : List (α × β), ((ds ++ es).map Prod.fst).Nodup →
      es.foldl (fun t e => t.set e.1 e.2) (⟨ds⟩ : Table α β) = ⟨ds ++ es⟩ := by
    intro es
    induction es with
    | nil => simp
    | cons e es ih =>
      intro ds hnodup
      rw [List.append_cons] at hnodup ⊢
      have hmem : e.1 ∉ ds.map Prod.fst := by
        rw [List.append_assoc, List.map_append, List.nodup_append] at hnodup
        exact fun hmem => hnodup.2.2 _ hmem e.1 (by simp) rfl
      rw [List.foldl_cons, set, setEntry_of_notMem hmem, ih _ hnodup]
  exact key es [] h

/-- What a table of a list of entries holds is one of them. -/
theorem mem_of_get?_ofList {k : α} {v : β} {es : List (α × β)} (h : (ofList es).get? k = some v) :
    (k, v) ∈ es := by
  have key : ∀ (es : List (α × β)) (t : Table α β),
      (es.foldl (fun t e => t.set e.1 e.2) t).get? k = some v → (k, v) ∈ es ∨ t.get? k = some v := by
    intro es
    induction es with
    | nil => exact fun _ h => .inr h
    | cons e es ih =>
      intro t h
      rcases ih _ h with h | h
      · exact .inl (.tail _ h)
      · rw [get?_set] at h
        split at h
        · rename_i hk
          have he : e = (k, v) := Prod.ext hk.symm (Option.some.inj h)
          exact .inl (he ▸ List.mem_cons_self)
        · exact .inr h
  rcases key es ∅ h with h | h
  · exact h
  · simp at h

theorem lookup_of_mem {k : α} {v : β} {es : List (α × β)} (h : (es.map Prod.fst).Nodup) (hmem : (k, v) ∈ es) :
    es.lookup k = some v := by
  induction es with
  | nil => cases hmem
  | cons e es ih =>
    rw [List.map_cons, List.nodup_cons] at h
    rw [lookup_cons_if]
    rcases List.mem_cons.1 hmem with rfl | hmem
    · exact if_pos rfl
    · rw [if_neg fun hk : k = e.1 => h.1 (hk ▸ List.mem_map_of_mem hmem), ih h.2 hmem]

/-- Where no key comes twice, a table holds the entries of its list. -/
theorem get?_ofList_iff {k : α} {v : β} {es : List (α × β)} (h : (es.map Prod.fst).Nodup) :
    (ofList es).get? k = some v ↔ (k, v) ∈ es := by
  refine ⟨mem_of_get?_ofList, fun hmem => ?_⟩
  rw [ofList_of_nodup h]
  exact lookup_of_mem h hmem

end Table

end ThreeAddress

import ThreeAddress.Lookup
import ThreeAddress.Name
/-!
# Phi sources

A phi names one operand for each block that control may arrive from. `PhiSources` is such a table:
its entries are sorted by label and no label occurs twice, so that equal tables are equal values.
It is seen through `find?`; there is one lemma for each operation.
-/

namespace ThreeAddress

/-- A table from predecessor labels to operands. -/
@[ext] structure PhiSources where
  /-- The entries, by ascending label. -/
  entries : List (Label × Operand)
  /-- Labels ascend strictly. -/
  sorted : entries.Pairwise (fun a b => a.1 < b.1)
deriving DecidableEq, Repr

namespace Label

theorem lt_irrefl (a : Label) : ¬ a < a := String.lt_irrefl a.name

theorem lt_trans {a b c : Label} (h₁ : a < b) (h₂ : b < c) : a < c := String.lt_trans h₁ h₂

/-- Two labels of which neither comes first are the same. -/
theorem eq_of_not_lt {a b : Label} (h₁ : ¬ a < b) (h₂ : ¬ b < a) : a = b := by
  cases a; cases b
  exact congrArg Label.mk (String.le_antisymm h₂ h₁)

end Label

namespace PhiSources

/-- The table without entries. -/
def empty : PhiSources := ⟨[], .nil⟩

instance : EmptyCollection PhiSources := ⟨empty⟩

instance : Inhabited PhiSources := ⟨empty⟩

/-- The operand for a predecessor. -/
def find? (s : PhiSources) (l : Label) : Option Operand :=
  s.entries.lookup l

def labels (s : PhiSources) : List Label := s.entries.map (·.1)

def operands (s : PhiSources) : List Operand := s.entries.map (·.2)

def isEmpty (s : PhiSources) : Bool := s.entries.isEmpty

/-! ## Insertion -/

/-- Puts an entry in its place, over the one of the same label. -/
def insertEntry (l : Label) (o : Operand) : List (Label × Operand) → List (Label × Operand)
  | [] => [(l, o)]
  | e :: es =>
    if l < e.1 then (l, o) :: e :: es
    else if e.1 < l then e :: insertEntry l o es
    else (l, o) :: es

theorem mem_insertEntry {l : Label} {o : Operand} {es : List (Label × Operand)} {e : Label × Operand}
    (h : e ∈ insertEntry l o es) : e = (l, o) ∨ e ∈ es := by
  induction es with
  | nil => simpa [insertEntry] using h
  | cons d ds ih =>
    simp only [insertEntry] at h
    split at h
    · simpa using h
    split at h
    · rcases List.mem_cons.1 h with rfl | h
      · simp
      · rcases ih h with h | h <;> simp [h]
    · rcases List.mem_cons.1 h with h | h <;> simp [h]

theorem pairwise_insertEntry (l : Label) (o : Operand) {es : List (Label × Operand)}
    (h : es.Pairwise (fun a b => a.1 < b.1)) : (insertEntry l o es).Pairwise (fun a b => a.1 < b.1) := by
  induction es with
  | nil => simp [insertEntry]
  | cons d ds ih =>
    obtain ⟨hd, hds⟩ := List.pairwise_cons.1 h
    simp only [insertEntry]
    split
    · rename_i hlt
      refine List.pairwise_cons.2 ⟨fun e he => ?_, h⟩
      rcases List.mem_cons.1 he with rfl | he
      · exact hlt
      · exact Label.lt_trans hlt (hd e he)
    split
    · rename_i hlt
      refine List.pairwise_cons.2 ⟨fun e he => ?_, ih hds⟩
      rcases mem_insertEntry he with rfl | he
      · exact hlt
      · exact hd e he
    · rename_i h₁ h₂
      refine List.pairwise_cons.2 ⟨fun e he => ?_, hds⟩
      have : l = d.1 := Label.eq_of_not_lt h₁ h₂
      exact this ▸ hd e he

/-- The table with `o` for the predecessor `l`. -/
def insert (s : PhiSources) (l : Label) (o : Operand) : PhiSources :=
  ⟨insertEntry l o s.entries, pairwise_insertEntry l o s.sorted⟩

/-- The table of a list of entries; of two entries with one label the later counts. -/
def ofList (es : List (Label × Operand)) : PhiSources :=
  es.foldl (fun s e => s.insert e.1 e.2) ∅

/-! ## Maps and filters -/

/-- Applies `f` to each operand and its label. -/
def mapOperands (s : PhiSources) (f : Label → Operand → Operand) : PhiSources :=
  ⟨s.entries.map fun e => (e.1, f e.1 e.2), by
    rw [List.pairwise_map]; exact s.sorted⟩

/-- Keeps the entries whose label satisfies `p`. -/
def filter (s : PhiSources) (p : Label → Bool) : PhiSources :=
  ⟨s.entries.filter (fun e => p e.1), s.sorted.filter _⟩

/-! ## What each operation does to `find?` -/

theorem lookup_insertEntry (l k : Label) (o : Operand) (es : List (Label × Operand)) :
    (insertEntry l o es).lookup k = if k = l then some o else es.lookup k := by
  induction es with
  | nil => simp [insertEntry, lookup_cons_if]
  | cons d ds ih =>
    simp only [insertEntry]
    split
    · simp [lookup_cons_if]
    split
    · rename_i hlt
      rw [lookup_cons_if, lookup_cons_if, ih]
      by_cases h : k = d.1
      · have : ¬ d.1 = l := fun e => Label.lt_irrefl l (e ▸ hlt)
        simp [h, this]
      · simp [h]
    · rename_i h₁ h₂
      rw [lookup_cons_if, lookup_cons_if, Label.eq_of_not_lt h₁ h₂]
      by_cases h : k = d.1 <;> simp [h]

@[simp] theorem find?_empty (k : Label) : (∅ : PhiSources).find? k = none := rfl

@[simp] theorem find?_insert (s : PhiSources) (l k : Label) (o : Operand) :
    (s.insert l o).find? k = if k = l then some o else s.find? k :=
  lookup_insertEntry l k o s.entries

@[simp] theorem find?_mapOperands (s : PhiSources) (f : Label → Operand → Operand) (k : Label) :
    (s.mapOperands f).find? k = (s.find? k).map (f k) := by
  obtain ⟨es, h⟩ := s
  simp only [find?, mapOperands]
  clear h
  induction es with
  | nil => rfl
  | cons d ds ih =>
    rw [List.map_cons, lookup_cons_if, lookup_cons_if, ih]
    by_cases h : k = d.1 <;> simp [h]

@[simp] theorem find?_filter (s : PhiSources) (p : Label → Bool) (k : Label) :
    (s.filter p).find? k = if p k then s.find? k else none := by
  obtain ⟨es, h⟩ := s
  simp only [find?, filter]
  clear h
  induction es with
  | nil => simp
  | cons d ds ih =>
    rw [List.filter_cons, lookup_cons_if]
    by_cases hp : p d.1
    · rw [if_pos hp, lookup_cons_if, ih]
      by_cases h : k = d.1 <;> simp [h, hp]
    · rw [if_neg hp, ih]
      by_cases h : k = d.1 <;> simp [h, hp]

theorem mem_operands {s : PhiSources} {l : Label} {o : Operand} (h : s.find? l = some o) :
    o ∈ s.operands := by
  obtain ⟨before, after, he, -⟩ := List.lookup_eq_some_iff.1 h
  simp [operands, he]

theorem nodup_labels (s : PhiSources) : s.labels.Nodup := by
  refine List.pairwise_map.2 (s.sorted.imp fun {a b} h (he : a.1 = b.1) => ?_)
  exact Label.lt_irrefl _ (he ▸ h)

theorem mem_labels {s : PhiSources} {l : Label} : l ∈ s.labels ↔ ∃ o, s.find? l = some o := by
  obtain ⟨es, h⟩ := s
  simp only [labels, find?]
  clear h
  induction es with
  | nil => simp
  | cons e es ih =>
    rw [List.map_cons, List.mem_cons, ih, lookup_cons_if]
    by_cases h : l = e.1 <;> simp [h]

/-- No label occurs twice, so every operand is found by its label. -/
theorem exists_of_mem_operands {s : PhiSources} {o : Operand} (h : o ∈ s.operands) :
    ∃ l, s.find? l = some o := by
  obtain ⟨es, hs⟩ := s
  obtain ⟨⟨l, o⟩, he, rfl⟩ := List.mem_map.1 h
  refine ⟨l, ?_⟩
  simp only [find?]
  clear h
  induction es with
  | nil => simp at he
  | cons d ds ih =>
    obtain ⟨hd, hds⟩ := List.pairwise_cons.1 hs
    rw [lookup_cons_if]
    rcases List.mem_cons.1 he with rfl | he
    · simp
    · have : l ≠ d.1 := fun hl => Label.lt_irrefl l (by simpa [← hl] using hd _ he)
      rw [if_neg this]
      exact ih hds he

/-- What is read after a filter and a map comes from what was read before. -/
theorem exists_of_mem_mapOperands_filter {s : PhiSources} {p : Label → Bool} {f : Operand → Operand}
    {o' : Operand} (h : o' ∈ ((s.filter p).mapOperands fun _ => f).operands) :
    ∃ o ∈ s.operands, f o = o' := by
  simp only [operands, mapOperands, filter, List.map_map, List.mem_map] at h ⊢
  obtain ⟨e, he, rfl⟩ := h
  exact ⟨e.2, ⟨e, (List.mem_filter.1 he).1, rfl⟩, rfl⟩

@[simp] theorem labels_mapOperands (s : PhiSources) (f : Label → Operand → Operand) :
    (s.mapOperands f).labels = s.labels := by
  simp [labels, mapOperands, Function.comp_def]

@[simp] theorem labels_filter (s : PhiSources) (p : Label → Bool) : (s.filter p).labels = s.labels.filter p := by
  simp [labels, filter, List.filter_map, Function.comp_def]

end PhiSources

end ThreeAddress

/-!
# Sets of small numbers

A `BitSet` holds numbers below its capacity, 64 of them in a word, with a bit for each. Where the
capacity is no multiple of 64, the last word has bits that stand for no number. They are never set,
so that two sets of one capacity are equal exactly if they have the same members. There is one lemma
for each operation, which says what it does to `contains`.
-/

namespace ThreeAddress

/-- Bit `i % 64` of word `i / 64`. -/
def BitSet.bitOf (words : List (BitVec 64)) (i : Nat) : Bool :=
  (words.getD (i / 64) 0).getLsbD (i % 64)

/-- A set of numbers below `capacity`. -/
@[ext] structure BitSet where
  capacity : Nat
  words : List (BitVec 64)
  length_words : words.length = (capacity + 63) / 64
  /-- No bit is set that stands for no number. -/
  clear : ∀ i, capacity ≤ i → BitSet.bitOf words i = false
deriving DecidableEq, Repr

namespace BitSet

/-! ## Words -/

theorem bitOf_of_length_le {words : List (BitVec 64)} {i : Nat} (h : words.length ≤ i / 64) :
    bitOf words i = false := by
  rw [bitOf, List.getD_eq_getElem?_getD, List.getElem?_eq_none h]
  exact BitVec.getLsbD_zero

theorem bitOf_replicate_zero (n i : Nat) : bitOf (.replicate n 0) i = false := by
  rw [bitOf, List.getD_eq_getElem?_getD, List.getElem?_replicate]
  split <;> exact BitVec.getLsbD_zero

/-- The words of the set of all numbers below `n`. -/
def fullWords (n : Nat) : List (BitVec 64) :=
  .replicate (n / 64) (.allOnes 64) ++ if n % 64 = 0 then [] else [.twoPow 64 (n % 64) - 1]

theorem length_fullWords (n : Nat) : (fullWords n).length = (n + 63) / 64 := by
  unfold fullWords
  split <;> simp <;> omega

/-- One below a power of two has the bits below it. -/
theorem getLsbD_twoPow_sub_one {k : Nat} (hk : k < 64) (j : Nat) :
    (BitVec.twoPow 64 k - 1).getLsbD j = decide (j < k) := by
  have hlt : 2 ^ k < 2 ^ 64 := Nat.pow_lt_pow_right (by decide) hk
  have hpos : 0 < 2 ^ k := Nat.two_pow_pos k
  have hone : (1 : BitVec 64).toNat = 1 := rfl
  have hnat : (BitVec.twoPow 64 k - 1).toNat = 2 ^ k - 1 := by
    rw [BitVec.toNat_sub, BitVec.toNat_twoPow, Nat.mod_eq_of_lt hlt, hone]
    omega
  rw [BitVec.getLsbD, hnat, Nat.testBit_two_pow_sub_one]

theorem bitOf_fullWords (n i : Nat) : bitOf (fullWords n) i = decide (i < n) := by
  rw [bitOf, fullWords, List.getD_eq_getElem?_getD, List.getElem?_append, List.length_replicate]
  split
  · have hi : i < n := by omega
    rw [List.getElem?_replicate, if_pos ‹_›, Option.getD_some, BitVec.getLsbD_allOnes,
      decide_eq_true (Nat.mod_lt i (by decide)), decide_eq_true hi]
  · by_cases htail : n % 64 = 0
    · have hi : ¬ i < n := by omega
      simp [htail, hi]
    · rw [if_neg htail]
      by_cases hword : i / 64 = n / 64
      · have hi : i % 64 < n % 64 ↔ i < n := by omega
        rw [hword, Nat.sub_self, List.getElem?_cons_zero, Option.getD_some,
          getLsbD_twoPow_sub_one (Nat.mod_lt _ (by decide)), decide_eq_decide]
        exact hi
      · have hi : ¬ i < n := by omega
        rw [List.getElem?_eq_none (by simp; omega)]
        simp [hi]

/-- The words with bit `i` set. -/
def setBit (words : List (BitVec 64)) (i : Nat) : List (BitVec 64) :=
  words.modify (i / 64) (· ||| .twoPow 64 (i % 64))

theorem bitOf_setBit {words : List (BitVec 64)} {i : Nat} (h : i / 64 < words.length) (j : Nat) :
    bitOf (setBit words i) j = (bitOf words j || decide (i = j)) := by
  have hmod : i % 64 < 64 := Nat.mod_lt _ (by decide)
  unfold bitOf setBit
  simp only [List.getD_eq_getElem?_getD, List.getElem?_modify]
  by_cases hword : i / 64 = j / 64
  · have hij : i % 64 = j % 64 ↔ i = j := by omega
    simp [← hword, h, BitVec.getLsbD_twoPow, hmod, hij]
  · have hij : i ≠ j := fun e => hword (e ▸ rfl)
    simp [hword, hij]

/-- An operation on words that treats each bit alone. -/
structure Bitwise where
  word : BitVec 64 → BitVec 64 → BitVec 64
  bit : Bool → Bool → Bool
  getLsbD_word : ∀ a b i, (word a b).getLsbD i = bit (a.getLsbD i) (b.getLsbD i)

namespace Bitwise

def or : Bitwise := ⟨(· ||| ·), (· || ·), fun _ _ _ => BitVec.getLsbD_or⟩

def and : Bitwise := ⟨(· &&& ·), (· && ·), fun _ _ _ => BitVec.getLsbD_and⟩

/-- Applies the operation to each word and the one of the same place. -/
def words (op : Bitwise) (as bs : List (BitVec 64)) : List (BitVec 64) :=
  as.mapIdx fun k a => op.word a (bs.getD k 0)

theorem length_words (op : Bitwise) (as bs : List (BitVec 64)) : (op.words as bs).length = as.length :=
  List.length_mapIdx

theorem bitOf_words (op : Bitwise) (as bs : List (BitVec 64)) {i : Nat} (h : i / 64 < as.length) :
    bitOf (op.words as bs) i = op.bit (bitOf as i) (bitOf bs i) := by
  simp [bitOf, words, h, op.getLsbD_word]

end Bitwise

/-! ## Operations -/

/-- The set without members. -/
def empty (capacity : Nat) : BitSet :=
  ⟨capacity, .replicate ((capacity + 63) / 64) 0, List.length_replicate, fun i _ => bitOf_replicate_zero _ i⟩

/-- The set of all numbers below the capacity. -/
def full (capacity : Nat) : BitSet :=
  ⟨capacity, fullWords capacity, length_fullWords capacity, fun i h => by
    rw [bitOf_fullWords, decide_eq_false (Nat.not_lt.2 h)]⟩

def contains (s : BitSet) (i : Nat) : Bool :=
  decide (i < s.capacity) && (s.words.getD (i / 64) 0 &&& .twoPow 64 (i % 64)) != 0

instance : Membership Nat BitSet := ⟨fun s i => s.contains i = true⟩

instance (s : BitSet) (i : Nat) : Decidable (i ∈ s) :=
  inferInstanceAs (Decidable (s.contains i = true))

/-- The bits that are set are those of the members. -/
theorem contains_eq_bitOf (s : BitSet) (i : Nat) : s.contains i = bitOf s.words i := by
  unfold contains
  by_cases h : i < s.capacity
  · rw [decide_eq_true h, Bool.true_and, BitVec.and_twoPow]
    change _ = (s.words.getD (i / 64) 0).getLsbD (i % 64)
    cases (s.words.getD (i / 64) 0).getLsbD (i % 64) with
    | false => rfl
    | true =>
      rw [if_pos rfl, bne_iff_ne]
      intro hzero
      have hbit := congrArg (·.getLsbD (i % 64)) hzero
      simp [Nat.mod_lt] at hbit
  · rw [decide_eq_false h, s.clear i (Nat.not_lt.1 h)]
    rfl

theorem div_lt_length {s : BitSet} {i : Nat} (h : i < s.capacity) : i / 64 < s.words.length := by
  rw [s.length_words]
  omega

/-- The set with the member `i`; a number at or above the capacity is not taken in. -/
def insert (s : BitSet) (i : Nat) : BitSet :=
  if h : i < s.capacity then
    ⟨s.capacity, setBit s.words i, (List.length_modify ..).trans s.length_words, fun j hj => by
      rw [bitOf_setBit (div_lt_length h), s.clear j hj, decide_eq_false (by omega)]
      rfl⟩
  else s

/-- Applies an operation to the words of two sets, and says whether a word of the first has changed.
Nothing may come in at or above the capacity of the first. -/
def combine (op : Bitwise) (s t : BitSet)
    (h : ∀ i, s.capacity ≤ i → op.bit false (t.contains i) = false) : BitSet × Bool :=
  let words := op.words s.words t.words
  (⟨s.capacity, words, (op.length_words ..).trans s.length_words, fun i hi => by
    by_cases hlen : i / 64 < s.words.length
    · rw [op.bitOf_words _ _ hlen, s.clear i hi, ← contains_eq_bitOf, h i hi]
    · exact bitOf_of_length_le (by rw [op.length_words]; exact Nat.not_lt.1 hlen)⟩,
    (s.words.zip words).any fun e => e.2 != e.1)

/-- The members of both sets. -/
def inter (s t : BitSet) : BitSet := (combine .and s t fun _ _ => rfl).1

/-- The set of a list of numbers. -/
def ofList (capacity : Nat) (is : List Nat) : BitSet :=
  is.foldl insert (empty capacity)

def isEmpty (s : BitSet) : Bool := s.words.all (· == 0)

/-- The number of members. -/
def count (s : BitSet) : Nat := s.words.foldr (fun w n => w.cpop.toNat + n) 0

/-! ## Iteration -/

/-- A place in a set from which its members are listed. -/
structure Iter where
  words : List (BitVec 64)
  /-- The number that the first bit of the current word stands for. -/
  base : Nat
  /-- The current word, less the members that have been listed. -/
  current : BitVec 64

def iter (s : BitSet) : Iter := ⟨s.words, 0, s.words.headD 0⟩

namespace Iter

/-- The next member and the place behind it. Words that are used up are skipped. -/
def next (it : Iter) : Option Nat × Iter :=
  if it.current = 0 then
    match _h : it.words[(it.base + 64) / 64]? with
    | some w => next { it with base := it.base + 64, current := w }
    | none => (none, { it with base := it.base + 64 })
  else
    (some (it.base + it.current.ctz.toNat), { it with current := it.current &&& (it.current - 1) })
termination_by it.words.length - it.base / 64
decreasing_by
  have := (List.getElem?_eq_some_iff.1 _h).1
  omega

/-- The next members, at most `n` of them. -/
def take : (n : Nat) → Iter → List Nat
  | 0, _ => []
  | n + 1, it =>
    match it.next with
    | (some i, it) => i :: it.take n
    | (none, _) => []

end Iter

/-- The members, ascending. -/
def toList (s : BitSet) : List Nat := s.iter.take s.capacity

/-- The members in braces. -/
def text (s : BitSet) : String :=
  "\x7b" ++ ", ".intercalate (s.toList.map toString) ++ "\x7d"

instance : ToString BitSet := ⟨text⟩

/-! ## Operations that may be refused -/

/-- Inserts a number, if it is below the capacity. -/
def insert? (s : BitSet) (i : Nat) : Option BitSet :=
  if i < s.capacity then some (s.insert i) else none

/-- The set of a list of numbers, if all are below the capacity. -/
def ofList? (capacity : Nat) (is : List Nat) : Option BitSet :=
  is.foldlM insert? (empty capacity)

/-- The members of either set, and whether the first has grown, if the capacities agree. -/
def unionWith? (s t : BitSet) : Option (BitSet × Bool) :=
  if h : s.capacity = t.capacity then
    some (combine .or s t fun i hi => (contains_eq_bitOf t i).trans (t.clear i (h ▸ hi)))
  else none

/-- The members of both sets, and whether the first has shrunk, if the capacities agree. -/
def interWith? (s t : BitSet) : Option (BitSet × Bool) :=
  if s.capacity = t.capacity then some (combine .and s t fun _ _ => rfl) else none

/-- The members of either set, if the capacities agree. -/
def union? (s t : BitSet) : Option BitSet := (s.unionWith? t).map (·.1)

/-- The members of both sets, if the capacities agree. -/
def inter? (s t : BitSet) : Option BitSet := (s.interWith? t).map (·.1)

/-! ## What each operation does to `contains` -/

theorem mem_def {s : BitSet} {i : Nat} : i ∈ s ↔ s.contains i = true := Iff.rfl

theorem contains_of_le {s : BitSet} {i : Nat} (h : s.capacity ≤ i) : s.contains i = false := by
  rw [contains_eq_bitOf, s.clear i h]

@[simp] theorem contains_empty (n i : Nat) : (empty n).contains i = false := by
  rw [contains_eq_bitOf]
  exact bitOf_replicate_zero _ i

@[simp] theorem contains_full (n i : Nat) : (full n).contains i = decide (i < n) := by
  rw [contains_eq_bitOf]
  exact bitOf_fullWords n i

@[simp] theorem contains_insert (s : BitSet) (i j : Nat) :
    (s.insert i).contains j = (s.contains j || decide (i < s.capacity ∧ i = j)) := by
  by_cases h : i < s.capacity
  · simp [insert, h, contains_eq_bitOf, bitOf_setBit (div_lt_length h)]
  · simp [insert, h]

theorem contains_combine {op : Bitwise} {s t : BitSet}
    (h : ∀ i, s.capacity ≤ i → op.bit false (t.contains i) = false) (i : Nat) :
    (combine op s t h).1.contains i = op.bit (s.contains i) (t.contains i) := by
  by_cases hi : i < s.capacity
  · rw [contains_eq_bitOf, contains_eq_bitOf, contains_eq_bitOf]
    exact op.bitOf_words _ _ (div_lt_length hi)
  · have hle : s.capacity ≤ i := Nat.not_lt.1 hi
    rw [contains_of_le (s := s) hle, h i hle]
    exact contains_of_le hle

@[simp] theorem contains_inter (s t : BitSet) (i : Nat) :
    (s.inter t).contains i = (s.contains i && t.contains i) :=
  contains_combine _ i

@[simp] theorem capacity_insert (s : BitSet) (i : Nat) : (s.insert i).capacity = s.capacity := by
  unfold insert; split <;> rfl

@[simp] theorem capacity_inter (s t : BitSet) : (s.inter t).capacity = s.capacity := rfl

/-- Lists of so many words are equal if they have the same bits. -/
theorem words_eq_of_bitOf {as bs : List (BitVec 64)} (hlen : as.length = bs.length)
    (h : ∀ i, bitOf as i = bitOf bs i) : as = bs := by
  refine List.ext_getElem hlen fun k ha hb => BitVec.eq_of_getLsbD_eq fun j hj => ?_
  have hbit := h (64 * k + j)
  have hdiv : (64 * k + j) / 64 = k := by omega
  have hmod : (64 * k + j) % 64 = j := by omega
  simpa [bitOf, hdiv, hmod, ha, hb] using hbit

/-- Sets of one capacity with the same members are equal. -/
theorem ext_contains {s t : BitSet} (hc : s.capacity = t.capacity)
    (h : ∀ i, s.contains i = t.contains i) : s = t := by
  refine BitSet.ext hc (words_eq_of_bitOf ?_ fun i => ?_)
  · rw [s.length_words, t.length_words, hc]
  · rw [← contains_eq_bitOf, ← contains_eq_bitOf, h i]

end BitSet

end ThreeAddress

import Mathlib.Data.Finset.Sort
import ThreeAddress.BitSet
/-!
# Bit sets are finite sets

A bit set stands for the numbers that it contains (`toFinset`). Every operation is one on these sets,
and what is counted and listed are their members. For the listing, `Iter.pending` is what a place in a
set has before it; `Iter.next` takes its head off (`Iter.next_eq`), whether the word at hand has
members left or empty words are to be skipped. In the end, what any sequence of operations builds is
the set that the same operations on finite sets build (`Construction.faithful`).
-/

namespace ThreeAddress.BitSet

/-! ## The bits of a word -/

/-- The places of the bits that are set, ascending. -/
def wordBits (w : BitVec 64) : List Nat := (List.range 64).filter (w.getLsbD ·)

theorem mem_wordBits {w : BitVec 64} {i : Nat} : i ∈ wordBits w ↔ w.getLsbD i = true := by
  simp only [wordBits, List.mem_filter, List.mem_range]
  exact ⟨fun h => h.2, fun h => ⟨BitVec.lt_of_getLsbD h, h⟩⟩

theorem pairwise_wordBits (w : BitVec 64) : (wordBits w).Pairwise (· < ·) :=
  List.pairwise_lt_range.filter _

@[simp] theorem wordBits_zero : wordBits 0#64 = [] := by
  simp [wordBits]

theorem length_wordBits (w : BitVec 64) : (wordBits w).length = w.cpop.toNat := by
  have hcount : ∀ n, ((List.range n).filter (w.getLsbD ·)).length = w.cpopNatRec n 0 := by
    intro n
    induction n with
    | zero => simp
    | succ n ih =>
      rw [BitVec.cpopNatRec_succ, BitVec.cpopNatRec_eq, List.range_succ, List.filter_append,
        List.length_append, ih, Nat.zero_add]
      cases hbit : w.getLsbD n <;> simp [hbit]
  rw [BitVec.toNat_cpop, ← hcount]
  rfl

/-- A number whose lowest bit is bit `k`. -/
theorem eq_of_lowest_bit {x k : Nat} (hk : x.testBit k = true) (hlow : ∀ j < k, x.testBit j = false) :
    x = 2 ^ (k + 1) * (x / 2 ^ (k + 1)) + 2 ^ k := by
  have hmod : x % 2 ^ (k + 1) = 2 ^ k := by
    refine Nat.eq_of_testBit_eq fun j => ?_
    rw [Nat.testBit_mod_two_pow, Nat.testBit_two_pow]
    rcases Nat.lt_trichotomy j k with hj | rfl | hj
    · rw [hlow j hj, Bool.and_false, decide_eq_false (by omega)]
    · simp [hk]
    · rw [decide_eq_false (by omega), decide_eq_false (by omega), Bool.false_and]
  rw [← hmod]
  exact (Nat.div_add_mod x _).symm

/-- Taking one away from a word turns its lowest bit and those below it, and no others. -/
theorem getLsbD_and_sub_one {w : BitVec 64} (hw : w ≠ 0) (i : Nat) :
    (w &&& (w - 1)).getLsbD i = (w.getLsbD i && decide (i ≠ w.ctz.toNat)) := by
  have hx : w.toNat = 2 ^ (w.ctz.toNat + 1) * (w.toNat / 2 ^ (w.ctz.toNat + 1)) + 2 ^ w.ctz.toNat :=
    eq_of_lowest_bit (BitVec.getLsbD_true_ctz_of_ne_zero hw) fun j => BitVec.getLsbD_false_of_lt_ctz
  generalize w.ctz.toNat = k at hx ⊢
  generalize w.toNat / 2 ^ (k + 1) = q at hx
  have hpos : 0 < 2 ^ k := Nat.two_pow_pos k
  have hpow : 2 ^ k < 2 ^ (k + 1) := Nat.pow_lt_pow_right Nat.one_lt_two (Nat.lt_succ_self k)
  have hle : (1 : BitVec 64) ≤ w := by
    rw [BitVec.le_def, hx]
    exact hpos.trans_le (Nat.le_add_left _ _)
  have hpred : (w - 1).toNat = 2 ^ (k + 1) * q + (2 ^ k - 1) := by
    have hone : (1 : BitVec 64).toNat = 1 := rfl
    rw [BitVec.toNat_sub_of_le hle, hx, hone, Nat.add_sub_assoc hpos]
  rw [BitVec.getLsbD_and, BitVec.getLsbD, BitVec.getLsbD, hpred, hx,
    Nat.testBit_two_pow_mul_add _ hpow, Nat.testBit_two_pow_mul_add _ (by omega)]
  by_cases hi : i < k + 1
  · rw [if_pos hi, if_pos hi, Nat.testBit_two_pow, Nat.testBit_two_pow_sub_one]
    by_cases hik : k = i
    · simp [hik]
    · simp [hik]
  · have hne : i ≠ k := by omega
    rw [if_neg hi, if_neg hi]
    simp [hne]

/-- The lowest bit of a word is listed first. -/
theorem wordBits_eq_cons {w : BitVec 64} (hw : w ≠ 0) : wordBits w = w.ctz.toNat :: wordBits (w &&& (w - 1)) := by
  refine (pairwise_wordBits w).eq_of_mem_iff (List.pairwise_cons.2 ⟨fun i hi => ?_, pairwise_wordBits _⟩) fun i => ?_
  · rw [mem_wordBits, getLsbD_and_sub_one hw, Bool.and_eq_true, decide_eq_true_eq] at hi
    have hle : ¬ i < w.ctz.toNat := fun hlt => by simp [BitVec.getLsbD_false_of_lt_ctz hlt] at hi
    omega
  · rw [List.mem_cons, mem_wordBits, mem_wordBits, getLsbD_and_sub_one hw, Bool.and_eq_true, decide_eq_true_eq]
    by_cases hi : i = w.ctz.toNat
    · simp [hi, BitVec.getLsbD_true_ctz_of_ne_zero hw]
    · simp [hi]

theorem wordBits_eq_nil {w : BitVec 64} : wordBits w = [] ↔ w = 0 := by
  refine ⟨fun h => ?_, fun h => h ▸ wordBits_zero⟩
  by_contra hw
  rw [wordBits_eq_cons hw] at h
  cases h

/-! ## The members in a list of words -/

theorem bitOf_cons (w : BitVec 64) (ws : List (BitVec 64)) (i : Nat) :
    bitOf (w :: ws) i = if i < 64 then w.getLsbD i else bitOf ws (i - 64) := by
  unfold bitOf
  by_cases hi : i < 64
  · rw [if_pos hi, Nat.div_eq_of_lt hi, Nat.mod_eq_of_lt hi, List.getD_cons_zero]
  · have hdiv : i / 64 = (i - 64) / 64 + 1 := by omega
    have hmod : i % 64 = (i - 64) % 64 := by omega
    rw [if_neg hi, hdiv, hmod, List.getD_cons_succ]

/-- The members in a list of words, the first bit of which stands for `base`. -/
def listed (base : Nat) : List (BitVec 64) → List Nat
  | [] => []
  | w :: ws => (wordBits w).map (base + ·) ++ listed (base + 64) ws

theorem mem_listed {base i : Nat} {ws : List (BitVec 64)} :
    i ∈ listed base ws ↔ base ≤ i ∧ bitOf ws (i - base) = true := by
  induction ws generalizing base with
  | nil => simp [listed, bitOf]
  | cons w ws ih =>
    rw [listed, List.mem_append, List.mem_map, ih, bitOf_cons]
    constructor
    · rintro (⟨j, hj, rfl⟩ | ⟨hle, hbit⟩)
      · have hlt := BitVec.lt_of_getLsbD (mem_wordBits.1 hj)
        rw [Nat.add_sub_cancel_left, if_pos hlt]
        exact ⟨Nat.le_add_right _ _, mem_wordBits.1 hj⟩
      · rw [if_neg (by omega), Nat.sub_sub]
        exact ⟨by omega, hbit⟩
    · rintro ⟨hle, hbit⟩
      split at hbit
      · exact .inl ⟨i - base, mem_wordBits.2 hbit, by omega⟩
      · rw [Nat.sub_sub] at hbit
        exact .inr ⟨by omega, hbit⟩

theorem pairwise_listed (base : Nat) (ws : List (BitVec 64)) : (listed base ws).Pairwise (· < ·) := by
  induction ws generalizing base with
  | nil => exact .nil
  | cons w ws ih =>
    rw [listed, List.pairwise_append, List.pairwise_map]
    refine ⟨(pairwise_wordBits w).imp fun h => Nat.add_lt_add_left h base, ih _, fun i hi j hj => ?_⟩
    obtain ⟨k, hk, rfl⟩ := List.mem_map.1 hi
    have hlt := BitVec.lt_of_getLsbD (mem_wordBits.1 hk)
    have hle := (mem_listed.1 hj).1
    omega

theorem listed_eq_nil {base : Nat} {ws : List (BitVec 64)} : listed base ws = [] ↔ ∀ w ∈ ws, w = 0 := by
  induction ws generalizing base with
  | nil => simp [listed]
  | cons w ws ih => simp [listed, ih, wordBits_eq_nil]

theorem length_listed (base : Nat) (ws : List (BitVec 64)) :
    (listed base ws).length = ws.foldr (fun w n => w.cpop.toNat + n) 0 := by
  induction ws generalizing base with
  | nil => rfl
  | cons w ws ih => simp [listed, ih, length_wordBits]

/-! ## Listing -/

namespace Iter

/-- The members from a place on. -/
def pending (it : Iter) : List Nat :=
  (wordBits it.current).map (it.base + ·) ++ listed (it.base + 64) (it.words.drop ((it.base + 64) / 64))

theorem pending_of_eq_zero {it : Iter} (h : it.current = 0) :
    it.pending = listed (it.base + 64) (it.words.drop ((it.base + 64) / 64)) := by
  have hbits : wordBits it.current = [] := wordBits_eq_nil.2 h
  rw [pending, hbits]
  rfl

theorem pending_eq_nil {it : Iter} (h : it.current = 0) (hlen : it.words.length ≤ (it.base + 64) / 64) :
    it.pending = [] := by
  rw [pending_of_eq_zero h, List.drop_eq_nil_of_le hlen, listed]

/-- The next member is the first of those from a place on, and the others are those from the next
place on. -/
theorem next_eq (it : Iter) : it.next.1 = it.pending.head? ∧ it.next.2.pending = it.pending.tail := by
  fun_induction next it with
  | case1 it hzero w hw ih =>
    -- The word at hand is used up: nothing is listed from it, and what follows begins with the next word.
    have hskip : it.pending = pending { it with base := it.base + 64, current := w } := by
      obtain ⟨hlen, rfl⟩ := List.getElem?_eq_some_iff.1 hw
      have hdiv : (it.base + 64 + 64) / 64 = (it.base + 64) / 64 + 1 := by omega
      rw [pending_of_eq_zero hzero, List.drop_eq_getElem_cons hlen, listed, pending, hdiv]
    rwa [hskip]
  | case2 it hzero hnone =>
    have hlen : it.words.length ≤ (it.base + 64) / 64 := List.getElem?_eq_none_iff.1 hnone
    have hbehind : it.words.length ≤ (it.base + 64 + 64) / 64 := by omega
    have hnil : pending { it with base := it.base + 64 } = [] := pending_eq_nil hzero hbehind
    rw [pending_eq_nil hzero hlen, hnil]
    exact ⟨rfl, rfl⟩
  | case3 it hne => simp [pending, wordBits_eq_cons hne]

theorem take_eq (n : Nat) (it : Iter) : it.take n = it.pending.take n := by
  induction n generalizing it with
  | zero => rfl
  | succ n ih =>
    obtain ⟨hhead, htail⟩ := it.next_eq
    rw [take]
    cases hnext : it.next with
    | mk i? it' =>
      rw [hnext] at hhead htail
      cases hpending : it.pending with
      | nil =>
        rw [hpending] at hhead
        subst hhead
        rfl
      | cons i is =>
        rw [hpending] at hhead htail
        subst hhead
        exact congrArg (i :: ·) ((ih it').trans (congrArg (List.take n) htail))

/-- The place behind the next `n` answers. -/
def skip (n : Nat) (it : Iter) : Iter := (fun it => it.next.2)^[n] it

/-- Each answer is the member whose turn it is; there is none any more behind the last one. -/
theorem next_skip (n : Nat) (it : Iter) : (it.skip n).next.1 = it.pending[n]? := by
  induction n generalizing it with
  | zero => exact it.next_eq.1.trans List.head?_eq_getElem?
  | succ n ih =>
    rw [skip, Function.iterate_succ_apply]
    exact (ih it.next.2).trans (by rw [it.next_eq.2, List.getElem?_tail])

end Iter

/-! ## The set that a bit set stands for -/

/-- The numbers that a bit set contains. -/
def toFinset (s : BitSet) : Finset Nat := {i ∈ Finset.range s.capacity | s.contains i = true}

theorem lt_capacity {s : BitSet} {i : Nat} (h : s.contains i = true) : i < s.capacity := by
  by_contra hle
  rw [contains_of_le (Nat.not_lt.1 hle)] at h
  cases h

theorem mem_toFinset {s : BitSet} {i : Nat} : i ∈ s.toFinset ↔ s.contains i = true := by
  simp only [toFinset, Finset.mem_filter, Finset.mem_range]
  exact ⟨fun h => h.2, fun h => ⟨lt_capacity h, h⟩⟩

theorem toFinset_subset (s : BitSet) : s.toFinset ⊆ Finset.range s.capacity :=
  Finset.filter_subset ..

/-- The words list the members in order. -/
theorem listed_words (s : BitSet) : listed 0 s.words = s.toFinset.sort := by
  refine (pairwise_listed 0 s.words).eq_of_mem_iff (Finset.sortedLT_sort _).pairwise fun i => ?_
  rw [mem_listed, Finset.mem_sort, mem_toFinset, contains_eq_bitOf]
  simp

theorem pending_iter (s : BitSet) : s.iter.pending = s.toFinset.sort := by
  rw [← listed_words]
  cases hwords : s.words with
  | nil => simp [iter, Iter.pending, hwords, listed]
  | cons w ws => simp [iter, Iter.pending, hwords, listed]

theorem count_eq_card (s : BitSet) : s.count = s.toFinset.card := by
  rw [count, ← length_listed 0, listed_words, Finset.length_sort]

theorem count_le (s : BitSet) : s.count ≤ s.capacity := by
  rw [count_eq_card]
  exact (Finset.card_le_card s.toFinset_subset).trans_eq (Finset.card_range _)

theorem toList_eq_sort (s : BitSet) : s.toList = s.toFinset.sort := by
  have hlen : s.toFinset.sort.length ≤ s.capacity := by
    rw [Finset.length_sort, ← count_eq_card]
    exact s.count_le
  rw [toList, Iter.take_eq, pending_iter, List.take_of_length_le hlen]

theorem length_toList (s : BitSet) : s.toList.length = s.count := by
  rw [toList_eq_sort, Finset.length_sort, count_eq_card]

theorem mem_toList {s : BitSet} {i : Nat} : i ∈ s.toList ↔ s.contains i = true := by
  rw [toList_eq_sort, Finset.mem_sort, mem_toFinset]

theorem pairwise_toList (s : BitSet) : s.toList.Pairwise (· < ·) := by
  rw [toList_eq_sort]
  exact (Finset.sortedLT_sort _).pairwise

theorem isEmpty_iff {s : BitSet} : s.isEmpty = true ↔ s.toFinset = ∅ := by
  rw [← Finset.card_eq_zero, ← Finset.length_sort (· ≤ ·), List.length_eq_zero_iff, ← listed_words,
    listed_eq_nil, isEmpty, List.all_eq_true]
  simp

/-- Sets of one capacity are equal exactly if they stand for the same set. -/
theorem toFinset_inj {s t : BitSet} (hc : s.capacity = t.capacity) : s.toFinset = t.toFinset ↔ s = t := by
  refine ⟨fun h => ext_contains hc fun i => ?_, fun h => h ▸ rfl⟩
  rw [Bool.eq_iff_iff, ← mem_toFinset, ← mem_toFinset, h]

/-! ## Operations on sets -/

theorem toFinset_empty (n : Nat) : (empty n).toFinset = ∅ := by
  ext i
  simp [mem_toFinset]

theorem toFinset_full (n : Nat) : (full n).toFinset = Finset.range n := by
  ext i
  simp [mem_toFinset]

theorem toFinset_insert {s : BitSet} {i : Nat} (h : i < s.capacity) :
    (s.insert i).toFinset = Insert.insert i s.toFinset := by
  ext j
  rw [Finset.mem_insert, mem_toFinset, mem_toFinset, contains_insert, Bool.or_eq_true, decide_eq_true_eq,
    and_iff_right h, or_comm, eq_comm]

theorem count_insert {s : BitSet} {i : Nat} (h : i < s.capacity) (hnot : s.contains i = false) :
    (s.insert i).count = s.count + 1 := by
  have hnot : i ∉ s.toFinset := fun hmem => by simp [mem_toFinset.1 hmem] at hnot
  rw [count_eq_card, count_eq_card, toFinset_insert h, Finset.card_insert_of_notMem hnot]

section
variable {s t : BitSet}

theorem toFinset_combine_or (h : ∀ i, s.capacity ≤ i → Bitwise.or.bit false (t.contains i) = false) :
    (combine .or s t h).1.toFinset = s.toFinset ∪ t.toFinset := by
  ext i
  rw [Finset.mem_union, mem_toFinset, contains_combine, mem_toFinset, mem_toFinset]
  exact Bool.or_eq_true_iff

theorem toFinset_combine_and (h : ∀ i, s.capacity ≤ i → Bitwise.and.bit false (t.contains i) = false) :
    (combine .and s t h).1.toFinset = s.toFinset ∩ t.toFinset := by
  ext i
  rw [Finset.mem_inter, mem_toFinset, contains_combine, mem_toFinset, mem_toFinset]
  exact Bool.and_eq_true_iff

/-- Some word has changed exactly if the words have. -/
theorem any_ne_iff {vs ws : List (BitVec 64)} (hlen : ws.length = vs.length) :
    (vs.zip ws).any (fun e => e.2 != e.1) = true ↔ ws ≠ vs := by
  induction vs generalizing ws with
  | nil => simp [List.length_eq_zero_iff.1 hlen]
  | cons v vs ih =>
    cases ws with
    | nil => cases hlen
    | cons w ws =>
      rw [List.zip_cons_cons, List.any_cons, Bool.or_eq_true, ih (Nat.succ.inj hlen), bne_iff_ne, ne_eq, ne_eq,
        ne_eq, List.cons.injEq, not_and_or]

/-- Some word has changed exactly if the set has. -/
theorem combine_changed {op : Bitwise} (h : ∀ i, s.capacity ≤ i → op.bit false (t.contains i) = false) :
    (combine op s t h).2 = decide ((combine op s t h).1.toFinset ≠ s.toFinset) := by
  have hwords : (combine op s t h).1 = s ↔ op.words s.words t.words = s.words :=
    BitSet.ext_iff.trans (and_iff_right rfl)
  have hset : (combine op s t h).1.toFinset = s.toFinset ↔ (combine op s t h).1 = s := toFinset_inj rfl
  rw [Bool.eq_iff_iff, decide_eq_true_eq, ne_eq, hset, hwords]
  exact any_ne_iff (op.length_words ..)

end

theorem unionWith?_eq {s t : BitSet} (hc : s.capacity = t.capacity) :
    ∃ u, s.unionWith? t = some (u, decide (s.toFinset ∪ t.toFinset ≠ s.toFinset)) ∧
      u.capacity = s.capacity ∧ u.toFinset = s.toFinset ∪ t.toFinset := by
  have hnone : ∀ i, s.capacity ≤ i → Bitwise.or.bit false (t.contains i) = false :=
    fun i hi => contains_of_le (hc ▸ hi)
  refine ⟨(combine .or s t hnone).1, ?_, rfl, toFinset_combine_or hnone⟩
  rw [← toFinset_combine_or hnone, ← combine_changed hnone, unionWith?, dif_pos hc]

theorem interWith?_eq {s t : BitSet} (hc : s.capacity = t.capacity) :
    ∃ u, s.interWith? t = some (u, decide (s.toFinset ∩ t.toFinset ≠ s.toFinset)) ∧
      u.capacity = s.capacity ∧ u.toFinset = s.toFinset ∩ t.toFinset := by
  have hnone : ∀ i, s.capacity ≤ i → Bitwise.and.bit false (t.contains i) = false := fun _ _ => rfl
  refine ⟨(combine .and s t hnone).1, ?_, rfl, toFinset_combine_and hnone⟩
  rw [← toFinset_combine_and hnone, ← combine_changed hnone, interWith?, if_pos hc]

/-! ## Sequences of operations -/

/-- How a set is made by operations, each of which may be refused. -/
inductive Construction
  | empty (capacity : Nat)
  | full (capacity : Nat)
  | ofList (capacity : Nat) (is : List Nat)
  | insert (c : Construction) (i : Nat)
  | union (c d : Construction)
  | inter (c d : Construction)

namespace Construction

/-- The bit set that the operations make. -/
def build? : Construction → Option BitSet
  | empty n => some (.empty n)
  | full n => some (.full n)
  | ofList n is => ofList? n is
  | insert c i => do (← c.build?).insert? i
  | union c d => do (← c.build?).union? (← d.build?)
  | inter c d => do (← c.build?).inter? (← d.build?)

def capacity : Construction → Nat
  | empty n | full n | ofList n _ => n
  | insert c _ | union c _ | inter c _ => c.capacity

/-- The set that the operations are to make. -/
def finset : Construction → Finset Nat
  | empty _ => ∅
  | full n => Finset.range n
  | ofList _ is => is.toFinset
  | insert c i => Insert.insert i c.finset
  | union c d => c.finset ∪ d.finset
  | inter c d => c.finset ∩ d.finset

/-- Only numbers below the capacity are put in, and only sets of one capacity are combined. -/
def Fits : Construction → Prop
  | empty _ | full _ => True
  | ofList n is => ∀ i ∈ is, i < n
  | insert c i => c.Fits ∧ i < c.capacity
  | union c d | inter c d => c.Fits ∧ d.Fits ∧ c.capacity = d.capacity

/-- What comes of operations: the set that they are to make, or nothing if something does not fit. -/
inductive Makes (c : Construction) : Option BitSet → Prop
  | made {s : BitSet} : c.Fits → s.capacity = c.capacity → s.toFinset = c.finset → Makes c (some s)
  | refused : ¬ c.Fits → Makes c none

namespace Makes

variable {c d : Construction} {s? t? : Option BitSet}

theorem insert (h : c.Makes s?) (i : Nat) : (insert c i).Makes (do (← s?).insert? i) := by
  cases h with
  | refused hfits => exact .refused fun h => hfits h.1
  | @made s hfits hcap hset =>
    change Makes _ (s.insert? i)
    unfold insert?
    split
    · rename_i hi
      exact .made ⟨hfits, hcap ▸ hi⟩ ((capacity_insert s i).trans hcap) (by rw [toFinset_insert hi, hset]; rfl)
    · rename_i hi
      exact .refused fun h => hi (hcap ▸ h.2)

/-- An operation on two sets, which is refused if their capacities differ. -/
theorem combine {e : Construction} {op? : BitSet → BitSet → Option BitSet} (hc : c.Makes s?) (hd : d.Makes t?)
    (hfits : e.Fits ↔ c.Fits ∧ d.Fits ∧ c.capacity = d.capacity) (hcap : e.capacity = c.capacity)
    (hsame : ∀ {s t : BitSet}, s.capacity = t.capacity → s.toFinset = c.finset → t.toFinset = d.finset →
      ∃ u, op? s t = some u ∧ u.capacity = s.capacity ∧ u.toFinset = e.finset)
    (hdiffer : ∀ {s t : BitSet}, s.capacity ≠ t.capacity → op? s t = none) :
    e.Makes (do op? (← s?) (← t?)) := by
  cases hc with
  | refused hc => exact .refused fun h => hc (hfits.1 h).1
  | @made s hc hsc hs =>
    cases hd with
    | refused hd => exact .refused fun h => hd (hfits.1 h).2.1
    | @made t hd htd ht =>
      change Makes e (op? s t)
      by_cases hst : s.capacity = t.capacity
      · obtain ⟨u, hu, hus, huset⟩ := hsame hst hs ht
        rw [hu]
        exact .made (hfits.2 ⟨hc, hd, hsc ▸ htd ▸ hst⟩) (hus.trans (hsc.trans hcap.symm)) huset
      · rw [hdiffer hst]
        exact .refused fun h => hst (hsc.trans ((hfits.1 h).2.2.trans htd.symm))

theorem union (hc : c.Makes s?) (hd : d.Makes t?) : (union c d).Makes (do (← s?).union? (← t?)) := by
  refine hc.combine hd .rfl rfl (fun {s t} hst hs ht => ?_) fun hst => by simp [union?, unionWith?, hst]
  obtain ⟨u, hu, hus, huset⟩ := unionWith?_eq hst
  exact ⟨u, by rw [union?, hu]; rfl, hus, by rw [huset, hs, ht]; rfl⟩

theorem inter (hc : c.Makes s?) (hd : d.Makes t?) : (inter c d).Makes (do (← s?).inter? (← t?)) := by
  refine hc.combine hd .rfl rfl (fun {s t} hst hs ht => ?_) fun hst => by simp [inter?, interWith?, hst]
  obtain ⟨u, hu, hus, huset⟩ := interWith?_eq hst
  exact ⟨u, by rw [inter?, hu]; rfl, hus, by rw [huset, hs, ht]; rfl⟩

theorem congr (h : c.Makes s?) (hfits : c.Fits ↔ d.Fits) (hcap : c.capacity = d.capacity)
    (hset : c.finset = d.finset) : d.Makes s? := by
  cases h with
  | made hc hcap' hset' => exact .made (hfits.1 hc) (hcap'.trans hcap) (hset'.trans hset)
  | refused hc => exact .refused fun hd => hc (hfits.2 hd)

/-- The numbers of a list are put in one after another. -/
theorem ofList (n : Nat) (is : List Nat) : (ofList n is).Makes (ofList? n is) := by
  induction is using List.reverseRecOn with
  | nil => exact .made (by simp [Fits]) rfl (toFinset_empty n)
  | append_singleton is i ih =>
    have hlast : ofList? n (is ++ [i]) = (ofList? n is).bind (·.insert? i) := by simp [ofList?]
    rw [hlast]
    refine (ih.insert i).congr ?_ rfl ?_
    · simp only [Fits, List.mem_append, List.mem_singleton, capacity, or_imp, forall_and, forall_eq]
    · ext j
      simp [finset]

end Makes

/-- What fits is made, and nothing else. -/
theorem makes_build? (c : Construction) : c.Makes c.build? := by
  induction c with
  | empty n => exact .made trivial rfl (toFinset_empty n)
  | full n => exact .made trivial rfl (toFinset_full n)
  | ofList n is => exact .ofList n is
  | insert c i ih => exact ih.insert i
  | union c d ihc ihd => exact ihc.union ihd
  | inter c d ihc ihd => exact ihc.inter ihd

theorem build?_eq_some {c : Construction} {s : BitSet} (h : c.build? = some s) :
    c.Fits ∧ s.capacity = c.capacity ∧ s.toFinset = c.finset := by
  have hmakes := c.makes_build?
  rw [h] at hmakes
  cases hmakes with
  | made hfits hcap hset => exact ⟨hfits, hcap, hset⟩

theorem isSome_build? (c : Construction) : c.build?.isSome = true ↔ c.Fits := by
  have hmakes := c.makes_build?
  generalize c.build? = s? at hmakes ⊢
  cases hmakes with
  | made hfits => exact iff_of_true rfl hfits
  | refused hfits => exact iff_of_false nofun hfits

/-- Bit sets are finite sets: operations on them are refused exactly if something does not fit, and otherwise
make the set that they make of finite sets. Every query answers for that set, listing gives its members once
each, ascending, and nothing any more behind them, and union and intersection say whether they change it. -/
theorem faithful (c : Construction) : (c.build?.isSome = true ↔ c.Fits) ∧ ∀ s, c.build? = some s →
    s.capacity = c.capacity ∧ c.finset ⊆ Finset.range c.capacity ∧
    (∀ i, s.contains i = true ↔ i ∈ c.finset) ∧
    s.count = c.finset.card ∧ (s.isEmpty = true ↔ c.finset = ∅) ∧
    (∀ n, (s.iter.skip n).next.1 = c.finset.sort[n]?) ∧
    ∀ d t, d.build? = some t → c.capacity = d.capacity →
      ((s == t) = true ↔ c.finset = d.finset) ∧
      (∃ u, s.unionWith? t = some (u, decide ((union c d).finset ≠ c.finset)) ∧ (union c d).build? = some u) ∧
      ∃ u, s.interWith? t = some (u, decide ((inter c d).finset ≠ c.finset)) ∧ (inter c d).build? = some u := by
  refine ⟨c.isSome_build?, fun s hs => ?_⟩
  obtain ⟨-, hcap, hset⟩ := build?_eq_some hs
  rw [← hset, ← hcap]
  refine ⟨rfl, toFinset_subset s, fun i => mem_toFinset.symm, count_eq_card s, isEmpty_iff, fun n => ?_, ?_⟩
  · rw [Iter.next_skip, pending_iter]
  · intro d t ht hcd
    obtain ⟨-, hcap', hset'⟩ := build?_eq_some ht
    have hst : s.capacity = t.capacity := hcd.trans hcap'.symm
    refine ⟨?_, ?_, ?_⟩
    · rw [beq_iff_eq, ← hset', toFinset_inj hst]
    · obtain ⟨u, hu, -⟩ := unionWith?_eq hst
      refine ⟨u, ?_, by simp [build?, hs, ht, union?, hu]⟩
      rw [hu, hset, hset']
      rfl
    · obtain ⟨u, hu, -⟩ := interWith?_eq hst
      refine ⟨u, ?_, by simp [build?, hs, ht, inter?, hu]⟩
      rw [hu, hset, hset']
      rfl

/-- Three words, the last of which stands for two numbers only. -/
def threeWords : Construction :=
  .union (.insert (.ofList 130 [64, 3, 129, 3]) 65) (.inter (.full 130) (.ofList 130 [0, 129]))

theorem faithful_threeWords : ∃ s, threeWords.build? = some s ∧ s.contains 65 = true ∧ s.contains 66 = false ∧
    s.count = 5 ∧ s.isEmpty = false ∧ (s.iter.skip 1).next.1 = some 3 ∧ (s.iter.skip 4).next.1 = some 129 ∧
    (∀ n, (s.iter.skip (5 + n)).next.1 = none) ∧ (s == .full 130) = false ∧
    (∃ u, s.unionWith? (.full 130) = some (u, true)) ∧ (∃ u, s.interWith? (.full 130) = some (u, false)) ∧
    (Construction.insert threeWords 130).build? = none := by
  have hfinset : threeWords.finset = {0, 3, 64, 65, 129} := by decide
  obtain ⟨s, hs⟩ := Option.isSome_iff_exists.1 ((faithful threeWords).1.2 (by simp [threeWords, Fits, capacity]))
  obtain ⟨-, -, hcontains, hcount, hempty, hlist, hother⟩ := (faithful threeWords).2 s hs
  obtain ⟨heq, ⟨u, hu, -⟩, v, hv, -⟩ := hother (.full 130) _ rfl rfl
  have hfull : threeWords.finset ≠ (Construction.full 130).finset := by decide
  have hsort : ({0, 3, 64, 65, 129} : Finset Nat).sort = [0, 3, 64, 65, 129] :=
    (Finset.sortedLT_sort _).pairwise.eq_of_mem_iff (by decide) fun i => by simp
  rw [hfinset] at hcontains hcount hempty hlist
  rw [hsort] at hlist
  refine ⟨s, hs, (hcontains 65).2 (by decide), ?_, hcount, ?_, hlist 1,
    hlist 4, fun n => ?_, ?_, ⟨u, ?_⟩, ⟨v, ?_⟩, ?_⟩
  · exact Bool.eq_false_iff.2 fun h => absurd ((hcontains 66).1 h) (by decide)
  · exact Bool.eq_false_iff.2 fun h => absurd (hempty.1 h) (by decide)
  · rw [hlist, List.getElem?_eq_none]
    exact Nat.le_add_right 5 n
  · exact Bool.eq_false_iff.2 fun h => hfull (heq.1 h)
  · rw [hu, decide_eq_true (by decide)]
  · rw [hv, decide_eq_false (by decide)]
  · refine Option.not_isSome_iff_eq_none.1 fun h => ?_
    exact absurd ((faithful (.insert threeWords 130)).1.1 h).2 (by decide)

end Construction

end ThreeAddress.BitSet

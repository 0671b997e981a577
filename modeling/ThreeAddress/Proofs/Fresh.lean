import Mathlib.Data.List.Nodup
import Mathlib.Data.List.Perm.Subperm
import ThreeAddress.Fresh
import ThreeAddress.Name
/-!
# Fresh names are not taken

Among one name more than there are taken, one is free, if the names differ: the first that is found is
not taken (`firstFree_notMem`). The versions of a name differ, as a version ends in a dot and digits.
-/

namespace ThreeAddress

/-! ## The first free name -/

section

variable {α : Type} [DecidableEq α] {taken : List α} {name : Nat → α}

theorem le_firstFree_go (n i : Nat) : i ≤ firstFree.go taken name n i := by
  induction n generalizing i with
  | zero => exact Nat.le_refl i
  | succ n ih =>
    unfold firstFree.go
    split
    · exact Nat.le_of_succ_le (ih (i + 1))
    · exact Nat.le_refl i

theorem le_firstFree (start : Nat) : start ≤ firstFree taken name start :=
  le_firstFree_go taken.length start

/-- A name that is taken is found only behind as many others that are taken. -/
theorem mem_of_firstFree_go_mem {n i : Nat} (h : name (firstFree.go taken name n i) ∈ taken) :
    ∀ j ≤ n, name (i + j) ∈ taken := by
  induction n generalizing i with
  | zero =>
    intro j hj
    obtain rfl : j = 0 := Nat.le_zero.1 hj
    exact h
  | succ n ih =>
    unfold firstFree.go at h
    split at h
    · rename_i hi
      intro j hj
      cases j with
      | zero => exact hi
      | succ j =>
        have := ih h j (Nat.le_of_succ_le_succ hj)
        rwa [Nat.add_assoc, Nat.add_comm 1 j] at this
    · contradiction

theorem firstFree_notMem (hname : Function.Injective name) (start : Nat) :
    name (firstFree taken name start) ∉ taken := by
  intro h
  have hall := mem_of_firstFree_go_mem h
  have hnodup : ((List.range (taken.length + 1)).map fun j => name (start + j)).Nodup :=
    List.nodup_range.map fun a b hab => Nat.add_left_cancel (hname hab)
  have hsub : (List.range (taken.length + 1)).map (fun j => name (start + j)) ⊆ taken := by
    intro x hx
    obtain ⟨j, hj, rfl⟩ := List.mem_map.1 hx
    exact hall j (Nat.le_of_lt_succ (List.mem_range.1 hj))
  have := (hnodup.subperm hsub).length_le
  simp only [List.length_map, List.length_range] at this
  omega

end

/-! ## Versions -/

/-- What stands before and after the last dot. -/
theorem splitLastDot?_append {before after : List Char} (h : '.' ∉ after) :
    splitLastDot? (before ++ '.' :: after) = some (before, after) := by
  have hafter : ∀ c ∈ after.reverse, (c != '.') = true := by
    intro c hc
    simp only [bne_iff_ne]
    rintro rfl
    exact h (List.mem_reverse.1 hc)
  simp [splitLastDot?, List.reverse_append, List.dropWhile_append_of_pos hafter,
    List.takeWhile_append_of_pos hafter]

theorem eq_of_splitLastDot? {s before after : List Char} (h : splitLastDot? s = some (before, after)) :
    s = before ++ '.' :: after := by
  unfold splitLastDot? at h
  split at h
  · cases h
  · rename_i x rest hrest
    cases h
    have hx : x = '.' := by
      have := List.head?_dropWhile_not (· != '.') s.reverse
      simpa [hrest] using this
    have := List.takeWhile_append_dropWhile (p := (· != '.')) (l := s.reverse)
    rw [hrest, hx] at this
    have := congrArg List.reverse this
    simpa using this.symm

theorem dot_notMem_toString (n : Nat) : '.' ∉ (toString n).toList := by
  intro h
  have := Nat.isDigit_of_mem_toDigits (b := 10) (n := n) (c := '.') (by decide) (by decide)
    (by simpa using h)
  cases this

theorem toString_nat_injective : Function.Injective (toString : Nat → String) := by
  intro m n h
  have h : Nat.toDigits 10 m = Nat.toDigits 10 n := by simpa using congrArg String.toList h
  rw [← Nat.ofDigitChars_ten_toDigits (n := m), h, Nat.ofDigitChars_ten_toDigits]

namespace Temp

theorem toList_withVersion (t : Temp) (n : Nat) :
    (t.withVersion n).name.toList = t.base.toList ++ '.' :: (toString n).toList := by
  simp [withVersion]

theorem eq_of_withVersion_eq {t u : Temp} {m n : Nat} (h : t.withVersion m = u.withVersion n) :
    t.base = u.base ∧ m = n := by
  have h : (t.withVersion m).name.toList = (u.withVersion n).name.toList := by rw [h]
  rw [toList_withVersion, toList_withVersion] at h
  have := congrArg splitLastDot? h
  rw [splitLastDot?_append (dot_notMem_toString m), splitLastDot?_append (dot_notMem_toString n)] at this
  obtain ⟨hbase, hversion⟩ := Prod.mk.inj (Option.some.inj this)
  exact ⟨String.toList_injective hbase, toString_nat_injective (String.toList_injective hversion)⟩

theorem withVersion_injective (t : Temp) : Function.Injective t.withVersion :=
  fun _ _ h => (eq_of_withVersion_eq h).2

/-- Versions of globals are globals and versions of locals are locals. -/
theorem isGlobal_withVersion (t : Temp) (n : Nat) : (t.withVersion n).isGlobal = t.isGlobal := by
  have hhead : (t.base.toList ++ '.' :: (toString n).toList).head? = t.name.toList.head? ∨
      (t.base.toList = [] ∧ t.name.toList = []) := by
    unfold base
    split
    · rename_i before version hsplit
      split
      · rename_i hlen
        rw [eq_of_splitLastDot? hsplit]
        cases before with
        | nil => simp at hlen
        | cons c cs => simp
      · cases t.name.toList <;> simp
    · cases t.name.toList <;> simp
  unfold isGlobal
  rw [String.front?_eq, String.front?_eq, toList_withVersion]
  rcases hhead with h | ⟨hbase, hname⟩
  · rw [h]
  · simp [hbase, hname]

/-- Versions of locals have a version. -/
theorem kind_withVersion {t : Temp} (ht : t.isGlobal = false) (n : Nat) : (t.withVersion n).kind = .versioned := by
  obtain ⟨before, hstem⟩ : ∃ before, (t.withVersion n).stem = before ++ '.' :: (toString n).toList := by
    unfold stem
    rw [toList_withVersion]
    cases t.base.toList with
    | nil => exact ⟨[], rfl⟩
    | cons c cs =>
      rw [List.cons_append]
      split
      · rename_i s hs
        exact ⟨cs, (List.cons.inj hs).2.symm⟩
      · exact ⟨c :: cs, rfl⟩
  have hdigits : (toString n).toList.all Char.isDigit = true := by
    refine List.all_eq_true.2 fun c hc => ?_
    exact Nat.isDigit_of_mem_toDigits (b := 10) (n := n) (by decide) (by decide) (by simpa using hc)
  have hnonempty : (toString n).toList.isEmpty = false := by
    simp [Nat.toDigits_ne_nil]
  have hversion : (t.withVersion n).hasVersion = true := by
    simp only [hasVersion, hstem, splitLastDot?_append (dot_notMem_toString n), hdigits, hnonempty]
    exact Bool.or_true _
  rw [kind, isGlobal_withVersion, ht, hversion]
  rfl

theorem isGlobal_of_isVersioned {t : Temp} (h : t.isVersioned = true) : t.isGlobal = false := by
  cases hg : t.isGlobal with
  | false => rfl
  | true => simp [isVersioned, kind, hg] at h

theorem isVersioned_of_global {t : Temp} (ht : t.isGlobal = true) : t.isVersioned = false := by
  simp [isVersioned, kind, ht]

end Temp

end ThreeAddress

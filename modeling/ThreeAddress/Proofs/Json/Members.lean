import Mathlib.Data.List.Nodup
import Mathlib.Data.List.Perm.Subperm
import ThreeAddress.Json.Value
/-!
# Members of objects

The canonical form of an object has its members by ascending name (`Json.ascending_sortMembers`), and members that
ascend already are left as they are (`Json.sortMembers_of_ascending`). So an object of which the fields are known, in
whatever order they are written, has a known canonical form: `Json.canonical_object`.
-/

namespace ThreeAddress

/-- Elements that are put in one by one and ascend already keep their order. -/
theorem foldl_of_pairwise {α : Type} {r : α → α → Prop} {put : List α → α → List α}
    (hput : ∀ {as : List α} {a : α}, (∀ b ∈ as, r b a) → put as a = as ++ [a]) {as : List α} (bs : List α)
    (h : (bs ++ as).Pairwise r) : as.foldl put bs = bs ++ as := by
  induction as generalizing bs with
  | nil => simp
  | cons a as ih =>
    have hlast : put bs a = bs ++ [a] :=
      hput fun b hb => (List.pairwise_append.1 h).2.2 b hb a List.mem_cons_self
    rw [List.foldl_cons, hlast, ih _ (by simpa using h)]
    simp

namespace Json

variable {name : String} {v : Json} {m : String × Json} {ms fields : List (String × Json)}

theorem canonicalItems_eq (vs : List Json) : canonicalItems vs = vs.map canonical := by
  induction vs with
  | nil => rfl
  | cons v vs ih => rw [canonicalItems, ih, List.map_cons]

theorem canonicalMembers_eq (ms : List (String × Json)) :
    canonicalMembers ms = ms.map fun m => (m.1, m.2.canonical) := by
  induction ms with
  | nil => rfl
  | cons m ms ih => rw [canonicalMembers, ih, List.map_cons]

/-! ## Ascending members -/

/-- The names ascend strictly. -/
def Ascending (ms : List (String × Json)) : Prop := ms.Pairwise fun m n => m.1 < n.1

theorem ascending_of_names (h : (ms.map (·.1)).Pairwise (· < ·)) : Ascending ms := List.pairwise_map.1 h

theorem insertMember_of_lt (h : ∀ m ∈ ms, m.1 < name) : insertMember name v ms = ms ++ [(name, v)] := by
  induction ms with
  | nil => rfl
  | cons m ms ih =>
    have hm := h m List.mem_cons_self
    rw [insertMember, if_neg (String.lt_asymm hm), if_pos hm, ih fun n hn => h n (.tail _ hn), List.cons_append]

theorem sortMembers_of_ascending (h : Ascending ms) : sortMembers ms = ms :=
  foldl_of_pairwise insertMember_of_lt [] h

theorem mem_insertMember (h : m ∈ insertMember name v ms) : m = (name, v) ∨ m ∈ ms := by
  induction ms with
  | nil => simpa [insertMember] using h
  | cons n ns ih =>
    unfold insertMember at h
    split_ifs at h with h₁ h₂
    · simpa using h
    · rcases List.mem_cons.1 h with rfl | h
      · simp
      · rcases ih h with h | h <;> simp [h]
    · rcases List.mem_cons.1 h with h | h <;> simp [h]

theorem ascending_insertMember (h : Ascending ms) : Ascending (insertMember name v ms) := by
  induction ms with
  | nil => exact List.pairwise_singleton ..
  | cons n ns ih =>
    obtain ⟨hn, hns⟩ := List.pairwise_cons.1 h
    unfold insertMember
    split_ifs with h₁ h₂
    · refine List.pairwise_cons.2 ⟨fun m hm => ?_, h⟩
      rcases List.mem_cons.1 hm with rfl | hm
      · exact h₁
      · exact String.lt_trans h₁ (hn m hm)
    · refine List.pairwise_cons.2 ⟨fun m hm => ?_, ih hns⟩
      rcases mem_insertMember hm with rfl | hm
      · exact h₂
      · exact hn m hm
    · refine List.pairwise_cons.2 ⟨fun m hm => ?_, hns⟩
      have hname : name = n.1 := String.le_antisymm h₂ h₁
      exact hname ▸ hn m hm

theorem ascending_sortMembers (ms : List (String × Json)) : Ascending (sortMembers ms) :=
  List.foldlRecOn ms _ List.Pairwise.nil fun _ h _ _ => ascending_insertMember h

/-! ## Objects of known fields -/

theorem perm_insertMember (h : name ∉ ms.map (·.1)) : (insertMember name v ms).Perm ((name, v) :: ms) := by
  induction ms with
  | nil => exact .refl _
  | cons m ms ih =>
    obtain ⟨hne, hms⟩ := not_or.1 (mt List.mem_cons.2 h)
    unfold insertMember
    split_ifs with h₁ h₂
    · exact .refl _
    · exact ((ih hms).cons m).trans (.swap ..)
    · exact absurd (String.le_antisymm h₂ h₁) hne

/-- Members of different names are all kept. -/
theorem perm_sortMembers (h : (ms.map (·.1)).Nodup) : (sortMembers ms).Perm ms := by
  have key : ∀ {ms sorted : List (String × Json)}, ((sorted ++ ms).map (·.1)).Nodup →
      (ms.foldl (fun sorted m => insertMember m.1 m.2 sorted) sorted).Perm (sorted ++ ms) := by
    intro ms
    induction ms with
    | nil => simp
    | cons m ms ih =>
      intro sorted h
      have hperm : ((m :: sorted) ++ ms).Perm (sorted ++ m :: ms) := List.perm_middle.symm
      have hcons : (((m :: sorted) ++ ms).map (·.1)).Nodup := ((hperm.map _).nodup_iff).2 h
      have hnew : m.1 ∉ sorted.map (·.1) := fun hm =>
        (List.nodup_cons.1 hcons).1 (List.map_append ▸ List.mem_append_left _ hm)
      have hput : (insertMember m.1 m.2 sorted ++ ms).Perm ((m :: sorted) ++ ms) :=
        (perm_insertMember hnew).append_right ms
      rw [List.foldl_cons]
      exact (ih (((hput.map _).nodup_iff).2 hcons)).trans (hput.trans hperm)
  exact key h

theorem mem_of_field_eq_once (h : field name ms = .once v) : (name, v) ∈ ms := by
  unfold field at h
  split at h
  · cases h
  · rename_i k w heq
    cases h
    have hmem : (k, v) ∈ ms.filter (·.1 == name) := by simp [heq]
    obtain ⟨hmem, hname⟩ := List.mem_filter.1 hmem
    rwa [← beq_iff_eq.1 hname]
  · cases h

/-- An object that has certain fields and no others has them in ascending order in its canonical form. -/
theorem canonical_object (hasc : Ascending fields) (hnames : (ms.map (·.1)).Perm (fields.map (·.1)))
    (h : ∀ f ∈ fields, field f.1 ms = .once f.2) :
    (object ms).canonical = .object (fields.map fun f => (f.1, f.2.canonical)) := by
  have hnodup : (fields.map (·.1)).Nodup :=
    List.pairwise_map.2 (hasc.imp fun {f g} hlt (he : f.1 = g.1) => String.lt_irrefl _ (he ▸ hlt))
  have hlength : ms.length ≤ fields.length := by simpa using Nat.le_of_eq hnames.length_eq
  have hperm : fields.Perm ms :=
    (List.subperm_of_subset (List.Nodup.of_map _ hnodup) fun f hf => mem_of_field_eq_once (h f hf)).perm_of_length_le
      hlength
  have hsame : (sortMembers (canonicalMembers ms)).Perm (fields.map fun f => (f.1, f.2.canonical)) := by
    refine (perm_sortMembers ?_).trans ?_
    · simpa [canonicalMembers_eq, Function.comp_def] using hnames.nodup_iff.2 hnodup
    · rw [canonicalMembers_eq]
      exact (hperm.map _).symm
  have hasc' : Ascending (fields.map fun f => (f.1, f.2.canonical)) := List.pairwise_map.2 hasc
  rw [canonical, List.Perm.eq_of_pairwise ?_ (ascending_sortMembers _) hasc' hsame]
  exact fun m n _ _ h₁ h₂ => absurd h₂ (String.lt_asymm h₁)

end Json

end ThreeAddress

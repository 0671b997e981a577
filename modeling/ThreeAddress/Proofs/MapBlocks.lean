import Mathlib.Algebra.GroupWithZero.Nat
import ThreeAddress.Proofs.Paths
/-!
# Graphs with other blocks

Where each block of a graph is replaced by one with the same label and the same targets, the edges stay
what they are, and the graph stays valid if the new bodies are in order.
-/

namespace ThreeAddress

theorem map_eq_self_iff {α : Type} {g : α → α} {as : List α} : as.map g = as ↔ ∀ a ∈ as, g a = a := by
  simpa only [List.map_id, id_eq] using List.map_inj_left (l := as) (f := g) (g := id)

theorem map_filter_eq_self_iff {α : Type} {p : α → Bool} {g : α → α} {as : List α} :
    (as.filter p).map g = as ↔ ∀ a ∈ as, p a = true ∧ g a = a := by
  constructor
  · intro h
    have hlength := congrArg List.length h
    rw [List.length_map] at hlength
    have hp := List.length_filter_eq_length_iff.1 hlength
    rw [List.filter_eq_self.2 hp, map_eq_self_iff] at h
    exact fun a ha => ⟨hp a ha, h a ha⟩
  · intro h
    rw [List.filter_eq_self.2 fun a ha => (h a ha).1, map_eq_self_iff]
    exact fun a ha => (h a ha).2

theorem sum_map_ite {α : Type} (p : α → Prop) [DecidablePred p] (n : Nat) (xs : List α) :
    (xs.map fun x => if p x then n else 0).sum = xs.countP (p ·) * n := by
  induction xs with
  | nil => exact (Nat.zero_mul n).symm
  | cons x xs ih =>
    rw [List.map_cons, List.sum_cons, ih, List.countP_cons, Nat.add_mul]
    by_cases h : p x <;> simp [h, Nat.add_comm]

namespace Cfg

variable {c : Cfg} {f : Block → Block}

theorem block?_mapBlocks (hf : ∀ b, (f b).label = b.label) (c : Cfg) (l : Label) :
    (c.mapBlocks f).block? l = (c.block? l).map f := by
  simp only [block?, mapBlocks]
  induction c.blocks with
  | nil => rfl
  | cons b bs ih =>
    rw [List.map_cons, List.find?_cons, List.find?_cons, hf]
    split
    · rfl
    · exact ih

theorem labels_mapBlocks (hf : ∀ b, (f b).label = b.label) (c : Cfg) :
    (c.mapBlocks f).labels = c.labels := by
  simp [labels, mapBlocks, Function.comp_def, hf]

theorem mapBlocks_eq_self (h : ∀ b ∈ c.blocks, f b = b) : c.mapBlocks f = c :=
  congrArg (fun bs => { c with blocks := bs }) (map_eq_self_iff.2 h)

theorem mem_mapBlocks {b' : Block} : b' ∈ (c.mapBlocks f).blocks ↔ ∃ b ∈ c.blocks, f b = b' :=
  List.mem_map

theorem edge_mapBlocks (hf : ∀ b, (f b).label = b.label) (ht : ∀ b ∈ c.blocks, (f b).targets = b.targets)
    {k l : Label} : (c.mapBlocks f).Edge k l ↔ c.Edge k l := by
  constructor
  · rintro ⟨_, hb', hl, htarget⟩
    obtain ⟨b, hb, rfl⟩ := mem_mapBlocks.1 hb'
    exact ⟨b, hb, (hf b).symm.trans hl, ht b hb ▸ htarget⟩
  · rintro ⟨b, hb, hl, htarget⟩
    exact ⟨_, mem_mapBlocks.2 ⟨b, hb, rfl⟩, (hf b).trans hl, (ht b hb).symm ▸ htarget⟩

theorem path_mapBlocks (hf : ∀ b, (f b).label = b.label) (ht : ∀ b ∈ c.blocks, (f b).targets = b.targets)
    {ls : List Label} {l : Label} : (c.mapBlocks f).Path ls l ↔ c.Path ls l :=
  ⟨.mono rfl fun _ _ => (edge_mapBlocks hf ht).1, .mono rfl fun _ _ => (edge_mapBlocks hf ht).2⟩

theorem reachable_mapBlocks (hf : ∀ b, (f b).label = b.label) (ht : ∀ b ∈ c.blocks, (f b).targets = b.targets)
    {l : Label} : (c.mapBlocks f).Reachable l ↔ c.Reachable l :=
  exists_congr fun _ => path_mapBlocks hf ht

theorem Valid.mapBlocks (h : c.Valid) (hf : ∀ b, (f b).label = b.label)
    (ht : ∀ b ∈ c.blocks, (f b).targets = b.targets)
    (hsource : ∀ b ∈ c.blocks, ∀ l ∈ sourceLabels (f b), l ∈ c.labels)
    (hbody : ∀ b ∈ c.blocks, ∀ i ∈ (f b).body, i.isTerminator = false) : (c.mapBlocks f).Valid := by
  have hlabels : (c.mapBlocks f).labels = c.labels := c.labels_mapBlocks hf
  refine ⟨hlabels ▸ h.first, hlabels ▸ h.nodup, ?_, ?_, ?_, ?_⟩
  · intro b' hb' t htarget
    obtain ⟨b, hb, rfl⟩ := mem_mapBlocks.1 hb'
    exact hlabels ▸ h.target b hb t (ht b hb ▸ htarget)
  · intro b' hb' htarget
    obtain ⟨b, hb, rfl⟩ := mem_mapBlocks.1 hb'
    exact h.entry_notMem b hb (ht b hb ▸ htarget)
  · intro b' hb' l hl
    obtain ⟨b, hb, rfl⟩ := mem_mapBlocks.1 hb'
    exact hlabels ▸ hsource b hb l hl
  · intro b' hb'
    obtain ⟨b, hb, rfl⟩ := mem_mapBlocks.1 hb'
    exact hbody b hb

end Cfg

end ThreeAddress

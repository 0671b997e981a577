import Mathlib.Order.Monotone.Basic
import ThreeAddress.Proofs.Infer
/-!
# The labels of the blocks

Which procedures have a graph. The labels of the blocks are those of the body and as many free ones as there
are stretches without a label (`Cut.labels_read`), and all jumps are those of the body or lead to a block that
has been begun (`Cut.wired_read`). So a body is refused for a label that it defines twice or names without
defining it, but only as long as no block without a label is given the very label that is missing: when labels
are made up, those are taken that the body defines, not those that it names (`Procedure.isOk_cfg`).
-/

namespace ThreeAddress

/-! ## Free labels -/

/-- The number of the free label from `n` on that `k` others come before. -/
def freeNumber (taken : List Label) (n : Nat) : Nat → Nat
  | 0 => firstFree taken numberedLabel n
  | k + 1 => firstFree taken numberedLabel (freeNumber taken n k + 1)

/-- The free label that `k` others come before. -/
def freeLabel (taken : List Label) (n k : Nat) : Label := numberedLabel (freeNumber taken n k)

/-- The first `k` free labels from `n` on. -/
def freeLabels (taken : List Label) (n k : Nat) : List Label := (List.range k).map (freeLabel taken n)

section

variable (taken : List Label) (n k : Nat)

/-- Behind the first free number the others are counted on. -/
theorem freeNumber_succ :
    freeNumber taken (firstFree taken numberedLabel n + 1) k = freeNumber taken n (k + 1) := by
  induction k with
  | zero => rfl
  | succ k ih => rw [freeNumber, ih]; rfl

theorem freeLabels_succ : freeLabels taken n (k + 1) =
    freeLabel taken n 0 :: freeLabels taken (firstFree taken numberedLabel n + 1) k := by
  simp [freeLabels, List.range_succ_eq_map, freeLabel, freeNumber_succ]

theorem freeLabel_notMem : freeLabel taken n k ∉ taken := by
  cases k <;> exact firstFree_notMem numberedLabel_injective _

theorem freeLabel_injective : Function.Injective (freeLabel taken n) := by
  refine numberedLabel_injective.comp (strictMono_nat_of_lt_succ fun k => ?_).injective
  exact Nat.lt_of_succ_le (le_firstFree _)

theorem nodup_freeLabels : (freeLabels taken n k).Nodup :=
  List.nodup_range.map (freeLabel_injective taken n)

theorem disjoint_freeLabels : taken.Disjoint (freeLabels taken n k) := by
  intro l hl hfree
  obtain ⟨j, -, rfl⟩ := List.mem_map.1 hfree
  exact freeLabel_notMem taken n j hl

theorem freeLabel_notMem_freeLabels : freeLabel taken n k ∉ freeLabels taken n k := by
  intro h
  obtain ⟨j, hj, heq⟩ := List.mem_map.1 h
  obtain rfl := freeLabel_injective taken n heq
  exact Nat.lt_irrefl j (List.mem_range.1 hj)

end

/-! ## Where a body is cut -/

/-- An instruction without a label has no place behind another one: that is a jump or a return, or it is a
conditional jump and the instruction is no jump itself. -/
def Instr.cutsBehind (i previous : Instr) : Bool :=
  i.label?.isNone && if i.isTerminator then previous.isFinal else previous.isTerminator

theorem Instr.cutsBehind_ret {i : Instr} (hi : i.label? = none) : i.cutsBehind (.ret none) = true := by
  unfold cutsBehind
  rw [hi]
  split <;> rfl

theorem Instr.cutsBehind_label (i : Instr) (l : Label) : i.cutsBehind (.label l) = false := by
  unfold cutsBehind
  split <;> exact Bool.and_false _

/-- The number of instructions that have no place behind the one before them. -/
def cuts (previous : Instr) : List Instr → Nat
  | [] => 0
  | i :: rest => (if i.cutsBehind previous then 1 else 0) + cuts i rest

namespace Cut

variable {taken : List Label} {done : List Block} {b : Block} {n : Nat} {i previous : Instr} {rest : List Instr}

/-- The last instruction that was put into the block, if it is a jump, is the last of its jumps. -/
def EndsIn (b : Block) (previous : Instr) : Prop :=
  b.jumps.getLast? = if previous.isTerminator then some previous else none

theorem endsIn_label (l : Label) : EndsIn ⟨l, [], []⟩ (.label l) := rfl

theorem EndsIn.accepts_eq (h : EndsIn b previous) (hi : i.label? = none) :
    accepts b i = !i.cutsBehind previous := by
  have hclosed : b.isClosed = previous.isFinal := by
    unfold Block.isClosed
    rw [h]
    cases previous <;> rfl
  have hempty : b.jumps.isEmpty = !previous.isTerminator := by
    unfold EndsIn at h
    cases ht : previous.isTerminator <;> cases hj : b.jumps <;> simp_all
  simp only [accepts, Instr.cutsBehind, hi, hclosed, hempty]
  split <;> simp

theorem EndsIn.append (h : accepts b i = true) : EndsIn (b.append [i]) i := by
  cases ht : i.isTerminator with
  | true => simp [EndsIn, Block.append_of_terminator ht, ht]
  | false => simpa [EndsIn, Block.append_of_not_terminator ht, ht, accepts] using h

/-! ## What is made of a body -/

/-- An instruction is a label, or it has a place in the open block and is counted as no cut, or it is counted
and begins a block with the next free label. -/
theorem read_cons (hb : EndsIn b previous) (taken : List Label) (done : List Block) (n : Nat) (i : Instr)
    (rest : List Instr) :
    (∃ l, i = .label l ∧ cuts previous (i :: rest) = cuts i rest ∧ read taken (i :: rest) ⟨done, some b, n⟩ =
      read taken rest ⟨done ++ [b.closeWith (.jump l)], some ⟨l, [], []⟩, n⟩) ∨
    (i.label? = none ∧ cuts previous (i :: rest) = cuts i rest ∧ EndsIn (b.append [i]) i ∧
      read taken (i :: rest) ⟨done, some b, n⟩ = read taken rest ⟨done, some (b.append [i]), n⟩) ∨
    (i.label? = none ∧ cuts previous (i :: rest) = cuts i rest + 1 ∧
      EndsIn (Block.append ⟨freeLabel taken n 0, [], []⟩ [i]) i ∧ read taken (i :: rest) ⟨done, some b, n⟩ =
        read taken rest ⟨done ++ [b.closeWith (.jump (freeLabel taken n 0))],
          some (Block.append ⟨freeLabel taken n 0, [], []⟩ [i]), firstFree taken numberedLabel n + 1⟩) := by
  cases hi : i.label? with
  | some l =>
    obtain rfl := Instr.eq_label_of_label? hi
    exact .inl ⟨l, rfl, by simp [cuts, Instr.cutsBehind, Instr.label?], rfl⟩
  | none =>
    have haccepts := hb.accepts_eq hi
    cases hcut : i.cutsBehind previous with
    | false =>
      have ha : accepts b i = true := by simpa [hcut] using haccepts
      exact .inr (.inl ⟨rfl, by simp [cuts, hcut], .append ha, read_accepts hi ha⟩)
    | true =>
      have ha : accepts b i = false := by simpa [hcut] using haccepts
      exact .inr (.inr ⟨rfl, by simp [cuts, hcut, Nat.add_comm], .append (accepts_nil _ i), read_split hi ha rfl⟩)

/-- The labels of the blocks: those of the body, and a free one for each cut. -/
theorem labels_read (hb : EndsIn b previous) : ((read taken rest ⟨done, some b, n⟩).done.map Block.label).Perm
    (done.map Block.label ++ b.label :: (rest.filterMap Instr.label? ++ freeLabels taken n (cuts previous rest))) := by
  induction rest generalizing done b n previous with
  | nil => simp [read, finish, close, Block.label_closeWith, cuts, freeLabels]
  | cons i rest ih =>
    rcases read_cons hb taken done n i rest with ⟨l, rfl, hcuts, heq⟩ | ⟨hi, hcuts, hnext, heq⟩ |
      ⟨hi, hcuts, hnext, heq⟩ <;> rw [heq, hcuts]
    · refine (ih (endsIn_label l)).trans (.of_eq ?_)
      simp [Block.label_closeWith, Instr.label?]
    · rw [List.filterMap_cons_none hi]
      exact ih hnext
    · rw [List.filterMap_cons_none hi, freeLabels_succ]
      refine (ih hnext).trans ?_
      simp only [List.map_append, List.map_cons, List.map_nil, Block.label_closeWith, List.append_assoc,
        List.singleton_append]
      exact List.Perm.append_left _ (List.Perm.cons _ List.perm_middle.symm)

/-- The next free label comes behind those that have been used. -/
theorem next_read (hb : EndsIn b previous) : firstFree taken numberedLabel (read taken rest ⟨done, some b, n⟩).next =
    freeNumber taken n (cuts previous rest) := by
  induction rest generalizing done b n previous with
  | nil => rfl
  | cons i rest ih =>
    rcases read_cons hb taken done n i rest with ⟨l, rfl, hcuts, heq⟩ | ⟨-, hcuts, hnext, heq⟩ |
      ⟨-, hcuts, hnext, heq⟩ <;> rw [heq, hcuts]
    · exact ih (endsIn_label l)
    · exact ih hnext
    · rw [ih hnext, freeNumber_succ]

/-! ## What is in the blocks -/

/-- The block is made of instructions in their places, and its jumps lead where `P` says. -/
structure Wired (P : Label → Prop) (b : Block) : Prop where
  body : ∀ i ∈ b.body, i.isTerminator = false
  jumps : ∀ j ∈ b.jumps, j.isTerminator = true
  target : ∀ t ∈ b.targets, P t

variable {P : Label → Prop}

theorem wired_nil (P : Label → Prop) (l : Label) : Wired P ⟨l, [], []⟩ := ⟨nofun, nofun, nofun⟩

theorem Wired.jump (h : Wired P b) {j : Instr} (hj : j.isTerminator = true) (hP : ∀ t, j.target? = some t → P t) :
    Wired P ⟨b.label, b.body, b.jumps ++ [j]⟩ := by
  refine ⟨h.body, fun j' hj' => ?_, fun t ht => ?_⟩
  · rcases List.mem_append.1 hj' with hj' | hj'
    · exact h.jumps j' hj'
    · exact List.mem_singleton.1 hj' ▸ hj
  · simp only [Block.targets, List.filterMap_append, List.mem_append] at ht
    refine ht.elim (h.target t) fun ht => hP t ?_
    simpa using ht

theorem Wired.closeWith (h : Wired P b) {last : Instr} (ht : last.isTerminator = true)
    (hP : ∀ t, last.target? = some t → P t) : Wired P (b.closeWith last) := by
  unfold Block.closeWith
  split
  · exact h
  · exact h.jump ht hP

theorem Wired.append (h : Wired P b) (hP : ∀ t, i.target? = some t → P t) : Wired P (b.append [i]) := by
  cases ht : i.isTerminator with
  | false =>
    rw [Block.append_of_not_terminator ht]
    refine ⟨fun j hj => ?_, h.jumps, h.target⟩
    rcases List.mem_append.1 hj with hj | hj
    · exact h.body j hj
    · exact List.mem_singleton.1 hj ▸ ht
  | true =>
    rw [Block.append_of_terminator ht]
    exact h.jump ht hP

theorem Wired.forall_close (h : Wired P b) (hdone : ∀ d ∈ done, Wired P d) {last : Instr}
    (ht : last.isTerminator = true) (hP : ∀ t, last.target? = some t → P t) :
    ∀ d ∈ done ++ [b.closeWith last], Wired P d := by
  intro d hd
  rcases List.mem_append.1 hd with hd | hd
  · exact hdone d hd
  · exact List.mem_singleton.1 hd ▸ h.closeWith ht hP

/-- Jumps lead where those of the body lead, or to a block that has been begun. -/
theorem wired_read (hb : EndsIn b previous) (hcode : ∀ i ∈ rest, ∀ t, i.target? = some t ∨ i.label? = some t → P t)
    (hfree : ∀ t ∈ freeLabels taken n (cuts previous rest), P t) (hwired : Wired P b) (hdone : ∀ d ∈ done, Wired P d) :
    ∀ d ∈ (read taken rest ⟨done, some b, n⟩).done, Wired P d := by
  induction rest generalizing done b n previous with
  | nil => exact hwired.forall_close hdone rfl nofun
  | cons i rest ih =>
    have hi := hcode i List.mem_cons_self
    have hcode' := fun j hj => hcode j (.tail _ hj)
    rcases read_cons hb taken done n i rest with ⟨l, rfl, hcuts, heq⟩ | ⟨-, hcuts, hnext, heq⟩ |
      ⟨-, hcuts, hnext, heq⟩ <;> rw [hcuts] at hfree <;> rw [heq]
    · refine ih (endsIn_label l) hcode' hfree (wired_nil P l) (hwired.forall_close hdone rfl fun t ht => ?_)
      exact hi t (.inr ht)
    · exact ih hnext hcode' hfree (hwired.append fun t ht => hi t (.inl ht)) hdone
    · rw [freeLabels_succ] at hfree
      refine ih hnext hcode' (fun t ht => hfree t (.tail _ ht)) ((wired_nil P _).append fun t ht => hi t (.inl ht))
        (hwired.forall_close hdone rfl fun t ht => ?_)
      cases ht
      exact hfree _ List.mem_cons_self

end Cut

/-! ## The start of a body -/

/-- The number of blocks without a label in the body. Nothing runs into its start, as if a return came before. -/
def unlabelled : List Instr → Nat
  | [] => 1
  | body => cuts (.ret none) body

namespace Cut

/-- The first block, too, has a label of the body or a free one. -/
theorem exists_perm_start (taken : List Label) (body : List Instr) : ∃ l rest n,
    (body = rest ∨ body = .label l :: rest) ∧ l = (body.head?.bind Instr.label?).getD (freeLabel taken 0 0) ∧
      read taken body ⟨[], none, 0⟩ = read taken rest ⟨[], some ⟨l, [], []⟩, n⟩ ∧
      (l :: (rest.filterMap Instr.label? ++ freeLabels taken n (cuts (.label l) rest))).Perm
        (body.filterMap Instr.label? ++ freeLabels taken 0 (unlabelled body)) ∧
      freeNumber taken n (cuts (.label l) rest) = freeNumber taken 0 (unlabelled body) := by
  obtain ⟨l, rest, n, ⟨rfl, rfl⟩ | ⟨rfl, hnone, rfl, rfl⟩, hread⟩ := exists_read_start taken body
  · have hcuts : unlabelled (.label l :: rest) = cuts (.label l) rest := Nat.zero_add _
    exact ⟨l, rest, 0, .inr rfl, rfl, hread, by simp [hcuts, Instr.label?], by rw [hcuts]⟩
  · have hcuts : unlabelled body = cuts (.label (freeLabel taken 0 0)) body + 1 := by
      cases body with
      | nil => rfl
      | cons i rest =>
        have hi : i.label? = none := hnone
        simp [unlabelled, cuts, Instr.cutsBehind_ret hi, Instr.cutsBehind_label, Nat.add_comm]
    refine ⟨_, body, _, .inl rfl, by rw [hnone]; rfl, hread, ?_, ?_⟩
    · rw [hcuts, freeLabels_succ]
      exact List.perm_middle.symm
    · rw [hcuts, ← freeNumber_succ]
      rfl

end Cut

/-! ## The blocks of a procedure -/

namespace Procedure

variable {p : Procedure}

/-- The labels that the jumps of the body lead to. -/
def targets (p : Procedure) : List Label := p.body.filterMap Instr.target?

/-- The labels that the phis of the body have sources for. -/
def sourceLabels (p : Procedure) : List Label := (p.body.filterMap Instr.sources?).flatMap PhiSources.labels

/-- The labels that the blocks without one are given. -/
def cutLabels (p : Procedure) : List Label := freeLabels p.labels 0 (unlabelled p.body)

/-- The label of the first block of the body. -/
def firstLabel (p : Procedure) : Label := (p.body.head?.bind Instr.label?).getD (freeLabel p.labels 0 0)

/-- The label of the entry that is put in front of the first block if a jump leads there. -/
def entryLabel? (p : Procedure) : Option Label :=
  if p.firstLabel ∈ p.targets then some (freeLabel p.labels 0 (unlabelled p.body)) else none

/-- The blocks that a body is cut into. -/
structure CutInto (p : Procedure) (first : Block) (more : List Block) : Prop where
  label : first.label = p.firstLabel
  labels : ((first :: more).map Block.label).Perm (p.labels ++ p.cutLabels)
  wired : ∀ d ∈ first :: more, Cut.Wired (fun t => t ∈ p.targets ∨ t ∈ more.map Block.label) d
  body : ∀ d ∈ first :: more, d.body ⊆ p.body
  kept : ∀ i ∈ p.body, i.label? = none → ∃ d ∈ first :: more, i ∈ d.instrs
  blocks : p.blocks = if first.label ∈ (first :: more).flatMap Block.targets then
    ⟨freeLabel p.labels 0 (unlabelled p.body), [], [.jump first.label]⟩ :: first :: more else first :: more

theorem exists_cutInto (p : Procedure) : ∃ first more, p.CutInto first more := by
  -- The body is read from its first label on, or from one that is made up for its first block.
  obtain ⟨l, rest, n, hbody, hl, hread, hlabels, hnext⟩ := Cut.exists_perm_start p.labels p.body
  obtain ⟨first, more, hdone, hfirst⟩ := Cut.exists_finished_append p.labels rest [] ⟨l, [], []⟩ n
  have hends := Cut.endsIn_label l
  have hdone : (Cut.read p.labels rest ⟨[], some ⟨l, [], []⟩, n⟩).done = first :: more := hdone
  have hrest : rest ⊆ p.body := by
    rcases hbody with h | h
    · exact fun i hi => h ▸ hi
    · exact fun i hi => h ▸ List.mem_cons_of_mem _ hi
  have hperm := hdone ▸ Cut.labels_read hends
  have hmore : (more.map Block.label).Perm
      (rest.filterMap Instr.label? ++ freeLabels p.labels n (cuts (.label l) rest)) := by
    rw [List.map_cons, hfirst] at hperm
    exact hperm.cons_inv
  refine ⟨first, more, hfirst.trans hl, hperm.trans hlabels, ?_, ?_, ?_, ?_⟩
  · refine hdone ▸ Cut.wired_read hends (fun i hi t ht => ?_) (fun t ht => ?_) (Cut.wired_nil _ l) (by simp)
    · refine ht.imp (fun ht => List.mem_filterMap.2 ⟨i, hrest hi, ht⟩) fun ht => hmore.mem_iff.2 ?_
      exact List.mem_append_left _ (List.mem_filterMap.2 ⟨i, hi, ht⟩)
    · exact .inr (hmore.mem_iff.2 (List.mem_append_right _ ht))
  · intro d hd i hi
    exact ((Cut.shape_finished (Cut.growing_nil p.body l) hrest (by simp) d (hdone ▸ hd)).2 i hi).1
  · intro i hi hl
    refine hdone ▸ Cut.exists_finished_of_mem_rest p.labels n ?_ hl
    rcases hbody with h | h <;> rw [h] at hi
    · exact hi
    · refine (List.mem_cons.1 hi).resolve_left ?_
      rintro rfl
      cases hl
  · have hblocks : p.blocks = (Cut.read p.labels p.body ⟨[], none, 0⟩).guardEntry p.labels := rfl
    rw [hblocks, hread, Cut.guardEntry, hdone]
    simp only [List.contains_iff_mem, Cut.next_read hends, hnext]
    rfl

variable {first : Block} {more : List Block}

namespace CutInto

theorem mem_labels_iff (h : p.CutInto first more) {l : Label} :
    l ∈ (first :: more).map Block.label ↔ l ∈ p.labels ∨ l ∈ p.cutLabels := by
  rw [h.labels.mem_iff, List.mem_append]

/-- Blocks have labels of their own if those of the body differ. -/
theorem nodup_iff (h : p.CutInto first more) : ((first :: more).map Block.label).Nodup ↔ p.labels.Nodup := by
  rw [h.labels.nodup_iff, List.nodup_append']
  exact ⟨And.left, fun hp => ⟨hp, nodup_freeLabels _ _ _, disjoint_freeLabels _ _ _⟩⟩

/-- What is no label of the body stands in a block, jumps behind the rest. -/
theorem mem_instrs (h : p.CutInto first more) {i : Instr} (hi : i ∈ p.body) (hl : i.label? = none) :
    ∃ d ∈ first :: more, if i.isTerminator then i ∈ d.jumps else i ∈ d.body := by
  obtain ⟨d, hd, hid⟩ := h.kept i hi hl
  refine ⟨d, hd, ?_⟩
  have hwired := h.wired d hd
  split <;> rename_i ht <;> rcases List.mem_append.1 hid with hid | hid
  · rw [hwired.body i hid] at ht
    cases ht
  · exact hid
  · exact hid
  · exact absurd (hwired.jumps i hid) ht

theorem exists_target (h : p.CutInto first more) {t : Label} (ht : t ∈ p.targets) :
    ∃ d ∈ first :: more, t ∈ d.targets := by
  obtain ⟨i, hi, hit⟩ := List.mem_filterMap.1 ht
  have hterm := Instr.isTerminator_of_target? hit
  obtain ⟨d, hd, hid⟩ := h.mem_instrs hi (Instr.label?_of_isTerminator hterm)
  rw [if_pos hterm] at hid
  exact ⟨d, hd, List.mem_filterMap.2 ⟨i, hid, hit⟩⟩

/-- The phis of the blocks are those of the body. -/
theorem mem_sourceLabels_iff (h : p.CutInto first more) {l : Label} :
    l ∈ p.sourceLabels ↔ ∃ d ∈ first :: more, l ∈ Cfg.sourceLabels d := by
  simp only [sourceLabels, List.mem_flatMap, List.mem_filterMap, Cfg.sourceLabels]
  constructor
  · rintro ⟨sources, ⟨i, hi, his⟩, hl⟩
    obtain ⟨dest, rfl⟩ := Instr.exists_phi_of_sources? his
    obtain ⟨d, hd, hid⟩ := h.mem_instrs hi rfl
    rw [if_neg (by simp [Instr.isTerminator])] at hid
    exact ⟨d, hd, sources, ⟨_, hid, his⟩, hl⟩
  · rintro ⟨d, hd, sources, ⟨i, hi, his⟩, hl⟩
    exact ⟨sources, ⟨i, h.body d hd hi, his⟩, hl⟩

/-- The first block is the target of a jump only if the body has that jump: made-up jumps lead to later blocks. -/
theorem mem_targets_iff (h : p.CutInto first more) (hp : p.labels.Nodup) :
    first.label ∈ (first :: more).flatMap Block.targets ↔ p.firstLabel ∈ p.targets := by
  rw [← h.label, List.mem_flatMap]
  refine ⟨fun ⟨d, hd, ht⟩ => ((h.wired d hd).target _ ht).resolve_right ?_, fun ht => h.exists_target ht⟩
  exact (List.nodup_cons.1 (h.nodup_iff.2 hp)).1

theorem blocks_eq (h : p.CutInto first more) (hp : p.labels.Nodup) :
    p.blocks = p.entryLabel?.toList.map (fun k => ⟨k, [], [.jump first.label]⟩) ++ first :: more := by
  rw [h.blocks, entryLabel?]
  simp only [h.mem_targets_iff hp]
  split <;> rfl

theorem labels_eq (h : p.CutInto first more) (hp : p.labels.Nodup) :
    p.blocks.map Block.label = p.entryLabel?.toList ++ (first :: more).map Block.label := by
  rw [h.blocks_eq hp, List.map_append, List.map_map]
  exact congrArg (· ++ _) (List.map_id _)

-- Two blocks of `tangled` have no label of their own, and a jump leads to the first block.
example : tangled.cutLabels = [⟨"%.L0"⟩, ⟨"%.L1"⟩] ∧ tangled.entryLabel? = some ⟨"%.L2"⟩ := by decide

/-- The label of a new entry is that of no other block. -/
theorem entryLabel_notMem (h : p.CutInto first more) {k : Label} (hk : p.entryLabel? = some k) :
    k ∉ (first :: more).map Block.label := by
  obtain rfl : freeLabel p.labels 0 (unlabelled p.body) = k := by
    unfold entryLabel? at hk
    split at hk
    · exact Option.some.inj hk
    · cases hk
  rw [h.mem_labels_iff, not_or]
  exact ⟨freeLabel_notMem _ _ _, freeLabel_notMem_freeLabels _ _ _⟩

end CutInto

/-- Every block is one that the body is cut into, or it leads to the first of them. -/
theorem CutInto.mem_blocks (h : p.CutInto first more) (hp : p.labels.Nodup) {d : Block} (hd : d ∈ p.blocks) :
    d ∈ first :: more ∨ d.body = [] ∧ d.jumps = [.jump first.label] := by
  rw [h.blocks_eq hp] at hd
  refine (List.mem_append.1 hd).symm.imp_right fun hd => ?_
  obtain ⟨k, -, rfl⟩ := List.mem_map.1 hd
  exact ⟨rfl, rfl⟩

/-- All jumps lead to blocks of the body if those do that the body has. -/
theorem CutInto.target_mem (h : p.CutInto first more) (hp : p.labels.Nodup)
    (htargets : ∀ t ∈ p.targets, t ∈ p.labels ∨ t ∈ p.cutLabels) {d : Block} (hd : d ∈ p.blocks) {t : Label}
    (ht : t ∈ d.targets) : t ∈ (first :: more).map Block.label := by
  rcases h.mem_blocks hp hd with hd | ⟨-, hd⟩
  · rcases (h.wired d hd).target t ht with ht | ht
    · exact h.mem_labels_iff.2 (htargets t ht)
    · exact .tail _ ht
  · obtain rfl : t = first.label := by simpa [Block.targets, hd, Instr.target?] using ht
    exact List.mem_cons_self

/-! ## Which procedures have a graph -/

/-- In a procedure that has a graph labels differ, and those that are named are there. -/
theorem CutInto.named (h : p.CutInto first more) {c : Cfg} (hc : p.cfg = .ok c) : p.labels.Nodup ∧
    (∀ t ∈ p.targets, t ∈ p.labels ∨ t ∈ p.cutLabels) ∧
    ∀ l ∈ p.sourceLabels, (l ∈ p.labels ∨ l ∈ p.cutLabels) ∨ p.entryLabel? = some l := by
  obtain ⟨-, hblocks, hvalid⟩ := Cfg.ofBlocks_eq_ok.1 hc
  have hsub : (first :: more).Sublist c.blocks := by
    rw [hblocks, h.blocks]
    split
    · exact List.sublist_cons_self _ _
    · exact .refl _
  have hp : p.labels.Nodup := h.nodup_iff.1 (hvalid.nodup.sublist (hsub.map Block.label))
  have hlabels : c.labels = p.entryLabel?.toList ++ (first :: more).map Block.label := by
    rw [← h.labels_eq hp, ← hblocks]
    rfl
  have hentry : ∀ k, p.entryLabel? = some k → k = c.entry := by
    intro k hk
    have := hvalid.first
    rw [hlabels, hk] at this
    exact Option.some.inj this
  refine ⟨hp, fun t ht => h.mem_labels_iff.1 ?_, fun l hl => ?_⟩
  · obtain ⟨d, hd, htd⟩ := h.exists_target ht
    have hmem := hvalid.target d (hsub.subset hd) t htd
    rw [hlabels] at hmem
    -- No jump leads to the entry of a valid graph, so that a new entry is not what the target names.
    refine (List.mem_append.1 hmem).resolve_left fun hk => ?_
    exact hvalid.entry_notMem d (hsub.subset hd) (hentry t (Option.mem_toList.1 hk) ▸ htd)
  · obtain ⟨d, hd, hld⟩ := h.mem_sourceLabels_iff.1 hl
    have hmem := hvalid.source d (hsub.subset hd) l hld
    rw [hlabels] at hmem
    exact (List.mem_append.1 hmem).symm.imp h.mem_labels_iff.1 Option.mem_toList.1

/-- The blocks of a procedure are a valid graph if its labels differ and those that are named are there. -/
theorem CutInto.valid (h : p.CutInto first more) (hp : p.labels.Nodup)
    (htargets : ∀ t ∈ p.targets, t ∈ p.labels ∨ t ∈ p.cutLabels)
    (hsources : ∀ l ∈ p.sourceLabels, (l ∈ p.labels ∨ l ∈ p.cutLabels) ∨ p.entryLabel? = some l) :
    Cfg.Valid ⟨p.name, p.entryLabel?.getD first.label, p.blocks⟩ := by
  have hlabels := h.labels_eq hp
  constructor
  case first =>
    simp only [Cfg.labels, hlabels]
    cases p.entryLabel? <;> rfl
  case nodup =>
    simp only [Cfg.labels, hlabels]
    cases hk : p.entryLabel? with
    | none => exact h.nodup_iff.2 hp
    | some k => exact List.nodup_cons.2 ⟨h.entryLabel_notMem hk, h.nodup_iff.2 hp⟩
  case target =>
    intro d hd t ht
    simp only [Cfg.labels, hlabels]
    exact List.mem_append_right _ (h.target_mem hp htargets hd ht)
  case entry_notMem =>
    intro d hd ht
    have hmem := h.target_mem hp htargets hd ht
    cases hk : p.entryLabel? with
    | none =>
      -- There is no new entry because no jump leads to the first block.
      rw [hk] at ht
      have hblocks : p.blocks = first :: more := by simpa [hk] using h.blocks_eq hp
      have hfirst := (h.mem_targets_iff hp).1 (List.mem_flatMap.2 ⟨d, hblocks ▸ hd, ht⟩)
      simp [entryLabel?, hfirst] at hk
    | some k =>
      rw [hk] at hmem
      exact h.entryLabel_notMem hk hmem
  case source =>
    intro d hd l hl
    simp only [Cfg.labels, hlabels]
    rcases h.mem_blocks hp hd with hd | ⟨hbody, -⟩
    · rcases hsources l (h.mem_sourceLabels_iff.2 ⟨d, hd, hl⟩) with hl | hl
      · exact List.mem_append_right _ (h.mem_labels_iff.2 hl)
      · exact List.mem_append_left _ (Option.mem_toList.2 hl)
    · simp [Cfg.sourceLabels, hbody] at hl
  case body =>
    intro d hd i hi
    rcases h.mem_blocks hp hd with hd | ⟨hbody, -⟩
    · exact (h.wired d hd).body i hi
    · simp [hbody] at hi

/-- A procedure has a graph if its labels differ, its jumps lead to labels that it defines or that are made up for
a block without one, and so do its phis, for which also the label of a new entry will do. -/
theorem isOk_cfg (p : Procedure) : (∃ c, p.cfg = .ok c) ↔ p.labels.Nodup ∧
    (∀ t ∈ p.targets, t ∈ p.labels ∨ t ∈ p.cutLabels) ∧
    ∀ l ∈ p.sourceLabels, (l ∈ p.labels ∨ l ∈ p.cutLabels) ∨ p.entryLabel? = some l := by
  obtain ⟨first, more, h⟩ := p.exists_cutInto
  constructor
  · rintro ⟨c, hc⟩
    exact h.named hc
  · rintro ⟨hp, htargets, hsources⟩
    exact ⟨_, Cfg.ofBlocks_eq_ok.2 ⟨rfl, rfl, h.valid hp htargets hsources⟩⟩

theorem error_cfg_iff (p : Procedure) : (∃ e, p.cfg = .error e) ↔ ¬ ∃ c, p.cfg = .ok c := by
  cases p.cfg <;> simp

/-- A procedure is refused if a label is defined twice, or if one that is named is neither defined nor made up for
the graph. A jump to the label of a new entry is refused, but a phi may have a source for it. -/
theorem refused_cfg (p : Procedure) : (∃ e, p.cfg = .error e) ↔ ¬ p.labels.Nodup ∨
    (∃ t ∈ p.targets, t ∉ p.labels ∧ t ∉ p.cutLabels) ∨
    ∃ l ∈ p.sourceLabels, l ∉ p.labels ∧ l ∉ p.cutLabels ∧ p.entryLabel? ≠ some l := by
  rw [p.error_cfg_iff, p.isOk_cfg]
  simp only [not_and_or, not_forall, not_or, exists_prop, and_assoc, ne_eq]

/-- If no label is spelled like those that are made up, or it is defined, then exactly those procedures are refused
that define a label twice or name one without defining it. -/
theorem refused_cfg_of_defined
    (h : ∀ n, numberedLabel n ∈ p.targets ++ p.sourceLabels → numberedLabel n ∈ p.labels) :
    (∃ e, p.cfg = .error e) ↔ ¬ p.labels.Nodup ∨ ∃ l ∈ p.targets ++ p.sourceLabels, l ∉ p.labels := by
  have hcut : ∀ l ∈ p.targets ++ p.sourceLabels, l ∉ p.labels → l ∉ p.cutLabels := by
    intro l hl hdef hcut
    obtain ⟨k, -, rfl⟩ := List.mem_map.1 hcut
    exact hdef (h _ hl)
  have hentry : ∀ l ∈ p.targets ++ p.sourceLabels, l ∉ p.labels → p.entryLabel? ≠ some l := by
    intro l hl hdef hentry
    unfold entryLabel? at hentry
    split at hentry <;> cases hentry
    exact hdef (h _ hl)
  rw [p.error_cfg_iff, p.isOk_cfg]
  constructor
  · intro hok
    by_contra hgood
    simp only [not_or, not_not, not_exists, not_and] at hgood
    refine hok ⟨hgood.1, fun t ht => .inl (hgood.2 t (List.mem_append_left _ ht)), fun l hl => ?_⟩
    exact .inl (.inl (hgood.2 l (List.mem_append_right _ hl)))
  · rintro (hdup | ⟨l, hl, hdef⟩) ⟨hp, htargets, hsources⟩
    · exact hdup hp
    · rcases List.mem_append.1 hl with ht | hs
      · exact (htargets l ht).elim hdef (hcut l hl hdef)
      · exact (hsources l hs).elim (·.elim hdef (hcut l hl hdef)) (hentry l hl hdef)

/-- A jump to a label that the body does not define and that its first block is given. -/
def astray : Procedure := ⟨"@f", [], [.jump ⟨"%.L0"⟩]⟩

theorem not_refused_astray : ¬ ((∃ e, astray.cfg = .error e) ↔ ¬ astray.labels.Nodup ∨
    ∃ l ∈ astray.targets ++ astray.sourceLabels, l ∉ astray.labels) := by
  intro h
  have hbad : ∃ l ∈ astray.targets ++ astray.sourceLabels, l ∉ astray.labels := ⟨⟨"%.L0"⟩, by decide, by decide⟩
  obtain ⟨e, he⟩ := h.2 (.inr hbad)
  have hok : astray.cfg = .ok ⟨"@f", ⟨"%.L1"⟩,
      [⟨⟨"%.L1"⟩, [], [.jump ⟨"%.L0"⟩]⟩, ⟨⟨"%.L0"⟩, [], [.jump ⟨"%.L0"⟩]⟩]⟩ := rfl
  rw [hok] at he
  cases he

end Procedure

end ThreeAddress

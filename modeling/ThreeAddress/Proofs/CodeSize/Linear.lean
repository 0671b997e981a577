import Mathlib.Algebra.GroupWithZero.Nat
import Mathlib.Algebra.Order.BigOperators.Group.List
import Mathlib.Algebra.Order.Group.Nat
import ThreeAddress.Proofs.Linearize
import ThreeAddress.Proofs.MapBlocks
/-!
# The size of linear code

The linear code of a graph has the instructions of the bodies and, of the jumps of each block, those that are written
(`countP_linearize`). Which are written depends on the block that comes next. So where blocks are deleted, a jump that
was left out might have to be written: it has not, if the blocks that are still jumped to stay (`exits_le`).
`Cfg.Shrinks` puts the two parts together for a change of a graph.
-/

namespace ThreeAddress

/-! ## Instructions that count -/

namespace Instr

/-- Labels are not counted as code. -/
def isCode (i : Instr) : Bool := i.label?.isNone

/-- Code other than phis. -/
def isWork (i : Instr) : Bool := i.isCode && !i.isPhi

/-- A property of instructions that sees whether one is a phi and which label it is. -/
def Coarse (P : Instr → Bool) : Prop := ∀ {i j : Instr}, j.isPhi = i.isPhi → j.label? = i.label? → P j = P i

theorem coarse_isWork : Coarse isWork := by
  intro i j hphi hlabel
  rw [isWork, isWork, isCode, isCode, hphi, hlabel]

theorem coarse_isPhi : Coarse isPhi := fun hphi _ => hphi

theorem isWork_of_isPhi {i : Instr} (h : i.isPhi = true) : i.isWork = false := by
  rw [isWork, h]
  exact Bool.and_false _

theorem isWork_of_isTerminator {i : Instr} (h : i.isTerminator = true) : i.isWork = true := by
  cases i <;> first | rfl | cases h

end Instr

namespace Procedure

/-- The number of instructions other than labels. -/
def size (p : Procedure) : Nat := p.body.countP Instr.isCode

/-- The number of instructions other than labels and phis. -/
def work (p : Procedure) : Nat := p.body.countP Instr.isWork

/-- Code is work or a phi. -/
theorem size_eq (p : Procedure) : p.size = p.work + p.body.countP Instr.isPhi := by
  unfold size work
  induction p.body with
  | nil => rfl
  | cons i is ih =>
    rw [List.countP_cons, List.countP_cons, List.countP_cons, ih]
    have hcode : (if i.isCode = true then 1 else 0) =
        (if i.isWork = true then 1 else 0) + if i.isPhi = true then 1 else 0 := by
      cases i <;> rfl
    omega

end Procedure

/-! ## Jumps that are written -/

namespace Block

variable (b : Block)

/-- A last jump to the next block is left out, and all else is written. -/
theorem jumpsBefore_cases (next? : Option Block) : b.jumpsBefore next? = b.jumps ∨
    ∃ next, next? = some next ∧ b.jumps.getLast? = some (.jump next.label) ∧
      b.jumpsBefore next? = b.jumps.dropLast := by
  unfold jumpsBefore
  split
  · rename_i target next hlast
    split
    · rename_i htarget
      exact .inr ⟨next, rfl, htarget ▸ hlast, rfl⟩
    · exact .inl rfl
  · exact .inl rfl

theorem jumpsBefore_of_getLast? {b next : Block} (h : b.jumps.getLast? = some (.jump next.label)) :
    b.jumpsBefore (some next) = b.jumps.dropLast := by
  simp [jumpsBefore, h]

theorem length_jumpsBefore_le (next? : Option Block) : (b.jumpsBefore next?).length ≤ b.jumps.length := by
  rcases b.jumpsBefore_cases next? with h | ⟨next, -, -, h⟩ <;> rw [h]
  simp

theorem length_jumps_le (next? : Option Block) : b.jumps.length ≤ (b.jumpsBefore next?).length + 1 := by
  rcases b.jumpsBefore_cases next? with h | ⟨next, -, -, h⟩ <;> rw [h]
  · omega
  · rw [List.length_dropLast]
    omega

end Block

/-- The number of jumps that are written for blocks in order. -/
def exits : List Block → Nat
  | [] => 0
  | b :: bs => (b.jumpsBefore bs.head?).length + exits bs

/-- Linear code has what the bodies have, and the jumps that are written. -/
theorem countP_linearize {P : Instr → Bool} (hlabel : ∀ l, P (.label l) = false) {k : Bool} {bs : List Block}
    (hjumps : ∀ b ∈ bs, ∀ j ∈ b.jumps, P j = k) :
    (linearize bs).countP P = (bs.flatMap Block.body).countP P + if k then exits bs else 0 := by
  induction bs with
  | nil => cases k <;> rfl
  | cons b bs ih =>
    have hsub : b.jumpsBefore bs.head? ⊆ b.jumps := by
      rcases b.jumpsBefore_cases bs.head? with h | ⟨next, -, -, h⟩ <;> rw [h]
      · exact List.Subset.refl _
      · exact List.dropLast_subset _
    have hhead : (b.jumpsBefore bs.head?).countP P = if k then (b.jumpsBefore bs.head?).length else 0 := by
      have hall : ∀ j ∈ b.jumpsBefore bs.head?, P j = k := fun j hj => hjumps b List.mem_cons_self j (hsub hj)
      cases k with
      | true => exact List.countP_eq_length.2 hall
      | false => exact List.countP_eq_zero.2 fun j hj => by simp [hall j hj]
    have htail := ih fun d hd => hjumps d (.tail _ hd)
    rw [linearize_cons, List.countP_cons, hlabel, List.countP_append, List.countP_append, hhead, htail,
      List.flatMap_cons, List.countP_append, exits]
    cases k <;> simp only [Bool.false_eq_true, if_false, if_true] <;> omega

/-! ## Fewer jumps -/

/-- There are fewer jumps, or as many and a last jump stays. -/
def Fewer (js' js : List Instr) : Prop :=
  js'.length < js.length ∨
    js'.length ≤ js.length ∧ ∀ t, js.getLast? = some (.jump t) → js'.getLast? = some (.jump t)

theorem Fewer.length_le {js' js : List Instr} (h : Fewer js' js) : js'.length ≤ js.length :=
  h.elim Nat.le_of_lt And.left

theorem Fewer.refl (js : List Instr) : Fewer js js := .inr ⟨le_rfl, fun _ h => h⟩

/-- Where each jump is changed on its own and its target stays, there are as many. -/
theorem Fewer.map {f : Instr → Instr} (hf : ∀ t, f (.jump t) = .jump t) (js : List Instr) : Fewer (js.map f) js := by
  refine .inr ⟨(List.length_map f).le, fun t ht => ?_⟩
  rw [List.getLast?_map, ht, Option.map_some, hf]

theorem Fewer.trans {js₁ js₂ js₃ : List Instr} (h : Fewer js₁ js₂) (h' : Fewer js₂ js₃) : Fewer js₁ js₃ := by
  rcases h' with hlt | ⟨hle, hlast⟩
  · exact .inl (h.length_le.trans_lt hlt)
  · rcases h with hlt | ⟨hle', hlast'⟩
    · exact .inl (hlt.trans_le hle)
    · exact .inr ⟨hle'.trans hle, fun t ht => hlast' t (hlast t ht)⟩

/-- Another jump in front of both. -/
theorem Fewer.cons {js' js : List Instr} (h : Fewer js' js) (hne' : js' ≠ []) (hne : js ≠ []) (j : Instr) :
    Fewer (j :: js') (j :: js) := by
  rcases h with hlt | ⟨hle, hlast⟩
  · exact .inl (Nat.succ_lt_succ hlt)
  · obtain ⟨a, as, rfl⟩ := List.exists_cons_of_ne_nil hne'
    obtain ⟨b, bs, rfl⟩ := List.exists_cons_of_ne_nil hne
    exact .inr ⟨Nat.succ_le_succ hle, by simpa only [List.getLast?_cons_cons] using hlast⟩

/-- Blocks with fewer jumps have no more to write, if those stay that they jump to. -/
theorem exits_le {keep : Block → Bool} {g : Block → Block} (hlabel : ∀ b, (g b).label = b.label) {bs : List Block}
    (htargets : ∀ b ∈ bs, keep b = true → ∀ d ∈ bs, d.label ∈ (g b).targets → keep d = true)
    (hjumps : ∀ b ∈ bs, keep b = true → Fewer (g b).jumps b.jumps) :
    exits ((bs.filter keep).map g) ≤ exits bs := by
  induction bs with
  | nil => exact le_rfl
  | cons b bs ih =>
    have hrest := ih (fun d hd hk e he => htargets d (.tail _ hd) hk e (.tail _ he)) fun d hd => hjumps d (.tail _ hd)
    cases hk : keep b with
    | false =>
      rw [List.filter_cons_of_neg (by simp [hk])]
      exact hrest.trans (Nat.le_add_left _ _)
    | true =>
      rw [List.filter_cons_of_pos hk, List.map_cons, exits, exits]
      refine Nat.add_le_add ?_ hrest
      have hle := (g b).length_jumpsBefore_le ((bs.filter keep).map g).head?
      rcases hjumps b List.mem_cons_self hk with hlt | ⟨hlength, hlast⟩
      · have := b.length_jumps_le bs.head?
        omega
      · rcases b.jumpsBefore_cases bs.head? with h | ⟨next, hnext, hjump, h⟩
        · rw [h]
          exact hle.trans hlength
        · -- the jump that was left out still leads to the next block, which stays
          obtain ⟨ds, rfl⟩ : ∃ ds, bs = next :: ds := by
            cases bs <;> simp_all
          have hjump' := hlast _ hjump
          have hkeep : keep next = true := by
            refine htargets b List.mem_cons_self hk next (.tail _ List.mem_cons_self) ?_
            exact List.mem_filterMap.2 ⟨_, List.mem_of_getLast? hjump', rfl⟩
          rw [List.filter_cons_of_pos hkeep, List.map_cons, List.head?_cons, h,
            Block.jumpsBefore_of_getLast? (by rw [hlabel, hjump']), List.length_dropLast, List.length_dropLast]
          omega

/-! ## Graphs -/

namespace Cfg

/-- The number of instructions in the bodies that have a property. -/
def count (P : Instr → Bool) (c : Cfg) : Nat := c.bodies.countP P

theorem count_eq_sum (P : Instr → Bool) (c : Cfg) : c.count P = (c.blocks.map fun b => b.body.countP P).sum :=
  List.countP_flatMap

/-- Where no block gets more instructions of a kind and some block gets less of them. -/
theorem count_mapBlocks_lt {P : Instr → Bool} {c : Cfg} {g : Block → Block}
    (hle : ∀ b ∈ c.blocks, (g b).body.countP P ≤ b.body.countP P)
    (hlt : ∃ b ∈ c.blocks, (g b).body.countP P < b.body.countP P) : (c.mapBlocks g).count P < c.count P := by
  rw [count_eq_sum, count_eq_sum, mapBlocks, List.map_map]
  exact List.sum_lt_sum _ _ hle hlt

/-- A graph has no more instructions of a kind in its bodies than another, and no more jumps are written for it. -/
structure Shrinks (P : Instr → Bool) (c c' : Cfg) : Prop where
  count_le : c'.count P ≤ c.count P
  exits_le : exits c'.blocks ≤ exits c.blocks

variable {P : Instr → Bool} {c c' c'' : Cfg}

namespace Shrinks

theorem refl (P : Instr → Bool) (c : Cfg) : c.Shrinks P c := ⟨le_rfl, le_rfl⟩

theorem trans (h : c.Shrinks P c') (h' : c'.Shrinks P c'') : c.Shrinks P c'' :=
  ⟨h'.count_le.trans h.count_le, h'.exits_le.trans h.exits_le⟩

theorem of_blocks {keep : Block → Bool} {g : Block → Block} (hlabel : ∀ b, (g b).label = b.label)
    (hblocks : c'.blocks = (c.blocks.filter keep).map g)
    (htargets : ∀ b ∈ c.blocks, keep b = true → ∀ d ∈ c.blocks, d.label ∈ (g b).targets → keep d = true)
    (hjumps : ∀ b ∈ c.blocks, keep b = true → Fewer (g b).jumps b.jumps)
    (hbody : ∀ b ∈ c.blocks, (g b).body.countP P ≤ b.body.countP P) : c.Shrinks P c' where
  count_le := by
    rw [count_eq_sum, count_eq_sum, hblocks, List.map_map]
    refine (List.sum_le_sum fun b hb => hbody b (List.mem_filter.1 hb).1).trans ?_
    exact (List.filter_sublist.map _).sum_le_sum fun _ _ => Nat.zero_le _
  exits_le := by
    rw [hblocks]
    exact ThreeAddress.exits_le hlabel htargets hjumps

/-- Where each block is changed on its own. -/
theorem mapBlocks {g : Block → Block} (hlabel : ∀ b, (g b).label = b.label)
    (hjumps : ∀ b ∈ c.blocks, Fewer (g b).jumps b.jumps)
    (hbody : ∀ b ∈ c.blocks, (g b).body.countP P ≤ b.body.countP P) : c.Shrinks P (c.mapBlocks g) := by
  have hblocks : (c.mapBlocks g).blocks = (c.blocks.filter fun _ => true).map g := by
    rw [List.filter_true]
    rfl
  exact of_blocks hlabel hblocks (fun _ _ _ _ _ _ => rfl) (fun b hb _ => hjumps b hb) hbody

end Shrinks

/-- What the linear code of a graph has. -/
theorem countP_linear (hlabel : ∀ l, P (.label l) = false) {k : Bool}
    (hjumps : ∀ b ∈ c.blocks, ∀ j ∈ b.jumps, P j = k) :
    c.linear.countP P = c.count P + if k then exits c.blocks else 0 :=
  countP_linearize hlabel hjumps

end Cfg

namespace Procedure

variable {c : Cfg} (p : Procedure)

theorem work_withCode (h : c.Closed) : (p.withCode c).work = c.count Instr.isWork + exits c.blocks :=
  Cfg.countP_linear (fun _ => rfl) fun b hb _ hj =>
    Instr.isWork_of_isTerminator ((h.endsOnce b hb).isTerminator_of_mem hj)

theorem countP_isPhi_withCode (h : c.Closed) : (p.withCode c).body.countP Instr.isPhi = c.count Instr.isPhi :=
  Cfg.countP_linear (fun _ => rfl) fun b hb _ hj =>
    Instr.isPhi_of_isTerminator ((h.endsOnce b hb).isTerminator_of_mem hj)

end Procedure

end ThreeAddress

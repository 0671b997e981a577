import Mathlib.Data.List.Nodup
import ThreeAddress.Cfg.Linear
import ThreeAddress.Proofs.Layout
import ThreeAddress.Proofs.Validity
/-!
# The linear code of a graph

Linear code runs as the graph that it is written from (`Cfg.linearRun_iff`): the code of each block
fits it, whether its last jump is written or falls through to the next block.
-/

namespace ThreeAddress

/-- A valid graph whose blocks end once and hold no labels: what linear code is written from. -/
structure Cfg.Closed (c : Cfg) : Prop extends c.Valid where
  endsOnce : ∀ b ∈ c.blocks, b.EndsOnce
  unlabelled : ∀ b ∈ c.blocks, b.Unlabelled

theorem Cfg.Closed.isPhi_of_mem_jumps {c : Cfg} (h : c.Closed) {b : Block} (hb : b ∈ c.blocks) {j : Instr}
    (hj : j ∈ b.jumps) : j.isPhi = false :=
  Instr.isPhi_of_isTerminator ((h.endsOnce b hb).isTerminator_of_mem hj)

/-! ## Finding labels -/

/-- A label in what follows is found there. -/
theorem from?_append {t : Label} {is js : List Instr} (h : ∀ i ∈ is, i.label? ≠ some t) :
    from? t (is ++ js) = from? t js := by
  induction is with
  | nil => rfl
  | cons i is ih =>
    rw [List.cons_append, from?, ih fun j hj => h j (.tail _ hj), if_neg (h i List.mem_cons_self)]
    cases from? t js <;> rfl

theorem label?_jumpsBefore {b : Block} (hb : b.EndsOnce) (next? : Option Block) :
    ∀ j ∈ b.jumpsBefore next?, j.label? = none := by
  have hall : ∀ j ∈ b.jumps, j.label? = none := fun j hmem =>
    Instr.label?_of_isTerminator (hb.isTerminator_of_mem hmem)
  intro j hmem
  unfold Block.jumpsBefore at hmem
  split at hmem
  · split at hmem
    · exact hall j (List.dropLast_subset _ hmem)
    · exact hall j hmem
  · exact hall j hmem

/-- The code of a block holds no label but its own. -/
theorem label?_blockCode {b : Block} (he : b.EndsOnce) (hu : b.Unlabelled) (next? : Option Block) :
    ∀ i ∈ b.body ++ b.jumpsBefore next?, i.label? = none := by
  intro i hi
  rcases List.mem_append.1 hi with hi | hi
  · exact hu i hi
  · exact label?_jumpsBefore he next? i hi

theorem linearize_cons (b : Block) (bs : List Block) :
    linearize (b :: bs) = .label b.label :: ((b.body ++ b.jumpsBefore bs.head?) ++ linearize bs) := by
  simp [linearize]

/-- A label is found where its block begins. -/
theorem from?_linearize {bs : List Block} (he : ∀ b ∈ bs, b.EndsOnce) (hu : ∀ b ∈ bs, b.Unlabelled)
    {t : Label} {rest : List Instr} (h : from? t (linearize bs) = some rest) :
    ∃ pre b post, bs = pre ++ b :: post ∧ b.label = t ∧ rest = linearize (b :: post) := by
  induction bs with
  | nil => simp [linearize, from?] at h
  | cons b bs ih =>
    have hcode := label?_blockCode (he b List.mem_cons_self) (hu b List.mem_cons_self) bs.head?
    rw [linearize_cons, from?, from?_append fun i hi => by simp [hcode i hi]] at h
    split at h
    · rename_i later hlater
      cases h
      obtain ⟨pre, b', post, rfl, hl, hrest⟩ := ih (fun d hd => he d (.tail _ hd))
        (fun d hd => hu d (.tail _ hd)) hlater
      exact ⟨b :: pre, b', post, rfl, hl, hrest⟩
    · split at h
      · rename_i hl
        cases h
        exact ⟨[], b, bs, rfl, by simpa [Instr.label?] using hl, (linearize_cons b bs).symm⟩
      · simp at h

/-- Every block is found by its label. -/
theorem exists_from?_linearize {bs : List Block} (he : ∀ b ∈ bs, b.EndsOnce)
    (hu : ∀ b ∈ bs, b.Unlabelled) {b : Block} (hb : b ∈ bs) :
    ∃ rest, from? b.label (linearize bs) = some rest := by
  induction bs with
  | nil => simp at hb
  | cons d bs ih =>
    have hcode := label?_blockCode (he d List.mem_cons_self) (hu d List.mem_cons_self) bs.head?
    rw [linearize_cons, from?, from?_append fun i hi => by simp [hcode i hi]]
    cases h : from? b.label (linearize bs) with
    | some later => exact ⟨later, rfl⟩
    | none =>
      rcases List.mem_cons.1 hb with rfl | hb
      · exact ⟨_, by simp only [Instr.label?, if_true]; rfl⟩
      · obtain ⟨rest, hrest⟩ := ih (fun d hd => he d (.tail _ hd)) (fun d hd => hu d (.tail _ hd)) hb
        simp [hrest] at h

/-- Where the labels differ, a label is found at its block. -/
theorem from?_linearize_of_nodup {bs : List Block} (he : ∀ b ∈ bs, b.EndsOnce) (hu : ∀ b ∈ bs, b.Unlabelled)
    (hn : (bs.map Block.label).Nodup) {pre post : List Block} {b : Block} (h : bs = pre ++ b :: post) :
    from? b.label (linearize bs) = some (linearize (b :: post)) := by
  obtain ⟨rest, hrest⟩ := exists_from?_linearize he hu (b := b) (by simp [h])
  obtain ⟨pre', b', post', h', hl, rfl⟩ := from?_linearize he hu hrest
  obtain rfl : b' = b := List.inj_on_of_nodup_map hn (by simp [h']) (by simp [h]) hl
  have hnodup : (pre' ++ b' :: post').Nodup := h' ▸ hn.of_map
  rw [List.nodup_append, List.nodup_cons] at hnodup
  obtain ⟨-, ⟨hpost, -⟩, hpre⟩ := hnodup
  have hsplit := (List.append_cons_inj_of_notMem (fun hb => hpre _ hb _ List.mem_cons_self rfl) hpost).1
    (h'.symm.trans h)
  rw [hrest, hsplit.2.2]

/-! ## The code of what is left of a block -/

/-- The code of what is left of a block, in front of further blocks. -/
def remains (l : Label) (is js : List Instr) (bs : List Block) : List Instr :=
  is ++ (Block.mk l is js).jumpsBefore bs.head? ++ linearize bs

theorem linearize_cons_eq (b : Block) (bs : List Block) :
    linearize (b :: bs) = .label b.label :: remains b.label b.body b.jumps bs := linearize_cons b bs

theorem remains_cons (l : Label) (i : Instr) (is js : List Instr) (bs : List Block) :
    remains l (i :: is) js bs = i :: remains l is js bs := rfl

theorem remains_append (l : Label) (is is' js : List Instr) (bs : List Block) :
    remains l (is ++ is') js bs = is ++ remains l is' js bs := by
  simp [remains, Block.jumpsBefore]

/-- Before the last jump. -/
theorem remains_nil_cons (l : Label) (j : Instr) {js : List Instr} (hjs : js ≠ []) (bs : List Block) :
    remains l [] (j :: js) bs = j :: remains l [] js bs := by
  obtain ⟨k, ks, rfl⟩ := List.exists_cons_of_ne_nil hjs
  simp only [remains, List.nil_append, Block.jumpsBefore, List.getLast?_cons_cons]
  split
  · split <;> simp
  · rfl

/-- The last jump is written, unless it falls through to the next block. -/
theorem remains_last (l : Label) (j : Instr) (bs : List Block) : remains l [] [j] bs =
    if bs.head?.any fun d => j = .jump d.label then linearize bs else j :: linearize bs := by
  cases bs with
  | nil =>
    cases j <;> rfl
  | cons d ds =>
    cases j with
    | jump t => by_cases h : t = d.label <;> simp [remains, Block.jumpsBefore, h]
    | _ => simp [remains, Block.jumpsBefore]

theorem remains_ne_nil (l : Label) (is : List Instr) {js : List Instr} (hjs : js ≠ []) (bs : List Block) :
    remains l is js bs ≠ [] := by
  cases is with
  | cons i is => exact List.cons_ne_nil _ _
  | nil =>
    obtain ⟨j, js, rfl⟩ := List.exists_cons_of_ne_nil hjs
    by_cases hjs : js = []
    · subst hjs
      rw [remains_last]
      cases bs with
      | nil => simp
      | cons d ds => rw [linearize_cons_eq]; split <;> simp
    · rw [remains_nil_cons l j hjs]
      exact List.cons_ne_nil _ _

/-- No phi is first in what is left of a block behind its phis. -/
theorem takeWhile_remains {l : Label} {is js : List Instr} (his : ∀ i ∈ is, i.isPhi = false)
    (hjs : ∀ j ∈ js, j.isPhi = false) (bs : List Block) : (remains l is js bs).takeWhile Instr.isPhi = [] := by
  cases is with
  | cons i is => simp [remains_cons, his i List.mem_cons_self]
  | nil =>
    have hsub : (Block.mk l [] js).jumpsBefore bs.head? ⊆ js := by
      unfold Block.jumpsBefore
      split
      · split
        · exact List.dropLast_subset js
        · exact List.Subset.refl js
      · exact List.Subset.refl js
    unfold remains
    cases hj : (Block.mk l [] js).jumpsBefore bs.head? with
    | cons j _ => simp [hjs j (hsub (hj ▸ List.mem_cons_self))]
    | nil =>
      cases bs with
      | nil => rfl
      | cons d ds => rw [linearize_cons_eq]; rfl

/-! ## Linear code fits -/

section

variable {c : Cfg}

theorem Fits.append {l : Label} {tail is js : List Instr} (ht : ∀ i ∈ is, i.isTerminator = false)
    (hu : ∀ i ∈ is, i.label? = none) (h : Fits c True l tail [] js) :
    Fits c True l (is ++ tail) is js := by
  induction is with
  | nil => exact h
  | cons i is ih =>
    exact .step (ht i List.mem_cons_self) (hu i List.mem_cons_self) (fun _ => trivial)
      (ih (fun j hj => ht j (.tail _ hj)) fun j hj => hu j (.tail _ hj))

theorem Fits.branches {l : Label} {tail branches js : List Instr}
    (hb : ∀ j ∈ branches, ∃ cond v t, j = .branch cond v t) (h : Fits c True l tail [] js) :
    Fits c True l (branches ++ tail) [] (branches ++ js) := by
  induction branches with
  | nil => exact h
  | cons j branches ih =>
    obtain ⟨cond, v, t, rfl⟩ := hb j List.mem_cons_self
    exact .branch (ih fun j hj => hb j (.tail _ hj))

/-- The jumps of a block fit, written out or fallen through. -/
theorem Fits.jumpsBefore {b : Block} (he : b.EndsOnce) {bs : List Block}
    (hnext : ∀ d ds, bs = d :: ds → c.block? d.label = some d ∧
      Fits c True d.label ((d.body ++ d.jumpsBefore ds.head?) ++ linearize ds) d.body d.jumps) :
    Fits c True b.label (b.jumpsBefore bs.head? ++ linearize bs) [] b.jumps := by
  obtain ⟨branches, last, hj, hbr, hlast⟩ := he
  have written : Fits c True b.label (b.jumps ++ linearize bs) [] b.jumps := by
    rw [hj, List.append_assoc]
    exact .branches hbr (.final hlast)
  unfold Block.jumpsBefore
  split
  · rename_i t d hlast' hd
    split
    · rename_i htd
      obtain ⟨ds, rfl⟩ : ∃ ds, bs = d :: ds := by
        cases bs with
        | nil => simp at hd
        | cons e ds => exact ⟨ds, by rw [Option.some.inj hd]⟩
      obtain rfl : last = .jump t := by simpa [hj] using hlast'
      obtain ⟨hd, hfit⟩ := hnext d ds rfl
      rw [hj, List.dropLast_concat, linearize_cons]
      subst htd
      exact .branches hbr (.fall hd hfit)
    · exact written
  · exact written

/-- The code of each block fits the block. -/
theorem Cfg.Closed.fits (h : c.Closed) (bs : List Block) : ∀ (pre : List Block) (b : Block),
    c.blocks = pre ++ b :: bs →
    Fits c True b.label ((b.body ++ b.jumpsBefore bs.head?) ++ linearize bs) b.body b.jumps := by
  induction bs with
  | nil =>
    intro pre b hbs
    have hb : b ∈ c.blocks := by simp [hbs]
    rw [List.append_assoc]
    exact .append (h.body b hb) (h.unlabelled b hb)
      (.jumpsBefore (h.endsOnce b hb) fun d ds hd => by simp at hd)
  | cons d ds ih =>
    intro pre b hbs
    have hb : b ∈ c.blocks := by simp [hbs]
    have hd : d ∈ c.blocks := by simp [hbs]
    rw [List.append_assoc]
    refine .append (h.body b hb) (h.unlabelled b hb)
      (.jumpsBefore (h.endsOnce b hb) fun e es he => ?_)
    cases he
    exact ⟨h.block?_of_mem hd, ih (pre ++ [b]) d (by simp [hbs])⟩

theorem Cfg.Closed.layout (h : c.Closed) : Layout c True c.linear := by
  intro t rest hrest
  obtain ⟨pre, b, post, hbs, rfl, rfl⟩ := from?_linearize h.endsOnce h.unlabelled hrest
  exact ⟨_, b, linearize_cons b post, h.block?_of_mem (by simp [hbs]), h.fits post pre b hbs⟩

/-- Linear code runs as the graph that it is written from. -/
theorem Cfg.Closed.linearRun_iff (h : c.Closed) {calls : Calls} {σ : Store} {f : Final} :
    LinearRun calls c.linear c.linear none none σ f ↔ c.Runs calls none c.entry σ f := by
  obtain ⟨b, bs, hbs, hl⟩ := h.exists_entry
  have hb : c.block? c.entry = some b := hl ▸ h.block?_of_mem (by simp [hbs])
  have hcode : c.linear = .label b.label :: ((b.body ++ b.jumpsBefore bs.head?) ++ linearize bs) := by
    rw [Cfg.linear, hbs, linearize_cons]
  have hfit := h.fits bs [] b (by simp [hbs])
  constructor
  · intro hrun
    conv at hrun => arg 3; rw [hcode]
    cases hrun with
    | label hrun => exact (Cfg.runs_iff_leaves hb).2 (hl ▸ hrun.leaves h.layout hfit fun _ => ⟨rfl, rfl⟩)
    | exec he => exact absurd he.plain.2.2 (by simp [Instr.label?])
    | phis hi => simp [Instr.isPhi] at hi
  · intro hrun
    rw [hl] at hfit
    have := hrun.linearRun h.layout (fun t b hb => ?_) hb hfit
    · conv => arg 3; rw [hcode]
      exact .label (hl ▸ this)
    · rw [← Cfg.label_of_block? hb]
      exact exists_from?_linearize h.endsOnce h.unlabelled (Cfg.mem_of_block? hb)

end

end ThreeAddress

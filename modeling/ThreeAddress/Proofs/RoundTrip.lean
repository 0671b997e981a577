import ThreeAddress.Proofs.Pipeline
/-!
# Cutting what has been written

The linear code of a closed graph is cut into the blocks it was written from. While the code of a block is
read, all of it has a place in the open block (`Cut.finished_remains`); a last jump that was left out comes back
as the jump to the label that follows (`Cut.finished_last`). No block is split, so that no label has to be made
up, and no entry is put in front, as nothing jumps to the entry (`Procedure.blocks_withCode`).
-/

namespace ThreeAddress

namespace Cut

variable {taken : List Label} {done : List Block} {b : Block} {n : Nat}

/-! ## Reading a block -/

/-- The body of a block is put into the open block. -/
theorem finished_body {l : Label} {body is : List Instr} (ht : ∀ i ∈ is, i.isTerminator = false)
    (hu : ∀ i ∈ is, i.label? = none) (rest : List Instr) :
    finished taken (is ++ rest) ⟨done, some ⟨l, body, []⟩, n⟩ =
      finished taken rest ⟨done, some ⟨l, body ++ is, []⟩, n⟩ := by
  induction is generalizing body with
  | nil => simp
  | cons i is ih =>
    have hi := ht i List.mem_cons_self
    have haccepts : accepts ⟨l, body, []⟩ i = true := by simp [accepts, hi]
    rw [List.cons_append, finished_accepts (hu i List.mem_cons_self) haccepts, Block.append_of_not_terminator hi,
      ih (fun j hj => ht j (.tail _ hj)) fun j hj => hu j (.tail _ hj), List.append_assoc]
    rfl

/-- So are its conditional jumps. -/
theorem finished_branches (hb : b.Open) {l : Label} {branches : List Instr}
    (hbranches : ∀ j ∈ branches, ∃ cond v t, j = .branch cond v t) (last : Instr) (bs : List Block) :
    finished taken (remains l [] (branches ++ [last]) bs) ⟨done, some b, n⟩ =
      finished taken (remains l [] [last] bs) ⟨done, some ⟨b.label, b.body, b.jumps ++ branches⟩, n⟩ := by
  induction branches generalizing b with
  | nil => simp
  | cons j branches ih =>
    obtain ⟨cond, v, t, rfl⟩ := hbranches j List.mem_cons_self
    have haccepts : accepts b (.branch cond v t) = true := by simp [accepts, Instr.isTerminator, hb.isClosed]
    have hopen : Block.Open ⟨b.label, b.body, b.jumps ++ [.branch cond v t]⟩ := hb.branch ⟨cond, v, t, rfl⟩
    rw [List.cons_append, remains_nil_cons l _ (by simp), finished_accepts rfl haccepts,
      Block.append_of_terminator rfl, ih hopen fun j hj => hbranches j (.tail _ hj), List.append_assoc]
    rfl

/-- The last jump is in the block again, whether it was written or left out. -/
theorem finished_last (hb : b.Open) {last : Instr} (hlast : last.isFinal = true) (l : Label) (bs : List Block) :
    finished taken (remains l [] [last] bs) ⟨done, some b, n⟩ =
      finished taken (linearize bs) ⟨done, some ⟨b.label, b.body, b.jumps ++ [last]⟩, n⟩ := by
  rw [remains_last]
  split
  · rename_i hnext
    obtain ⟨d, hd, hjump⟩ := (Option.any_eq_true _ _).1 hnext
    obtain ⟨ds, rfl⟩ : ∃ ds, bs = d :: ds := by
      cases bs with
      | nil => cases hd
      | cons _ ds => exact ⟨ds, by rw [Option.some.inj hd]⟩
    obtain rfl : last = .jump d.label := by simpa using hjump
    rw [linearize_cons_eq, finished_label, finished_label, hb.closeWith, (hb.endsOnce rfl).closeWith]
  · have hterminator := Instr.isTerminator_of_isFinal hlast
    have hlabel := Instr.label?_of_isTerminator hterminator
    have haccepts : accepts b last = true := by simp [accepts, hterminator, hb.isClosed]
    rw [finished_accepts hlabel haccepts, Block.append_of_terminator hterminator]

/-- The code of a block makes the block. -/
theorem finished_remains (he : b.EndsOnce) (hu : b.Unlabelled) (ht : ∀ i ∈ b.body, i.isTerminator = false)
    (bs : List Block) : finished taken (remains b.label b.body b.jumps bs) ⟨done, some ⟨b.label, [], []⟩, n⟩ =
      finished taken (linearize bs) ⟨done, some b, n⟩ := by
  obtain ⟨branches, last, hj, hbranches, hlast⟩ := he
  have hbody := remains_append b.label b.body [] b.jumps bs
  rw [List.append_nil] at hbody
  have hopen : Block.Open ⟨b.label, b.body, branches⟩ := hbranches
  rw [hbody, finished_body ht hu, List.nil_append, hj, finished_branches (Block.open_nil _ _) hbranches,
    List.nil_append, finished_last hopen hlast, ← hj]

/-- What is read behind a block that ends are the blocks that follow it. -/
theorem finished_linearize {bs : List Block} (hb : b.EndsOnce) (he : ∀ d ∈ bs, d.EndsOnce)
    (hu : ∀ d ∈ bs, d.Unlabelled) (ht : ∀ d ∈ bs, ∀ i ∈ d.body, i.isTerminator = false) :
    finished taken (linearize bs) ⟨done, some b, n⟩ = done ++ b :: bs := by
  induction bs generalizing done b with
  | nil => rw [linearize, finished_nil, hb.closeWith]
  | cons d ds ih =>
    have hd := he d List.mem_cons_self
    rw [linearize_cons_eq, finished_label, hb.closeWith,
      finished_remains hd (hu d List.mem_cons_self) (ht d List.mem_cons_self),
      ih hd (fun e hm => he e (.tail _ hm)) (fun e hm => hu e (.tail _ hm)) fun e hm => ht e (.tail _ hm),
      List.append_assoc]
    rfl

end Cut

/-! ## Graphs -/

namespace Procedure

variable {p : Procedure} {c : Cfg}

/-- The code of a closed graph is cut into the blocks of the graph. -/
theorem blocks_withCode (h : c.Closed) (p : Procedure) : (p.withCode c).blocks = c.blocks := by
  obtain ⟨b, bs, hbs, hl⟩ := h.exists_entry
  have he := h.endsOnce
  have hu := h.unlabelled
  have ht := h.body
  simp only [hbs, List.forall_mem_cons] at he hu ht
  have hfinished : ∀ taken, Cut.finished taken c.linear ⟨[], none, 0⟩ = c.blocks := by
    intro taken
    have hstart : Cut.finished taken c.linear ⟨[], none, 0⟩ =
        Cut.finished taken (remains b.label b.body b.jumps bs) ⟨[], some ⟨b.label, [], []⟩, 0⟩ := by
      rw [Cfg.linear, hbs, linearize_cons_eq]
      rfl
    rw [hstart, Cut.finished_remains he.1 hu.1 ht.1, Cut.finished_linearize he.1 he.2 hu.2 ht.2, hbs]
    rfl
  have htargets : b.label ∉ c.blocks.flatMap Block.targets := by
    rw [hl, List.mem_flatMap]
    rintro ⟨d, hd, hmem⟩
    exact h.entry_notMem d hd hmem
  have hdone := hfinished (c.linear.filterMap Instr.label?)
  unfold Cut.finished at hdone
  show Cut.guardEntry _ _ = c.blocks
  unfold Cut.guardEntry
  rw [withCode, hdone]
  simp only [hbs] at htargets ⊢
  rw [if_neg (by simpa using htargets)]

theorem cfg_withCode_of_closed (h : c.Closed) (hname : p.name = c.proc) : (p.withCode c).cfg = .ok c :=
  Cfg.ofBlocks_eq_ok.2 ⟨hname.symm, (blocks_withCode h p).symm, h.toValid⟩

/-- A closed graph that is written as the code of a procedure is made of this code again: the graph that a
procedure is cut into, one that passes leave of a closed graph, and one that they leave of its SSA form. -/
theorem cfg_withCode (p : Procedure) (c : Cfg) : (c.Closed → p.name = c.proc → (p.withCode c).cfg = .ok c) ∧
    (p.cfg = .ok c → (p.withCode c).cfg = .ok c) ∧
    ∀ (passes : List Pass) (r : Transformed), c.Closed → p.name = c.proc →
      (runPasses passes c = .ok r ∨ ∃ visit params, (∀ l ∈ c.labels, l ∈ visit) ∧
        runPasses passes (c.ssaVisiting visit params) = .ok r) → (p.withCode r.cfg).cfg = .ok r.cfg := by
  refine ⟨cfg_withCode_of_closed, fun h => cfg_withCode_of_closed (closed_cfg h) (proc_cfg h).symm, ?_⟩
  rintro passes r hclosed hname (hr | ⟨visit, params, hvisit, hr⟩)
  · obtain ⟨hclosed', hproc⟩ := closed_runPasses hclosed hr
    exact cfg_withCode_of_closed hclosed' (hname.trans hproc.symm)
  · obtain ⟨hclosed', hproc⟩ := closed_runPasses (hclosed.ssaVisiting hvisit params) hr
    exact cfg_withCode_of_closed hclosed' (hname.trans hproc.symm)

/-- The graph of `tangled` has an entry that was put in front, an empty block, blocks that fall through, one of
them behind a conditional jump, and a last jump over a block. That of `printing` goes through all passes. -/
theorem cfg_withCode_tangled : tangledGraph.Closed ∧ (tangled.withCode tangledGraph).body ≠ tangled.body ∧
    (tangled.withCode tangledGraph).cfg = .ok tangledGraph ∧
    ∃ r, runPasses Config.all.passes (printingGraph.ssa printing.params) = .ok r ∧
      (printing.withCode r.cfg).cfg = .ok r.cfg := by
  have hcfg : tangled.cfg = .ok tangledGraph := rfl
  have hclosed : tangledGraph.Closed := closed_cfg hcfg
  obtain ⟨r, hr⟩ := exists_runPasses_printing
  refine ⟨hclosed, by decide, (cfg_withCode tangled tangledGraph).1 hclosed rfl, r, hr, ?_⟩
  exact (cfg_withCode printing printingGraph).2.2 Config.all.passes r (closed_cfg cfg_printing) rfl
    (.inr ⟨printingGraph.labels, printing.params, fun _ hl => hl, hr⟩)

end Procedure

end ThreeAddress

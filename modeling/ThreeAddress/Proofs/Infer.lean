import ThreeAddress.Cfg.Infer
import ThreeAddress.Proofs.Fresh
import ThreeAddress.Proofs.Linearize
import ThreeAddress.Proofs.Refinement
/-!
# The blocks of linear code

A body is cut while it is read: one block is open, and what has been read stands in it or in complete
blocks (`finished`). What is still to come is what the open block goes on with (`Becomes`, `exists_finished`).
Without phis it fits the block, so that linear code runs as the graph that is made of it (`Procedure.runs_cfg`).
The blocks end once, and their bodies are instructions of the linear code (`Procedure.shape_cfg`).
-/

namespace ThreeAddress

/-! ## Open and closed blocks -/

namespace Block

variable {b : Block}

/-- All jumps of the block are conditional. -/
def Open (b : Block) : Prop := ∀ j ∈ b.jumps, ∃ cond v l, j = .branch cond v l

theorem open_nil (l : Label) (body : List Instr) : Open ⟨l, body, []⟩ := nofun

theorem Open.isClosed (h : b.Open) : b.isClosed = false := by
  unfold Block.isClosed
  split
  · rename_i j hj
    obtain ⟨cond, v, l, rfl⟩ := h j (List.mem_of_getLast? hj)
    rfl
  · rfl

theorem EndsOnce.isClosed (h : b.EndsOnce) : b.isClosed = true := by
  obtain ⟨branches, last, hj, -, hlast⟩ := h
  simpa [Block.isClosed, hj] using hlast

theorem Open.closeWith (h : b.Open) (last : Instr) :
    b.closeWith last = ⟨b.label, b.body, b.jumps ++ [last]⟩ := by
  simp [Block.closeWith, h.isClosed]

theorem EndsOnce.closeWith (h : b.EndsOnce) (last : Instr) : b.closeWith last = b := by
  simp [Block.closeWith, h.isClosed]

/-- A conditional jump leaves a block open. -/
theorem Open.branch (h : b.Open) {j : Instr} (hj : ∃ cond v l, j = .branch cond v l) :
    Open ⟨b.label, b.body, b.jumps ++ [j]⟩ := by
  intro k hk
  rcases List.mem_append.1 hk with hk | hk
  · exact h k hk
  · exact List.mem_singleton.1 hk ▸ hj

theorem Open.endsOnce (h : b.Open) {last : Instr} (hl : last.isFinal = true) {body : List Instr} :
    EndsOnce ⟨b.label, body, b.jumps ++ [last]⟩ :=
  ⟨b.jumps, last, rfl, h, hl⟩

theorem label_closeWith (b : Block) (last : Instr) : (b.closeWith last).label = b.label := by
  unfold Block.closeWith
  split <;> rfl

theorem body_closeWith (b : Block) (last : Instr) : (b.closeWith last).body = b.body := by
  unfold Block.closeWith
  split <;> rfl

theorem append_of_terminator {i : Instr} (hi : i.isTerminator = true) :
    b.append [i] = ⟨b.label, b.body, b.jumps ++ [i]⟩ := by
  simp [append, ofInstrs, hi]

theorem append_of_not_terminator {i : Instr} (hi : i.isTerminator = false) :
    b.append [i] = ⟨b.label, b.body ++ [i], b.jumps⟩ := by
  simp [append, ofInstrs, hi]

theorem mem_body_append {i j : Instr} : j ∈ (b.append [i]).body → j ∈ b.body ∨ j = i := by
  cases hi : i.isTerminator with
  | true =>
    rw [append_of_terminator hi]
    exact .inl
  | false =>
    rw [append_of_not_terminator hi]
    simp

theorem mem_instrs_closeWith {i : Instr} (h : i ∈ b.instrs) (last : Instr) : i ∈ (b.closeWith last).instrs := by
  unfold closeWith
  split
  · exact h
  · simpa [instrs, ← or_assoc] using Or.inl (List.mem_append.1 h)

theorem mem_instrs_append {i j : Instr} (h : i ∈ b.instrs ∨ i = j) : i ∈ (b.append [j]).instrs := by
  cases hj : j.isTerminator with
  | true =>
    rw [append_of_terminator hj]
    simpa [instrs, or_assoc] using h
  | false =>
    rw [append_of_not_terminator hj]
    simp only [instrs, List.mem_append, List.mem_singleton] at h ⊢
    exact h.elim (·.imp_left .inl) fun h => .inl (.inr h)

theorem ofInstrs_singleton (l : Label) (i : Instr) : ofInstrs l [i] = append ⟨l, [], []⟩ [i] := rfl

end Block

theorem numberedLabel_injective : Function.Injective numberedLabel := by
  intro m n h
  have h : "%.L" ++ toString m = "%.L" ++ toString n := by simpa [numberedLabel] using h
  exact toString_nat_injective (String.append_right_inj _ |>.1 h)

theorem Instr.branch_or_isFinal {i : Instr} (h : i.isTerminator = true) :
    (∃ cond v l, i = .branch cond v l) ∨ i.isFinal = true := by
  cases i <;> simp [Instr.isTerminator, Instr.isFinal] at h ⊢

namespace Cut

variable {taken : List Label} {done : List Block} {b : Block} {n : Nat} {i : Instr} {rest : List Instr}

/-! ## Reading a body to its end -/

/-- What a body is cut into when the rest of it has been read. -/
def read (taken : List Label) (rest : List Instr) (s : Cut) : Cut := (rest.foldl (step taken) s).finish taken

theorem read_accepts (hi : i.label? = none) (h : accepts b i = true) :
    read taken (i :: rest) ⟨done, some b, n⟩ = read taken rest ⟨done, some (b.append [i]), n⟩ := by
  simp [read, step, add, hi, h]

theorem read_split (hi : i.label? = none) (h : accepts b i = false) {l : Label}
    (hl : numberedLabel (firstFree taken numberedLabel n) = l) : read taken (i :: rest) ⟨done, some b, n⟩ =
      read taken rest ⟨done ++ [b.closeWith (.jump l)], some (Block.append ⟨l, [], []⟩ [i]),
        firstFree taken numberedLabel n + 1⟩ := by
  subst hl
  simp only [read, List.foldl_cons, step, hi, add, h, split, Block.ofInstrs_singleton]
  rfl

/-- The complete blocks when the rest of a body has been read. -/
def finished (taken : List Label) (rest : List Instr) (s : Cut) : List Block :=
  ((rest.foldl (step taken) s).finish taken).done

theorem finished_nil (taken : List Label) (done : List Block) (b : Block) (n : Nat) :
    finished taken [] ⟨done, some b, n⟩ = done ++ [b.closeWith (.ret none)] := rfl

theorem finished_label (taken : List Label) (done : List Block) (b : Block) (n : Nat) (l : Label)
    (rest : List Instr) : finished taken (.label l :: rest) ⟨done, some b, n⟩ =
      finished taken rest ⟨done ++ [b.closeWith (.jump l)], some ⟨l, [], []⟩, n⟩ := rfl

theorem finished_accepts (hi : i.label? = none) (h : accepts b i = true) :
    finished taken (i :: rest) ⟨done, some b, n⟩ = finished taken rest ⟨done, some (b.append [i]), n⟩ :=
  congrArg Cut.done (read_accepts hi h)

theorem finished_split (hi : i.label? = none) (h : accepts b i = false) : ∃ l m, l ∉ taken ∧
    finished taken (i :: rest) ⟨done, some b, n⟩ =
      finished taken rest ⟨done ++ [b.closeWith (.jump l)], some (Block.append ⟨l, [], []⟩ [i]), m⟩ :=
  ⟨_, _, firstFree_notMem numberedLabel_injective n, congrArg Cut.done (read_split hi h rfl)⟩

/-- An instruction is a label, or it has a place in the open block, or it begins another. -/
theorem finished_cons (taken : List Label) (done : List Block) (b : Block) (n : Nat) (i : Instr)
    (rest : List Instr) : (∃ l, i = .label l ∧ finished taken (i :: rest) ⟨done, some b, n⟩ =
        finished taken rest ⟨done ++ [b.closeWith (.jump l)], some ⟨l, [], []⟩, n⟩) ∨
      (i.label? = none ∧ accepts b i = true ∧ finished taken (i :: rest) ⟨done, some b, n⟩ =
        finished taken rest ⟨done, some (b.append [i]), n⟩) ∨
      (i.label? = none ∧ accepts b i = false ∧ ∃ l m, l ∉ taken ∧ finished taken (i :: rest) ⟨done, some b, n⟩ =
        finished taken rest ⟨done ++ [b.closeWith (.jump l)], some (Block.append ⟨l, [], []⟩ [i]), m⟩) := by
  cases hi : i.label? with
  | some l =>
    obtain rfl := Instr.eq_label_of_label? hi
    exact .inl ⟨l, rfl, finished_label taken done b n l rest⟩
  | none =>
    cases h : accepts b i with
    | true => exact .inr (.inl ⟨rfl, rfl, finished_accepts hi h⟩)
    | false => exact .inr (.inr ⟨rfl, rfl, finished_split hi h⟩)

/-- Complete blocks stay, and the open one is next. -/
theorem exists_finished_append (taken : List Label) (rest : List Instr) (done : List Block) (b : Block)
    (n : Nat) : ∃ b' more, finished taken rest ⟨done, some b, n⟩ = done ++ b' :: more ∧
      b'.label = b.label := by
  induction rest generalizing done b n with
  | nil => exact ⟨_, [], finished_nil taken done b n, Block.label_closeWith b _⟩
  | cons i rest ih =>
    rcases finished_cons taken done b n i rest with ⟨l, -, heq⟩ | ⟨-, -, heq⟩ | ⟨-, -, l, m, -, heq⟩
    · obtain ⟨b', more, h, -⟩ := ih (done ++ [b.closeWith (.jump l)]) ⟨l, [], []⟩ n
      exact ⟨_, b' :: more, by rw [heq, h, List.append_assoc]; rfl, Block.label_closeWith b _⟩
    · rw [heq]
      exact ih _ _ _
    · obtain ⟨b', more, h, -⟩ := ih (done ++ [b.closeWith (.jump l)]) (Block.append ⟨l, [], []⟩ [i]) m
      exact ⟨_, b' :: more, by rw [heq, h, List.append_assoc]; rfl, Block.label_closeWith b _⟩

/-- Nothing is put into a closed block. -/
theorem exists_finished_of_endsOnce (hb : b.EndsOnce) (taken : List Label) (rest : List Instr)
    (done : List Block) (n : Nat) : ∃ more, finished taken rest ⟨done, some b, n⟩ = done ++ b :: more := by
  cases rest with
  | nil => exact ⟨[], by rw [finished_nil, hb.closeWith]⟩
  | cons i rest =>
    rcases finished_cons taken done b n i rest with ⟨l, -, heq⟩ | ⟨-, h, -⟩ | ⟨-, -, l, m, -, heq⟩
    · obtain ⟨b', more, h, -⟩ := exists_finished_append taken rest (done ++ [b.closeWith (.jump l)]) ⟨l, [], []⟩ n
      exact ⟨b' :: more, by rw [heq, h, hb.closeWith, List.append_assoc]; rfl⟩
    · obtain ⟨branches, last, hj, -⟩ := id hb
      simp [accepts, hb.isClosed, hj] at h
    · obtain ⟨b', more, h, -⟩ := exists_finished_append taken rest (done ++ [b.closeWith (.jump l)])
        (Block.append ⟨l, [], []⟩ [i]) m
      exact ⟨b' :: more, by rw [heq, h, hb.closeWith, List.append_assoc]; rfl⟩

/-! ## What is still to come -/

/-- The code that a block of the graph is made of: its body, and then its jumps as they stand there, unless the
block falls through to a label or to the end, or is cut off behind a conditional jump and goes on in a block with
a label that is not taken. -/
inductive Becomes (c : Cfg) (taken : List Label) : List Instr → List Instr → List Instr → Prop
  | step {i : Instr} {rest is js : List Instr} : i.isTerminator = false → i.label? = none →
      Becomes c taken rest is js → Becomes c taken (i :: rest) (i :: is) js
  | branch {t : Label} {cond : Condition} {v : Operand} {rest js : List Instr} : Becomes c taken rest [] js →
      Becomes c taken (.branch cond v t :: rest) [] (.branch cond v t :: js)
  | cut {t u : Label} {cond : Condition} {v : Operand} {b : Block} {rest : List Instr} : u ∉ taken →
      c.block? u = some b → Becomes c taken rest b.body b.jumps →
      Becomes c taken (.branch cond v t :: rest) [] [.branch cond v t, .jump u]
  | final {j : Instr} {rest : List Instr} : j.isFinal = true → Becomes c taken (j :: rest) [] [j]
  | fall {t : Label} {b : Block} {rest : List Instr} : c.block? t = some b →
      Becomes c taken rest b.body b.jumps → Becomes c taken (.label t :: rest) [] [.jump t]
  | finish : Becomes c taken [] [] [.ret none]

/-- Where the code has no phis it does what remains of the block. -/
theorem Becomes.fits {c : Cfg} {is js : List Instr} (h : Becomes c taken rest is js)
    (hphi : ∀ i ∈ rest, i.isPhi = false) (l : Label) : Fits c False l rest is js := by
  induction h generalizing l with
  | step ht hl _ ih =>
    refine .step ht hl (fun hp => ?_) (ih (fun i hi => hphi i (.tail _ hi)) l)
    rw [hphi _ List.mem_cons_self] at hp
    cases hp
  | branch _ ih => exact .branch (ih (fun i hi => hphi i (.tail _ hi)) l)
  | cut _ hb _ ih => exact .branchSplit not_false hb (ih (fun i hi => hphi i (.tail _ hi)) _)
  | final hj => exact .final hj
  | fall hb _ ih => exact .fall hb (ih (fun i hi => hphi i (.tail _ hi)) _)
  | finish => exact .finish

/-- What is still to come is what the open block goes on with. If it has conditional jumps already and another
kind of instruction comes next, that is in a block of its own. -/
theorem exists_finished {c : Cfg} (hb : b.Open)
    (hc : ∀ d ∈ finished taken rest ⟨done, some b, n⟩, c.block? d.label = some d) :
    ∃ is js more, finished taken rest ⟨done, some b, n⟩ =
        done ++ ⟨b.label, b.body ++ is, b.jumps ++ js⟩ :: more ∧ (b.jumps ≠ [] → is = []) ∧
      (Becomes c taken rest is js ∨ b.jumps ≠ [] ∧ ∃ u d, js = [.jump u] ∧ u ∉ taken ∧ c.block? u = some d ∧
        Becomes c taken rest d.body d.jumps) := by
  induction rest generalizing done b n with
  | nil =>
    exact ⟨[], [.ret none], [], by rw [finished_nil, hb.closeWith, List.append_nil], fun _ => rfl, .inl .finish⟩
  | cons i rest ih =>
    rcases finished_cons taken done b n i rest with ⟨l, rfl, heq⟩ | ⟨hi, h, heq⟩ | ⟨hi, h, l, m, hl, heq⟩
    · rw [heq] at hc ⊢
      obtain ⟨is, js, more, hdone, -, hbecomes | ⟨hne, -⟩⟩ := ih (Block.open_nil l []) hc
      · refine ⟨[], [.jump l], ⟨l, is, js⟩ :: more, ?_, fun _ => rfl, .inl ?_⟩
        · rw [hdone, hb.closeWith, List.append_nil, List.append_assoc]
          rfl
        · exact .fall (hc ⟨l, is, js⟩ (by simp [hdone])) hbecomes
      · exact absurd rfl hne
    · rw [heq] at hc ⊢
      cases ht : i.isTerminator with
      | true =>
        rw [Block.append_of_terminator ht] at hc ⊢
        rcases Instr.branch_or_isFinal ht with ⟨cond, v, t, rfl⟩ | hfinal
        · obtain ⟨is, js, more, hdone, his, hbecomes⟩ := ih (hb.branch ⟨cond, v, t, rfl⟩) hc
          obtain rfl := his (by simp)
          refine ⟨[], .branch cond v t :: js, more, by rw [hdone, List.append_assoc]; rfl, fun _ => rfl, .inl ?_⟩
          rcases hbecomes with hbecomes | ⟨-, u, d, rfl, hu, hd, hbecomes⟩
          · exact .branch hbecomes
          · exact .cut hu hd hbecomes
        · obtain ⟨more, hdone⟩ := exists_finished_of_endsOnce (hb.endsOnce hfinal) taken rest done n
          exact ⟨[], [i], more, by rw [hdone, List.append_nil], fun _ => rfl, .inl (.final hfinal)⟩
      | false =>
        have hjumps : b.jumps = [] := by simpa [accepts, ht] using h
        rw [Block.append_of_not_terminator ht] at hc ⊢
        have hopen : Block.Open ⟨b.label, b.body ++ [i], b.jumps⟩ := hb
        obtain ⟨is, js, more, hdone, -, hbecomes⟩ := ih hopen hc
        refine ⟨i :: is, js, more, by rw [hdone, List.append_assoc]; rfl, fun hne => absurd hjumps hne, .inl ?_⟩
        exact .step ht hi (hbecomes.resolve_right fun h => h.1 hjumps)
    · have hne : b.jumps ≠ [] ∧ i.isTerminator = false := by
        cases ht : i.isTerminator with
        | true => simp [accepts, ht, hb.isClosed] at h
        | false => exact ⟨by simpa [accepts, ht] using h, rfl⟩
      rw [heq, Block.append_of_not_terminator hne.2] at hc ⊢
      obtain ⟨is, js, more, hdone, -, hbecomes | ⟨hnil, -⟩⟩ := ih (Block.open_nil l _) hc
      · have hblock : c.block? l = some ⟨l, i :: is, js⟩ :=
          hc ⟨l, i :: is, js⟩ (by rw [hdone]; exact List.mem_append_right _ List.mem_cons_self)
        refine ⟨[], [.jump l], ⟨l, i :: is, js⟩ :: more, ?_, fun _ => rfl,
          .inr ⟨hne.1, l, ⟨l, i :: is, js⟩, rfl, hl, hblock, .step hne.2 hi hbecomes⟩⟩
        rw [hdone, hb.closeWith, List.append_nil, List.append_assoc]
        rfl
      · exact absurd rfl hnil

/-- What follows a label is what the block of that label is made of. -/
def Placed (c : Cfg) (taken : List Label) (body : List Instr) : Prop :=
  ∀ t later, from? t body = some later →
    ∃ rest d, later = .label t :: rest ∧ c.block? t = some d ∧ Becomes c taken rest d.body d.jumps

theorem placed_of_finished {c : Cfg}
    (hc : ∀ d ∈ finished taken rest ⟨done, some b, n⟩, c.block? d.label = some d) : Placed c taken rest := by
  induction rest generalizing done b n with
  | nil => nofun
  | cons i rest ih =>
    intro t later h
    rw [from?] at h
    split at h
    · cases h
      rcases finished_cons taken done b n i rest with ⟨l, -, heq⟩ | ⟨-, -, heq⟩ | ⟨-, -, l, m, -, heq⟩ <;>
        exact ih (heq ▸ hc) _ _ ‹_›
    · split at h
      · cases h
        obtain rfl := Instr.eq_label_of_label? ‹_›
        rw [finished_label] at hc
        obtain ⟨is, js, more, hdone, -, hbecomes | ⟨hne, -⟩⟩ := exists_finished (Block.open_nil t []) hc
        · refine ⟨rest, ⟨t, is, js⟩, rfl, hc ⟨t, is, js⟩ ?_, hbecomes⟩
          rw [hdone]
          exact List.mem_append_right _ List.mem_cons_self
        · exact absurd rfl hne
      · cases h

theorem Placed.layout {c : Cfg} {body : List Instr} (h : Placed c taken body) (hphi : ∀ i ∈ body, i.isPhi = false) :
    Layout c False body := by
  intro t later hlater
  obtain ⟨rest, d, rfl, hd, hbecomes⟩ := h t later hlater
  refine ⟨rest, d, rfl, hd, hbecomes.fits (fun i hi => hphi i ?_) t⟩
  exact (from?_suffix hlater).subset (.tail _ hi)

/-! ## The shape of the blocks -/

/-- The block ends once or can still do so, and its body is taken from the code. -/
structure Growing (code : List Instr) (b : Block) : Prop where
  jumps : b.Open ∨ b.EndsOnce
  body : ∀ i ∈ b.body, i ∈ code ∧ i.label? = none

variable {code : List Instr}

theorem growing_nil (code : List Instr) (l : Label) : Growing code ⟨l, [], []⟩ :=
  ⟨.inl (Block.open_nil l []), nofun⟩

theorem Growing.endsOnce_closeWith (h : Growing code b) {last : Instr} (hl : last.isFinal = true) :
    (b.closeWith last).EndsOnce := by
  rcases h.jumps with hopen | hends
  · rw [hopen.closeWith]
    exact hopen.endsOnce hl
  · rwa [hends.closeWith]

theorem Growing.closeWith (h : Growing code b) {last : Instr} (hl : last.isFinal = true) :
    (b.closeWith last).EndsOnce ∧ ∀ i ∈ (b.closeWith last).body, i ∈ code ∧ i.label? = none :=
  ⟨h.endsOnce_closeWith hl, Block.body_closeWith b last ▸ h.body⟩

theorem Growing.append (h : Growing code b) (hb : b.Open) (hi : i.label? = none) (hmem : i ∈ code) :
    Growing code (b.append [i]) := by
  refine ⟨?_, fun j hj => ?_⟩
  · cases ht : i.isTerminator with
    | true =>
      rw [Block.append_of_terminator ht]
      rcases Instr.branch_or_isFinal ht with hbranch | hfinal
      · exact .inl (hb.branch hbranch)
      · exact .inr (hb.endsOnce hfinal)
    | false =>
      rw [Block.append_of_not_terminator ht]
      exact .inl hb
  · rcases Block.mem_body_append hj with hj | rfl
    · exact h.body j hj
    · exact ⟨hmem, hi⟩

/-- What accepts an instruction is open. -/
theorem Growing.open_of_accepts (h : Growing code b) (ha : accepts b i = true) : b.Open := by
  refine h.jumps.resolve_right fun hends => ?_
  obtain ⟨branches, last, hj, -⟩ := id hends
  simp [accepts, hends.isClosed, hj] at ha

theorem Growing.forall_close (h : Growing code b)
    (hdone : ∀ d ∈ done, d.EndsOnce ∧ ∀ i ∈ d.body, i ∈ code ∧ i.label? = none) {last : Instr}
    (hl : last.isFinal = true) :
    ∀ d ∈ done ++ [b.closeWith last], d.EndsOnce ∧ ∀ i ∈ d.body, i ∈ code ∧ i.label? = none := by
  intro d hd
  rcases List.mem_append.1 hd with hd | hd
  · exact hdone d hd
  · exact List.mem_singleton.1 hd ▸ h.closeWith hl

/-- The blocks of linear code end once, and their bodies are taken from it. -/
theorem shape_finished (hb : Growing code b) (hrest : rest ⊆ code)
    (hdone : ∀ d ∈ done, d.EndsOnce ∧ ∀ i ∈ d.body, i ∈ code ∧ i.label? = none) :
    ∀ d ∈ finished taken rest ⟨done, some b, n⟩, d.EndsOnce ∧ ∀ i ∈ d.body, i ∈ code ∧ i.label? = none := by
  induction rest generalizing done b n with
  | nil => exact finished_nil taken done b n ▸ hb.forall_close hdone rfl
  | cons i rest ih =>
    have hmem : i ∈ code := hrest List.mem_cons_self
    have hrest' : rest ⊆ code := fun j hj => hrest (.tail _ hj)
    rcases finished_cons taken done b n i rest with ⟨l, -, heq⟩ | ⟨hi, ha, heq⟩ | ⟨hi, -, l, m, -, heq⟩ <;> rw [heq]
    · exact ih (growing_nil code l) hrest' (hb.forall_close hdone rfl)
    · exact ih (hb.append (hb.open_of_accepts ha) hi hmem) hrest' hdone
    · exact ih ((growing_nil code l).append (Block.open_nil l []) hi hmem) hrest' (hb.forall_close hdone rfl)

/-! ## Nothing is lost -/

theorem exists_mem_closeWith {i : Instr} (hi : (∃ d ∈ done, i ∈ d.instrs) ∨ i ∈ b.instrs) (last : Instr) :
    ∃ d ∈ done ++ [b.closeWith last], i ∈ d.instrs := by
  rcases hi with ⟨d, hd, hi⟩ | hi
  · exact ⟨d, List.mem_append_left _ hd, hi⟩
  · exact ⟨_, List.mem_append_right _ List.mem_cons_self, Block.mem_instrs_closeWith hi last⟩

/-- What stands in a block stays there while the rest of a body is read. -/
theorem exists_finished_of_mem {i : Instr} (taken : List Label) (rest : List Instr) (n : Nat)
    (hi : (∃ d ∈ done, i ∈ d.instrs) ∨ i ∈ b.instrs) :
    ∃ d ∈ finished taken rest ⟨done, some b, n⟩, i ∈ d.instrs := by
  induction rest generalizing done b n with
  | nil => exact finished_nil taken done b n ▸ exists_mem_closeWith hi _
  | cons j rest ih =>
    rcases finished_cons taken done b n j rest with ⟨l, -, heq⟩ | ⟨-, -, heq⟩ | ⟨-, -, l, m, -, heq⟩ <;> rw [heq]
    · exact ih _ (.inl (exists_mem_closeWith hi _))
    · exact ih _ (hi.imp_right fun hi => Block.mem_instrs_append (.inl hi))
    · exact ih _ (.inl (exists_mem_closeWith hi _))

/-- All of a body but its labels is put into blocks. -/
theorem exists_finished_of_mem_rest (taken : List Label) {rest : List Instr} (n : Nat) {i : Instr} (hi : i ∈ rest)
    (hl : i.label? = none) : ∃ d ∈ finished taken rest ⟨done, some b, n⟩, i ∈ d.instrs := by
  induction rest generalizing done b n with
  | nil => cases hi
  | cons j rest ih =>
    rcases finished_cons taken done b n j rest with ⟨l, rfl, heq⟩ | ⟨-, -, heq⟩ | ⟨-, -, l, m, -, heq⟩ <;> rw [heq]
    · exact ih _ ((List.mem_cons.1 hi).resolve_left fun h => by rw [h] at hl; cases hl)
    · rcases List.mem_cons.1 hi with rfl | hi
      · exact exists_finished_of_mem taken rest n (.inr (Block.mem_instrs_append (.inr rfl)))
      · exact ih _ hi
    · rcases List.mem_cons.1 hi with rfl | hi
      · exact exists_finished_of_mem taken rest m (.inr (Block.mem_instrs_append (.inr rfl)))
      · exact ih _ hi

/-! ## The first block -/

theorem accepts_nil (l : Label) (i : Instr) : accepts ⟨l, [], []⟩ i = true := by
  unfold accepts
  split <;> rfl

/-- A body begins with a label, or its first block is given the first free one. -/
theorem exists_read_start (taken : List Label) (body : List Instr) : ∃ l rest n,
    (body = .label l :: rest ∧ n = 0 ∨ body = rest ∧ body.head?.bind Instr.label? = none ∧
      numberedLabel (firstFree taken numberedLabel 0) = l ∧ n = firstFree taken numberedLabel 0 + 1) ∧
      read taken body ⟨[], none, 0⟩ = read taken rest ⟨[], some ⟨l, [], []⟩, n⟩ := by
  cases body with
  | nil => exact ⟨_, [], _, .inr ⟨rfl, rfl, rfl, rfl⟩, rfl⟩
  | cons i rest =>
    cases hi : i.label? with
    | some l =>
      obtain rfl := Instr.eq_label_of_label? hi
      exact ⟨l, rest, 0, .inl ⟨rfl, rfl⟩, rfl⟩
    | none =>
      refine ⟨_, i :: rest, _, .inr ⟨rfl, hi, rfl, rfl⟩, ?_⟩
      rw [read_accepts hi (accepts_nil _ i)]
      simp only [read, List.foldl_cons, step, hi, add, split, Block.ofInstrs_singleton]
      rfl

/-- The blocks are kept, perhaps behind an entry that jumps to the first of them. -/
theorem guardEntry_eq (taken : List Label) {s : Cut} {b : Block} {more : List Block} (hs : s.done = b :: more) :
    s.guardEntry taken = b :: more ∨
      ∃ k, k ∉ taken ∧ s.guardEntry taken = ⟨k, [], [.jump b.label]⟩ :: b :: more := by
  unfold guardEntry
  rw [hs]
  dsimp only
  split
  · exact .inr ⟨_, firstFree_notMem numberedLabel_injective _, rfl⟩
  · exact .inl rfl

variable {c : Cfg} {l : Label} {body : List Instr}

/-- The label in front of a body, if there is one, is that of its first block. -/
theorem placed_of_start (hbody : body = rest ∨ body = .label l :: rest)
    (hc : ∀ d ∈ finished taken rest ⟨done, some b, n⟩, c.block? d.label = some d) {first : Block}
    (hfirst : c.block? l = some first) (hbecomes : Becomes c taken rest first.body first.jumps) :
    Placed c taken body := by
  rcases hbody with rfl | rfl
  · exact placed_of_finished hc
  · intro t later hlater
    rw [from?] at hlater
    split at hlater
    · cases hlater
      exact placed_of_finished hc _ _ ‹_›
    · split at hlater
      · rename_i ht
        obtain rfl : l = t := by simpa [Instr.label?] using ht
        cases hlater
        exact ⟨rest, first, rfl, hfirst, hbecomes⟩
      · cases hlater

end Cut

namespace Procedure

variable {p : Procedure} {c : Cfg}

/-- The labels that the body defines. -/
def labels (p : Procedure) : List Label := p.body.filterMap Instr.label?

/-- The blocks of a procedure, from the first block of its body on, and perhaps an entry before it. -/
theorem exists_blocks (p : Procedure) : ∃ l rest n b more,
    (p.body = rest ∧ p.body.head?.bind Instr.label? = none ∨ p.body = .label l :: rest) ∧
      Cut.finished p.labels rest ⟨[], some ⟨l, [], []⟩, n⟩ = b :: more ∧ b.label = l ∧
      (p.blocks = b :: more ∨ ∃ k, k ∉ p.labels ∧ p.blocks = ⟨k, [], [.jump l]⟩ :: b :: more) := by
  obtain ⟨l, rest, n, hbody, hread⟩ := Cut.exists_read_start p.labels p.body
  obtain ⟨b, more, hdone, rfl⟩ := Cut.exists_finished_append p.labels rest [] ⟨l, [], []⟩ n
  exact ⟨b.label, rest, n, b, more, hbody.symm.imp (fun h => ⟨h.1, h.2.1⟩) And.left, hdone, rfl,
    Cut.guardEntry_eq p.labels ((congrArg Cut.done hread).trans hdone)⟩

/-- The blocks end once, and their bodies are taken from the body of the procedure, less its labels. -/
theorem shape_cfg (h : p.cfg = .ok c) :
    ∀ b ∈ c.blocks, b.EndsOnce ∧ ∀ i ∈ b.body, i ∈ p.body ∧ i.label? = none := by
  obtain ⟨-, hblocks, -⟩ := Cfg.ofBlocks_eq_ok.1 h
  obtain ⟨l, rest, n, b, more, hbody, hfinished, -, hmem⟩ := p.exists_blocks
  have hsub : rest ⊆ p.body := by
    rcases hbody with ⟨hbody, -⟩ | hbody
    · exact fun i hi => hbody ▸ hi
    · exact fun i hi => hbody ▸ List.mem_cons_of_mem _ hi
  have hshape := hfinished ▸ Cut.shape_finished (Cut.growing_nil p.body l) hsub (by simp)
  intro d hd
  rw [hblocks] at hd
  rcases hmem with hmem | ⟨k, -, hmem⟩
  · exact hshape d (hmem ▸ hd)
  · rcases List.mem_cons.1 (hmem ▸ hd) with rfl | hd
    · exact ⟨⟨[], .jump l, rfl, by simp, rfl⟩, by simp⟩
    · exact hshape d hd

/-- The graph has all instructions of the body but the labels. -/
theorem mem_instrs_cfg (h : p.cfg = .ok c) {i : Instr} (hi : i ∈ p.body) (hl : i.label? = none) : i ∈ c.instrs := by
  obtain ⟨-, hblocks, -⟩ := Cfg.ofBlocks_eq_ok.1 h
  obtain ⟨l, rest, n, b, more, hbody, hfinished, -, hguard⟩ := p.exists_blocks
  have hrest : i ∈ rest := by
    rcases hbody with ⟨hbody, -⟩ | hbody <;> rw [hbody] at hi
    · exact hi
    · refine (List.mem_cons.1 hi).resolve_left fun h => ?_
      rw [h] at hl
      cases hl
  have hmem : ∃ d ∈ Cut.finished p.labels rest ⟨[], some ⟨l, [], []⟩, n⟩, i ∈ d.instrs :=
    Cut.exists_finished_of_mem_rest p.labels n hrest hl
  rw [hfinished] at hmem
  obtain ⟨d, hd, hid⟩ := hmem
  refine List.mem_flatMap.2 ⟨d, ?_, hid⟩
  rw [hblocks]
  rcases hguard with hguard | ⟨k, -, hguard⟩ <;> rw [hguard]
  · exact hd
  · exact .tail _ hd

/-- Graphs that are made of linear code can be written as linear code. -/
theorem closed_cfg (h : p.cfg = .ok c) : c.Closed where
  toValid := (Cfg.ofBlocks_eq_ok.1 h).2.2
  endsOnce b hb := (shape_cfg h b hb).1
  unlabelled b hb i hi := ((shape_cfg h b hb).2 i hi).2

theorem proc_cfg (h : p.cfg = .ok c) : c.proc = p.name := (Cfg.ofBlocks_eq_ok.1 h).1

/-- The blocks of the graph are those of the body, and what is before them leads to the first. -/
theorem exists_start (h : p.cfg = .ok c) : ∃ l rest b,
    (p.body = rest ∧ p.body.head?.bind Instr.label? = none ∨ p.body = .label l :: rest) ∧ c.block? l = some b ∧
      Cut.Becomes c p.labels rest b.body b.jumps ∧ Cut.Placed c p.labels p.body ∧
      (c.entry = l ∨ c.entry ∉ p.labels ∧ c.block? c.entry = some ⟨c.entry, [], [.jump l]⟩) := by
  obtain ⟨-, hblocks, hvalid⟩ := Cfg.ofBlocks_eq_ok.1 h
  obtain ⟨l, rest, n, b, more, hbody, hfinished, hl, hmem⟩ := p.exists_blocks
  have hsub : ∀ d ∈ b :: more, d ∈ c.blocks := by
    rcases hmem with hmem | ⟨k, -, hmem⟩ <;> rw [hblocks, hmem]
    · exact fun d hd => hd
    · exact fun d hd => List.mem_cons_of_mem _ hd
  have hc : ∀ d ∈ Cut.finished p.labels rest ⟨[], some ⟨l, [], []⟩, n⟩, c.block? d.label = some d :=
    fun d hd => hvalid.block?_of_mem (hsub d (hfinished ▸ hd))
  have hblock : c.block? l = some b := hl ▸ hvalid.block?_of_mem (hsub b List.mem_cons_self)
  have hbecomes : Cut.Becomes c p.labels rest b.body b.jumps := by
    obtain ⟨is, js, more', hdone, -, hbecomes | ⟨hne, -⟩⟩ := Cut.exists_finished (Block.open_nil l []) hc
    · obtain ⟨rfl, -⟩ := List.cons.inj (hfinished.symm.trans hdone)
      exact hbecomes
    · exact absurd rfl hne
  refine ⟨l, rest, b, hbody, hblock, hbecomes, Cut.placed_of_start (hbody.imp_left And.left) hc hblock hbecomes, ?_⟩
  obtain ⟨first, later, hfirst, hentry⟩ := hvalid.exists_entry
  have hcons := hfirst.symm.trans hblocks
  rcases hmem with hmem | ⟨k, hk, hmem⟩
  · obtain ⟨rfl, -⟩ := List.cons.inj (hcons.trans hmem)
    exact .inl (hentry.symm.trans hl)
  · obtain ⟨rfl, -⟩ := List.cons.inj (hcons.trans hmem)
    obtain rfl : k = c.entry := hentry
    exact .inr ⟨hk, hvalid.block?_of_mem (hfirst ▸ List.mem_cons_self)⟩

/-- Linear code without phis runs as the graph that is made of it. -/
theorem runs_cfg (h : p.cfg = .ok c) (hphi : ∀ i ∈ p.body, i.isPhi = false) {calls : Calls} {σ : Store}
    {f : Final} (hrun : LinearRun calls p.body p.body none none σ f) : c.Runs calls none c.entry σ f := by
  obtain ⟨l, rest, b, hbody, hblock, hbecomes, hplaced, hentry⟩ := exists_start h
  have hlayout := hplaced.layout hphi
  have hfit : Fits c False l rest b.body b.jumps := by
    refine hbecomes.fits (fun i hi => hphi i ?_) l
    rcases hbody with ⟨hbody, -⟩ | hbody
    · exact hbody ▸ hi
    · exact hbody ▸ List.mem_cons_of_mem _ hi
  have hstart : ∀ prev?, c.Runs calls prev? l σ f := by
    intro prev?
    refine (Cfg.runs_iff_leaves hblock).2 ?_
    rcases hbody with ⟨hbody, -⟩ | hbody <;> conv at hrun => arg 3; rw [hbody]
    · exact hrun.leaves hlayout hfit False.elim
    · cases hrun with
      | label hrun => exact hrun.leaves hlayout hfit False.elim
      | exec he => exact absurd he.plain.2.2 (by simp [Instr.label?])
      | phis hi => simp [Instr.isPhi] at hi
  rcases hentry with hentry | ⟨-, hentry⟩
  · exact hentry ▸ hstart none
  · exact .step hentry (.nil σ) rfl (hstart _)

/-- A procedure without phis is refined by the code that is written from its graph. -/
theorem refines_cfg {env : Surroundings} (h : p.cfg = .ok c) (hphi : ∀ i ∈ p.body, i.isPhi = false) :
    p.Refines env (p.withCode c) where
  name_eq := rfl
  params_eq := rfl
  runs _ hrun := (closed_cfg h).linearRun_iff.2 (runs_cfg h hphi hrun)

/-- Code without phis may be written again from its blocks: in every program the runs that succeed are kept. -/
theorem keptBy_withCode_cfg (h : p.cfg = .ok c) (hphi : ∀ i ∈ p.body, i.isPhi = false) (before after : Program) :
    Program.KeptBy (before ++ .proc p :: after) (before ++ .proc (p.withCode c) :: after) :=
  (Program.Refines.replace (refines_cfg h hphi) before after).keptBy (Surroundings.around_unknown _)

/-- A loop back to the first label, an instruction behind a conditional jump, a label that is fallen through to,
code behind a jump, and no return at the end. -/
def tangled : Procedure where
  name := "@count"
  params := [⟨"%n"⟩]
  body := [
    .label ⟨"again"⟩,
    .param 1 (.temp ⟨"%n"⟩),
    .call none printInt 1,
    .binary ⟨"%n"⟩ .sub (.temp ⟨"%n"⟩) (.imm 1),
    .branch .jnle (.temp ⟨"%n"⟩) ⟨"again"⟩,
    .binary ⟨"@sum"⟩ .add (.temp ⟨"@sum"⟩) (.imm 1),
    .label ⟨"done"⟩,
    .jump ⟨"end"⟩,
    .const ⟨"@sum"⟩ 8,
    .label ⟨"end"⟩,
    .param 1 (.temp ⟨"@sum"⟩),
    .call none printInt 1]

/-- The graph of `tangled`: a new entry is before the block `again`, and two blocks have been given labels. -/
def tangledGraph : Cfg where
  proc := "@count"
  entry := ⟨"%.L2"⟩
  blocks := [
    ⟨⟨"%.L2"⟩, [], [.jump ⟨"again"⟩]⟩,
    ⟨⟨"again"⟩,
      [.param 1 (.temp ⟨"%n"⟩), .call none printInt 1, .binary ⟨"%n"⟩ .sub (.temp ⟨"%n"⟩) (.imm 1)],
      [.branch .jnle (.temp ⟨"%n"⟩) ⟨"again"⟩, .jump ⟨"%.L0"⟩]⟩,
    ⟨⟨"%.L0"⟩, [.binary ⟨"@sum"⟩ .add (.temp ⟨"@sum"⟩) (.imm 1)], [.jump ⟨"done"⟩]⟩,
    ⟨⟨"done"⟩, [], [.jump ⟨"end"⟩]⟩,
    ⟨⟨"%.L1"⟩, [.const ⟨"@sum"⟩ 8], [.jump ⟨"end"⟩]⟩,
    ⟨⟨"end"⟩, [.param 1 (.temp ⟨"@sum"⟩), .call none printInt 1], [.ret none]⟩]

theorem keptBy_withCode_cfg_tangled :
    tangled.cfg = .ok tangledGraph ∧ (∀ i ∈ tangled.body, i.isPhi = false) ∧
      (∃ out, Program.run [.var ⟨"@sum", 4⟩, .proc tangled] "@count" [2] 100 = .ok out ∧
        out.output = ["2", "1", "5"]) ∧
      Program.KeptBy [.var ⟨"@sum", 4⟩, .proc tangled]
        [.var ⟨"@sum", 4⟩, .proc (tangled.withCode tangledGraph)] := by
  have hcfg : tangled.cfg = .ok tangledGraph := rfl
  have hphi : ∀ i ∈ tangled.body, i.isPhi = false := by decide
  exact ⟨hcfg, hphi, ⟨_, rfl, by decide +kernel⟩, keptBy_withCode_cfg hcfg hphi [.var ⟨"@sum", 4⟩] []⟩

end Procedure

end ThreeAddress

import ThreeAddress.CommonSubexpr.Elimination
import ThreeAddress.Proofs.CommonSubexpr.Between
import ThreeAddress.Proofs.CommonSubexpr.Reuse
/-!
# Reusing expressions of dominators

A block copies what a dominator has left in some temporary. Every run that comes to the block has passed
the dominator (`reused_copied`), and nothing since has written what counts, so that the temporary still
holds the value: `Follows` says so of the points of a run, and steps keep it.
-/

namespace ThreeAddress.CommonSubexpr

variable {params : List Temp} {c : Cfg}

/-! ## What a body leaves behind -/

/-- What is held behind one more instruction. -/
def heldStep (held : List (Expr × Holder)) (i : Instr × Nat) : List (Expr × Holder) :=
  match i.1.dest? with
  | none => held
  | some dest =>
    let held := held.filter fun h => h.2.temp ≠ dest && !h.1.reads dest
    match Available.computed? i.1 dest with
    | some x => (x, ⟨i.2, dest⟩) :: held.filter (·.1 ≠ x)
    | none => held

theorem heldAtExit_append (pre : List Instr) (i : Instr) :
    heldAtExit (pre ++ [i]) = heldStep (heldAtExit pre) (i, pre.length) := by
  rw [heldAtExit, List.zipIdx_append, List.foldl_append]
  simp only [List.zipIdx_cons, List.zipIdx_nil, List.foldl_cons, List.foldl_nil, Nat.zero_add]
  rfl

/-- The expressions that are held in temporaries behind some instructions. -/
def HeldBehind (pre : List Instr) (e : Expr) (t : Temp) : Prop :=
  ∃ index, (e, ⟨index, t⟩) ∈ heldAtExit pre

/-- What is held behind an instruction was so before and is spared, or is computed by it. -/
theorem heldBehind_append {pre : List Instr} {i : Instr} {e : Expr} {t : Temp}
    (h : HeldBehind (pre ++ [i]) e t) : (HeldBehind pre e t ∧ i.Spares e t) ∨
      (i.dest? = some t ∧ Available.computed? i t = some e) := by
  obtain ⟨index, hmem⟩ := h
  rw [heldAtExit_append] at hmem
  unfold heldStep at hmem
  split at hmem
  · rename_i hdest
    exact .inl ⟨⟨index, hmem⟩, fun x hx => by simp [hdest] at hx⟩
  · rename_i dest hdest
    have hkill : ∀ {held : List (Expr × Holder)} {h}, h ∈ held.filter (fun h => h.2.temp ≠ dest &&
        !h.1.reads dest) → h ∈ held ∧ i.Spares h.1 h.2.temp := by
      intro held h hmem
      obtain ⟨hmem, hspared⟩ := List.mem_filter.1 hmem
      exact ⟨hmem, Instr.spares_of_dest hdest hspared⟩
    dsimp only at hmem
    split at hmem
    · rename_i x hx
      rcases List.mem_cons.1 hmem with heq | hmem
      · cases heq
        exact .inr ⟨hdest, hx⟩
      · obtain ⟨hmem, hspares⟩ := hkill (List.mem_filter.1 hmem).1
        exact .inl ⟨⟨index, hmem⟩, hspares⟩
    · obtain ⟨hmem, hspares⟩ := hkill hmem
      exact .inl ⟨⟨index, hmem⟩, hspares⟩

theorem heldBehind_append_phis {pre group : List Instr} (hphis : ∀ i ∈ group, i.isPhi = true) {e : Expr}
    {t : Temp} (h : HeldBehind (pre ++ group) e t) :
    HeldBehind pre e t ∧ ∀ i ∈ group, i.Spares e t := by
  induction group generalizing pre with
  | nil => exact ⟨by simpa using h, nofun⟩
  | cons i group ih =>
    rw [List.append_cons] at h
    obtain ⟨h, hgroup⟩ := ih (fun j hj => hphis j (.tail _ hj)) h
    have hi := Available.computed?_of_isPhi (hphis i List.mem_cons_self) t
    obtain ⟨h, hspares⟩ := (heldBehind_append h).resolve_right fun ⟨_, hc⟩ => by simp [hi] at hc
    exact ⟨h, List.forall_mem_cons.2 ⟨hspares, hgroup⟩⟩

/-- What is held behind a body is computed there. -/
theorem HeldBehind.result {body : List Instr} {e : Expr} {t : Temp} (h : HeldBehind body e t) :
    Result body e t := by
  induction body using List.reverseRecOn with
  | nil => obtain ⟨_, h⟩ := h; cases h
  | append_singleton pre i ih =>
    rcases heldBehind_append h with ⟨h, -⟩ | ⟨hd, hcomputed⟩
    · obtain ⟨j, hj, hjet⟩ := ih h
      exact ⟨j, List.mem_append_left _ hj, hjet⟩
    · exact ⟨i, by simp, (Option.filter_eq_some_iff.1 hcomputed).1, hd⟩

/-- The block `k` leaves the value of the expression in the temporary. -/
def LeftBy (c : Cfg) (k : Label) (e : Expr) (t : Temp) : Prop :=
  ∃ p, c.block? k = some p ∧ HeldBehind p.body e t

theorem LeftBy.result {k : Label} {e : Expr} {t : Temp} (h : LeftBy c k e t) : Result c.bodies e t := by
  obtain ⟨p, hp, h⟩ := h
  obtain ⟨j, hj, hjet⟩ := h.result
  exact ⟨j, Cfg.mem_bodies.2 ⟨p, Cfg.mem_of_block? hp, hj⟩, hjet⟩

/-! ## Places of reuse -/

theorem exists_split_of_mem_cleanFirst {index : Nat} {e : Expr} {is : List (Instr × Nat)}
    {written : List Temp} {seen : List Expr} (h : (index, e) ∈ cleanFirst written seen is) :
    ∃ pre i post, is = pre ++ (i, index) :: post ∧ Expr.of? i = some e ∧
      (∀ u ∈ e.temps, u ∉ written) ∧ ∀ j ∈ pre, ∀ x, j.1.dest? = some x → x ∉ e.temps := by
  induction is generalizing written seen with
  | nil => simp [cleanFirst] at h
  | cons i is ih =>
    obtain ⟨i, n⟩ := i
    have hrest : ∀ {seen}, (index, e) ∈ cleanFirst (i.dest?.toList ++ written) seen is →
        ∃ pre j post, (i, n) :: is = pre ++ (j, index) :: post ∧ Expr.of? j = some e ∧
          (∀ u ∈ e.temps, u ∉ written) ∧ ∀ j ∈ pre, ∀ x, j.1.dest? = some x → x ∉ e.temps := by
      intro seen h
      obtain ⟨pre, j, post, rfl, hje, hwritten, hpre⟩ := ih h
      refine ⟨(i, n) :: pre, j, post, rfl, hje, fun u hu hw => ?_, ?_⟩
      · exact hwritten u hu (List.mem_append_right _ hw)
      · rintro k hk x hx hmem
        rcases List.mem_cons.1 hk with rfl | hk
        · exact hwritten x hmem (List.mem_append_left _ (by simpa using hx))
        · exact hpre k hk x hx hmem
    simp only [cleanFirst] at h
    split at h
    · exact hrest h
    · rename_i e' he'
      split at h
      · exact hrest h
      split at h
      · exact hrest h
      · rename_i hclean
        rcases List.mem_cons.1 h with heq | h
        · cases heq
          exact ⟨[], i, is, rfl, he', by simpa using hclean, nofun⟩
        · exact hrest h

/-- What a dominator holds is found, unless it is written on the way or in the block before its use. -/
theorem holderAt?_eq_some {b : Block} {n : Nat} {e : Expr} {k : Label} {t : Temp} :
    c.holderAt? b n e k = some t ↔ ∃ d holder, c.block? k = some d ∧ (heldAtExit d.body).lookup e = some holder ∧
      holder.temp = t ∧ (∀ i ∈ b.body.take n, i.dest? ≠ some t) ∧
      c.writesBetween k holder.index b.label (t :: e.temps) = false := by
  unfold Cfg.holderAt?
  constructor
  · intro h
    split at h
    · cases h
    · rename_i holder hheld
      obtain ⟨d, hd, hheld⟩ := Option.bind_eq_some_iff.1 hheld
      split at h
      · cases h
      rename_i hclean
      split at h
      · cases h
      · rename_i hbetween
        cases h
        refine ⟨d, holder, hd, hheld, rfl, fun i hi hdest => hclean ?_, by simpa using hbetween⟩
        exact List.any_eq_true.2 ⟨i, hi, by simp [Instr.defines, hdest]⟩
  · rintro ⟨d, holder, hd, hheld, rfl, hclean, hbetween⟩
    have hnone : ¬ (b.body.take n).any (·.defines holder.temp) = true := fun hany => by
      obtain ⟨i, hi, hdefines⟩ := List.any_eq_true.1 hany
      exact hclean i hi (by simpa [Instr.defines] using hdefines)
    simp [hd, hheld, hbetween, hnone]

/-- A copy is of what the closest dominator holds that can supply it. -/
theorem exists_holderAt_of_mem_reusable {d : Dominance} {b : Block} {pre post : List Instr} {i : Instr} {t : Temp}
    (hsplit : b.body = pre ++ i :: post) (hmem : (pre.length, t) ∈ c.reusable d b) : ∃ e k, Expr.of? i = some e ∧
      k ∈ d.closestFirst b.label ∧ c.holderAt? b pre.length e k = some t ∧
      ∀ j ∈ pre, ∀ x, j.dest? = some x → x ∉ e.temps := by
  obtain ⟨⟨index, e⟩, hfirst, heq⟩ := List.mem_filterMap.1 hmem
  obtain ⟨t', ht', heq⟩ := Option.map_eq_some_iff.1 heq
  obtain ⟨rfl, rfl⟩ := Prod.mk.inj heq
  obtain ⟨pre', i', post', hzip, he, -, hpre⟩ := exists_split_of_mem_cleanFirst hfirst
  have hlen : pre'.length = pre.length := by
    have hget : b.body.zipIdx[pre'.length]? = some (i', pre.length) := by simp [hzip]
    rw [List.getElem?_zipIdx] at hget
    obtain ⟨_, -, heq⟩ := Option.map_eq_some_iff.1 hget
    simpa using congrArg Prod.snd heq
  have hbody : pre ++ i :: post = pre'.map Prod.fst ++ i' :: post'.map Prod.fst := by
    rw [← hsplit, ← List.zipIdx_map_fst 0 b.body, hzip]
    simp
  obtain ⟨hpre', htail⟩ := List.append_inj hbody (by simpa using hlen.symm)
  obtain ⟨rfl, -⟩ := List.cons.inj htail
  obtain ⟨k, hk, hholder⟩ := List.exists_of_findSome?_eq_some ht'
  refine ⟨e, k, he, hk, hholder, fun j hj x hx => ?_⟩
  rw [hpre'] at hj
  obtain ⟨n, hn, rfl⟩ := List.mem_map.1 hj
  exact hpre n hn x hx

/-- The block `k` supplies the expression to the place of `b` behind `pre`. -/
structure Supplies (c : Cfg) (b : Block) (pre : List Instr) (e : Expr) (k : Label) (t : Temp) : Prop where
  left : LeftBy c k e t
  undisturbed : c.Undisturbed k b.label e t
  spares : ∀ i ∈ pre, i.Spares e t

/-- What a dominator holds for a place that has its operands from in front of the block, it supplies. -/
theorem supplies_of_holderAt (h : c.Valid) {b : Block} {pre post : List Instr} (hsplit : b.body = pre ++ post)
    {e : Expr} {k : Label} {t : Temp} (hholder : c.holderAt? b pre.length e k = some t)
    (hpre : ∀ j ∈ pre, ∀ x, j.dest? = some x → x ∉ e.temps) : Supplies c b pre e k t := by
  obtain ⟨p, holder, hp, hheld, rfl, hclean, hbetween⟩ := holderAt?_eq_some.1 hholder
  rw [hsplit, List.take_left] at hclean
  exact ⟨⟨p, hp, holder.index, mem_of_lookup hheld⟩, h.undisturbed hbetween,
    fun j hj x hx => ⟨fun hxt => hclean j hj (hxt ▸ hx), hpre j hj x hx⟩⟩

/-! ## The form -/

/-- An instruction at its place, or the copy that is put there. -/
def copied (copies : List (Nat × Temp)) (i : Instr × Nat) : Instr :=
  match copies.lookup i.2, i.1.dest? with
  | some t, some dest => .copy dest (.temp t)
  | _, _ => i.1

/-- The copies in one block of a graph. -/
def copiesAt (d : Dominance) (c : Cfg) (l : Label) (b : Block) : List (Nat × Temp) :=
  if b.label = l then c.reusable d b else []

/-- The bodies of a graph of which one block is visited. -/
def visit (d : Dominance) (c : Cfg) (l : Label) (b : Block) : List Instr :=
  b.body.zipIdx.map (copied (copiesAt d c l b))

theorem visit_of_ne {d : Dominance} {l : Label} {b : Block} (h : b.label ≠ l) : visit d c l b = b.body := by
  have : copied [] = Prod.fst := funext fun _ => rfl
  rw [visit, copiesAt, if_neg h, this, List.zipIdx_map_fst]

/-- What stands at a place: the instruction, or a copy of what a dominator holds. -/
theorem copied_cases_holderAt {d : Dominance} {l : Label} {b : Block} {pre post : List Instr} {i : Instr}
    (hsplit : b.body = pre ++ i :: post) : copied (copiesAt d c l b) (i, pre.length) = i ∨
      ∃ e x k t, copied (copiesAt d c l b) (i, pre.length) = .copy x (.temp t) ∧ Expr.of? i = some e ∧
        i.dest? = some x ∧ b.label = l ∧ k ∈ d.closestFirst l ∧ c.holderAt? b pre.length e k = some t ∧
        ∀ j ∈ pre, ∀ x, j.dest? = some x → x ∉ e.temps := by
  unfold copied
  split
  · rename_i t x ht hx
    by_cases hl : b.label = l
    · rw [copiesAt, if_pos hl] at ht
      obtain ⟨e, k, he, hk, hholder⟩ := exists_holderAt_of_mem_reusable hsplit (mem_of_lookup ht)
      exact .inr ⟨e, x, k, t, rfl, he, hx, hl, hl ▸ hk, hholder⟩
    · rw [copiesAt, if_neg hl] at ht
      cases ht
  · exact .inl rfl

/-- What stands at a place: the instruction, or a copy of what a dominator supplies. -/
theorem copied_cases (h : c.Valid) {d : Dominance} {l : Label} {b : Block} {pre post : List Instr} {i : Instr}
    (hsplit : b.body = pre ++ i :: post) : copied (copiesAt d c l b) (i, pre.length) = i ∨
      ∃ e x k t, copied (copiesAt d c l b) (i, pre.length) = .copy x (.temp t) ∧ Expr.of? i = some e ∧
        i.dest? = some x ∧ b.label = l ∧ k ∈ d.closestFirst l ∧ Supplies c b pre e k t := by
  refine (copied_cases_holderAt hsplit).imp_right ?_
  rintro ⟨e, x, k, t, heq, he, hx, hl, hk, hholder, hpre⟩
  exact ⟨e, x, k, t, heq, he, hx, hl, hk, supplies_of_holderAt h hsplit hholder hpre⟩

/-- Dominators that lie on every path to a block leave what they compute there. -/
theorem reused_copied (h : c.Valid) {d : Dominance} {l : Label}
    (hd : ∀ k ∈ d.closestFirst l, ∀ ls, c.Path ls l → k ∈ ls) {b : Block} (is : List Instr) :
    ∀ pre : List Instr, b.body = pre ++ is →
      c.Reused b.label pre is ((is.zipIdx pre.length).map (copied (copiesAt d c l b))) := by
  induction is with
  | nil => exact fun pre _ => .nil pre
  | cons i is ih =>
    intro pre hsplit
    rw [List.zipIdx_cons, List.map_cons]
    refine .cons ?_ (by simpa using ih (pre ++ [i]) (by simp [hsplit]))
    rcases copied_cases (d := d) (l := l) h hsplit with
      heq | ⟨e, x, k, t, heq, he, hx, rfl, hk, hsupplies⟩
    · rw [heq]
      exact .same i
    · rw [heq]
      refine .copy he hx (.inr fun ls hls => ⟨k, hd k hk ls hls, ?_⟩)
      obtain ⟨p, hp, hheld⟩ := hsupplies.left
      obtain ⟨j, hj, -, hjt⟩ := hheld.result
      exact ⟨p, Cfg.mem_of_block? hp, Cfg.label_of_block? hp, j, hj, hjt⟩

theorem reuses_visit (h : c.Valid) {d : Dominance} {l : Label}
    (hd : ∀ k ∈ d.closestFirst l, ∀ ls, c.Path ls l → k ∈ ls) : c.Reuses (visit d c l) :=
  fun b _ => reused_copied h hd b.body [] rfl

/-! ## Behaviour -/

/-- What holds at a point of a run that has come through `ls` to the block `b`: what has been computed in
the block is held, and so is what blocks passed have left for the block `l`, if control can still come
there or is there. -/
structure Follows (calls : Calls) (c : Cfg) (l : Label) (ls : List Label) (b : Block) (pre : List Instr)
    (σ : Store) : Prop where
  mem : b ∈ c.blocks
  path : c.Path ls b.label
  lasting : σ.Lasting calls c.bodies
  behind : Truthful c.bodies σ (HeldBehind pre)
  passed : Truthful c.bodies σ fun e t => ∃ k ∈ ls, k ≠ b.label ∧ LeftBy c k e t ∧ c.Undisturbed k l e t ∧
    (c.Leads b.label l ∨ b.label = l ∧ ∀ i ∈ pre, i.Spares e t)

namespace Follows

variable {calls : Calls} {l : Label} {ls : List Label} {b : Block} {pre post : List Instr} {σ σ' : Store}

/-- What is passed on to `l` is spared on the way. -/
theorem spares (h : Follows calls c l ls b pre σ) {e : Expr} {t : Temp} {k : Label} {i : Instr}
    (hi : i ∈ b.body) (hk : k ∈ ls) (hne : k ≠ b.label) (hund : c.Undisturbed k l e t)
    (hl : c.Leads b.label l ∨ b.label = l ∧ i.Spares e t) : i.Spares e t := by
  rcases hl with hl | ⟨-, hspares⟩
  · exact hund b h.mem hne.symm (h.path.leads hk) hl i hi
  · exact hspares

theorem exec (h : Follows calls c l ls b pre σ) {i : Instr} (hsplit : b.body = pre ++ i :: post)
    (hexec : σ.Exec calls i σ') : Follows calls c l ls b (pre ++ [i]) σ' := by
  have hi : i ∈ b.body := by simp [hsplit]
  have hmem : i ∈ c.bodies := Cfg.mem_bodies.2 ⟨b, h.mem, hi⟩
  refine ⟨h.mem, h.path, h.lasting.exec hmem hexec,
    h.behind.exec h.lasting hmem hexec fun _ _ => heldBehind_append,
    h.passed.exec h.lasting hmem hexec fun e t hheld => .inl ?_⟩
  obtain ⟨k, hk, hne, hleft, hund, hl⟩ := hheld
  refine ⟨⟨k, hk, hne, hleft, hund, hl.imp_right fun ⟨hbl, hpre⟩ => ⟨hbl, fun j hj => hpre j (by simp [hj])⟩⟩,
    h.spares hi hk hne hund (hl.imp_right fun ⟨hbl, hpre⟩ => ⟨hbl, hpre i (by simp)⟩)⟩

theorem phis (h : Follows calls c l ls b pre σ) {group : List Instr} {p : Label}
    (hsplit : b.body = pre ++ group ++ post) (hgroup : ∀ i ∈ group, i.isPhi = true)
    (hphis : σ.Phis p group σ') : Follows calls c l ls b (pre ++ group) σ' := by
  refine ⟨h.mem, h.path, h.lasting.congr hphis.toMemory,
    h.behind.phis hphis fun _ _ => heldBehind_append_phis hgroup, h.passed.phis hphis fun e t hheld => ?_⟩
  obtain ⟨k, hk, hne, hleft, hund, hl⟩ := hheld
  refine ⟨⟨k, hk, hne, hleft, hund, hl.imp_right fun ⟨hbl, hpre⟩ => ⟨hbl, fun j hj => hpre j (by simp [hj])⟩⟩,
    fun i hi => h.spares (by simp [hsplit, hi]) hk hne hund
      (hl.imp_right fun ⟨hbl, hpre⟩ => ⟨hbl, hpre i (by simp [hi])⟩)⟩

/-- Control comes to the next block. -/
theorem next (h : Follows calls c l ls b b.body σ) {b' : Block} (hb' : b' ∈ c.blocks)
    (hedge : c.Edge b.label b'.label) (hblock : c.block? b.label = some b) :
    Follows calls c l (b.label :: ls) b' [] σ := by
  refine ⟨hb', h.path.step hedge, h.lasting, fun _ _ ⟨_, hmem⟩ => (by cases hmem), fun e t hheld => ?_⟩
  obtain ⟨k, hk, -, hleft, hund, hl⟩ := hheld
  have hleads : c.Leads b.label l := by
    rcases hl with hl | ⟨rfl, -⟩
    · exact .head hedge hl
    · exact .single hedge
  by_cases hkb : k = b.label
  · subst hkb
    obtain ⟨p, hp, hheld⟩ := hleft
    cases hblock.symm.trans hp
    exact h.behind e t hheld
  · exact h.passed e t ⟨k, (List.mem_cons.1 hk).resolve_left hkb, hkb, hleft, hund, .inl hleads⟩

/-- At the entry nothing has been passed. -/
theorem entry (hb : b ∈ c.blocks) (hl : b.label = c.entry) (hlast : σ.Lasting calls c.bodies) :
    Follows calls c l [] b [] σ :=
  ⟨hb, hl ▸ .entry, hlast, fun _ _ ⟨_, hmem⟩ => (by cases hmem), fun _ _ ⟨_, hk, _⟩ => (by cases hk)⟩

/-- What a dominator supplies is held where it is needed. -/
theorem holding (h : Follows calls c b.label ls b pre σ) {e : Expr} {k : Label} {t : Temp} (hk : k ∈ ls)
    (hne : k ≠ b.label) (hs : Supplies c b pre e k t) : σ.Holding e t :=
  (h.passed e t ⟨k, hk, hne, hs.left, hs.undisturbed, .inr ⟨rfl, hs.spares⟩⟩).2

/-- Copies do what the computations did. -/
theorem exec_copied (hc : c.Valid) {d : Dominance}
    (hd : ∀ k ∈ d.closestFirst l, k ≠ l ∧ ∀ ls, c.Path ls l → k ∈ ls) (h : Follows calls c l ls b pre σ)
    {i : Instr} (hsplit : b.body = pre ++ i :: post) :
    σ.Exec calls (copied (copiesAt d c l b) (i, pre.length)) σ' ↔ σ.Exec calls i σ' := by
  rcases copied_cases (d := d) (l := l) hc hsplit with
    heq | ⟨e, x, k, t, heq, he, hx, rfl, hk, hsupplies⟩
  · rw [heq]
  · rw [heq]
    exact (h.holding ((hd k hk).2 ls h.path) (hd k hk).1 hsupplies).exec_copy_iff he hx

end Follows

/-- Copies take the place of computations, so that phis stand where they stood. -/
theorem copied_phis (h : c.Valid) {d : Dominance} {l : Label} {b : Block} (is : List Instr) :
    ∀ pre : List Instr, b.body = pre ++ is →
      ((is.zipIdx pre.length).map (copied (copiesAt d c l b))).takeWhile Instr.isPhi =
        is.takeWhile Instr.isPhi ∧
      ((is.zipIdx pre.length).map (copied (copiesAt d c l b))).dropWhile Instr.isPhi =
        (((is.dropWhile Instr.isPhi).zipIdx (pre ++ is.takeWhile Instr.isPhi).length).map
          (copied (copiesAt d c l b))) := by
  induction is with
  | nil => simp
  | cons i is ih =>
    intro pre hsplit
    have ih := ih (pre ++ [i]) (by simp [hsplit])
    rcases copied_cases (d := d) (l := l) h hsplit with heq | ⟨e, x, k, t, heq, he, -⟩
    · by_cases hi : i.isPhi = true
      · simpa [heq, hi] using ih
      · simp [heq, hi]
    · have hi : i.isPhi = false := (Expr.plain_of_of? he).1
      have hcopy : (copied (copiesAt d c l b) (i, pre.length)).isPhi = false := by
        rw [heq]
        rfl
      simp [hi, hcopy]

theorem isPhi_copied (h : c.Valid) {d : Dominance} {l : Label} {b : Block} {pre post : List Instr} {i : Instr}
    (hsplit : b.body = pre ++ i :: post) (hi : (copied (copiesAt d c l b) (i, pre.length)).isPhi = true ∨
      i.isPhi = true) : copied (copiesAt d c l b) (i, pre.length) = i ∧ i.isPhi = true := by
  rcases copied_cases (d := d) (l := l) h hsplit with heq | ⟨e, x, k, t, heq, he, -⟩
  · rw [heq] at hi ⊢
    exact ⟨rfl, hi.elim id id⟩
  · rw [heq, (Expr.plain_of_of? he).1] at hi
    exact absurd hi (by simp [Instr.isPhi])

/-- The body of a block does what it did. -/
theorem body_visit (hc : c.Valid) {d : Dominance} {l : Label}
    (hd : ∀ k ∈ d.closestFirst l, k ≠ l ∧ ∀ ls, c.Path ls l → k ∈ ls) {calls : Calls} {b : Block}
    {ls : List Label} {prev? : Option Label} {σ σ' : Store} (h : Follows calls c l ls b [] σ) :
    (Store.Body calls prev? (visit d c l b) σ σ' ↔ Store.Body calls prev? b.body σ σ') ∧
      (Store.Body calls prev? b.body σ σ' → Follows calls c l ls b b.body σ') := by
  -- What is to come is tied to its place in the block, as reuse depends on what stands before it.
  have hstart : ∃ pre, b.body = pre ++ b.body ∧ Follows calls c l ls b pre σ ∧
      visit d c l b = (b.body.zipIdx pre.length).map (copied (copiesAt d c l b)) := ⟨[], rfl, h, rfl⟩
  refine (Store.Body.carry_iff (R := fun is js σ => ∃ pre, b.body = pre ++ is ∧ Follows calls c l ls b pre σ ∧
    js = (is.zipIdx pre.length).map (copied (copiesAt d c l b))) ?_ ?_ hstart).imp_right fun h hbody => ?_
  · rintro _ σ ⟨pre, -, -, rfl⟩
    rfl
  · rintro i is _ σ ⟨pre, hsplit, h, rfl⟩
    rw [List.zipIdx_cons, List.map_cons]
    refine ⟨_, _, rfl, ⟨fun σ₁ => h.exec_copied hc hd hsplit, fun σ₁ hexec => ?_⟩, fun hphi => ?_⟩
    · exact ⟨pre ++ [i], by simp [hsplit], h.exec hsplit hexec, by simp⟩
    · obtain ⟨heq, hi⟩ := isPhi_copied hc hsplit hphi
      have hgroup : ∀ j ∈ i :: is.takeWhile Instr.isPhi, j.isPhi = true :=
        List.forall_mem_cons.2 ⟨hi, List.all_eq_true.1 List.all_takeWhile⟩
      obtain ⟨htake, hdrop⟩ := copied_phis (d := d) (l := l) (b := b) hc is (pre ++ [i]) (by simp [hsplit])
      have hsplit' : b.body = pre ++ i :: is.takeWhile Instr.isPhi ++ is.dropWhile Instr.isPhi := by
        simp [hsplit, List.takeWhile_append_dropWhile]
      exact ⟨heq, by simpa using htake, fun p σ₁ hphis => ⟨pre ++ i :: is.takeWhile Instr.isPhi, hsplit',
        h.phis hsplit' hgroup hphis, by simpa using hdrop⟩⟩
  · obtain ⟨pre, hpre, h', -⟩ := h hbody
    rw [List.append_nil] at hpre
    exact hpre ▸ h'

/-- Reuse in one block changes nothing that the graph does. -/
theorem runs_visit_iff (h : c.Valid) {d : Dominance} {l : Label}
    (hd : ∀ k ∈ d.closestFirst l, k ≠ l ∧ ∀ ls, c.Path ls l → k ∈ ls) {calls : Calls} {σ : Store} {f : Final}
    (hl : σ.Lasting calls c.bodies) :
    (c.withBodies (visit d c l)).Runs calls none c.entry σ f ↔ c.Runs calls none c.entry σ f := by
  have hstart : σ = σ ∧ ∀ b, c.block? c.entry = some b → ∃ ls, Follows calls c l ls b [] σ :=
    ⟨rfl, fun b hb => ⟨[], .entry (Cfg.mem_of_block? hb) (Cfg.label_of_block? hb) hl⟩⟩
  -- Control goes on to a block that follows as well.
  have hnext : ∀ {b ls σ t}, c.block? b.label = some b → Follows calls c l ls b b.body σ →
      σ.exit? b.jumps = some (.to t) → ∀ b', c.block? t = some b' →
        ∃ ls, Follows calls c l ls b' [] σ := by
    intro b ls σ t hb hfollows he b' hb'
    refine ⟨b.label :: ls, hfollows.next (Cfg.mem_of_block? hb') ?_ hb⟩
    rw [Cfg.label_of_block? hb']
    exact ⟨b, Cfg.mem_of_block? hb, rfl, Store.mem_targets_of_exit? he⟩
  constructor
  · refine fun hrun => hrun.simulate (R := fun _ m σ τ => τ = σ ∧ ∀ b, c.block? m = some b →
      ∃ ls, Follows calls c l ls b [] σ) ?_ hstart
    rintro prev? m _ σ σ' b' e ⟨rfl, hR⟩ hb' hbody he
    obtain ⟨b, hb, rfl⟩ := Cfg.exists_of_block?_withBodies hb'
    obtain rfl := Cfg.label_of_block? hb
    obtain ⟨ls, hfollows⟩ := hR b hb
    obtain ⟨hiff, hend⟩ := body_visit h hd hfollows
    have hbody' := hiff.1 hbody
    exact ⟨b, σ', hb, hbody', he, rfl, fun t ht => ⟨rfl, hnext hb (hend hbody') (ht ▸ he)⟩⟩
  · refine fun hrun => hrun.simulate (R := fun _ m σ τ => τ = σ ∧ ∀ b, c.block? m = some b →
      ∃ ls, Follows calls c l ls b [] σ) ?_ hstart
    rintro prev? m _ σ σ' b e ⟨rfl, hR⟩ hb hbody he
    obtain rfl := Cfg.label_of_block? hb
    obtain ⟨ls, hfollows⟩ := hR b hb
    obtain ⟨hiff, hend⟩ := body_visit h hd hfollows
    exact ⟨_, σ', Cfg.block?_withBodies hb, hiff.2 hbody, he, rfl,
      fun t ht => ⟨rfl, hnext hb (hend hbody) (ht ▸ he)⟩⟩

end ThreeAddress.CommonSubexpr

import Mathlib.Data.List.Nodup
import Mathlib.Data.List.Pairwise
import ThreeAddress.Proofs.Paths
/-!
# Strict static single assignment

In strict SSA form every local is written in one place, and every path to a read of it passes that
place (`Cfg.Strict`). From this follow the two facts that the passes rest on: what is written before
the place that writes `x` is written before every place that `x` reaches (`Strict.definedAt_trans`), and
no place is reached by what it writes itself (`Strict.not_definedAt_site`).
-/

namespace ThreeAddress.Cfg

/-- The block `l` writes `t`. -/
def Writes (c : Cfg) (l : Label) (t : Temp) : Prop :=
  ∃ b ∈ c.blocks, b.label = l ∧ ∃ i ∈ b.body, i.dest? = some t

/-- Every path from the entry to the point of the block `l` behind `pre` passes a write of `t`. To a
block that cannot be reached there is no path. -/
def DefinedAt (c : Cfg) (l : Label) (pre : List Instr) (t : Temp) : Prop :=
  (∃ i ∈ pre, i.dest? = some t) ∨ ∀ ls, c.Path ls l → ∃ k ∈ ls, c.Writes k t

/-- Strict SSA form. -/
structure Strict (params : List Temp) (c : Cfg) : Prop extends c.Valid where
  /-- No local is written twice. -/
  single : c.writtenLocals.Nodup
  params_notMem : ∀ t ∈ params, t ∉ c.writtenLocals
  /-- Reads of locals that are written are dominated by the write. -/
  read {b : Block} {pre post : List Instr} {i : Instr} {t : Temp} : b ∈ c.blocks →
    b.body = pre ++ i :: post → i.isPhi = false → t ∈ i.usedTemps → t ∈ c.writtenLocals →
    c.DefinedAt b.label pre t
  /-- So are the reads of jumps. -/
  jump {b : Block} {j : Instr} {t : Temp} : b ∈ c.blocks → j ∈ b.jumps → t ∈ j.usedTemps →
    t ∈ c.writtenLocals → c.DefinedAt b.label b.body t
  /-- A phi reads the source for a predecessor at the end of that block. -/
  phiRead {p b : Block} {dest t : Temp} {sources : PhiSources} : p ∈ c.blocks → b ∈ c.blocks →
    c.Edge p.label b.label → .phi dest sources ∈ b.body → sources.find? p.label = some (.temp t) →
    t ∈ c.writtenLocals → c.DefinedAt p.label p.body t

/-! ## Where a temporary is written -/

theorem mem_writtenLocals {c : Cfg} {t : Temp} : t ∈ c.writtenLocals ↔
    ∃ b ∈ c.blocks, ∃ i ∈ b.body, i.dest? = some t ∧ t.isGlobal = false := by
  simp only [writtenLocals, bodies, List.mem_filterMap, List.mem_flatMap, Instr.localDest?,
    Option.filter_eq_some_iff, Bool.not_eq_true']
  constructor
  · rintro ⟨i, ⟨b, hb, hi⟩, hd, hg⟩
    exact ⟨b, hb, i, hi, hd, hg⟩
  · rintro ⟨b, hb, i, hi, hd, hg⟩
    exact ⟨i, ⟨b, hb, hi⟩, hd, hg⟩

/-- Two places of a list that have one value of `g`, where no value occurs twice. -/
theorem eq_of_nodup_filterMap {α β : Type} {g : α → Option β} {xs : List α} (h : (xs.filterMap g).Nodup)
    {a a' b b' : List α} {x x' : α} {y : β} (hx : g x = some y) (hx' : g x' = some y)
    (hxs : xs = a ++ x :: b) (hxs' : xs = a' ++ x' :: b') : a = a' ∧ x = x' := by
  subst hxs
  induction a generalizing a' with
  | nil =>
    cases a' with
    | nil => exact ⟨rfl, (List.cons.inj hxs').1⟩
    | cons z a' =>
      obtain ⟨rfl, rfl⟩ := List.cons.inj hxs'
      simp [hx, hx'] at h
  | cons z a ih =>
    cases a' with
    | nil =>
      obtain ⟨rfl, rfl⟩ := List.cons.inj hxs'
      simp [hx, hx'] at h
    | cons z' a' =>
      obtain ⟨hz, htail⟩ := List.cons.inj hxs'
      have h : ((a ++ x :: b).filterMap g).Nodup := by
        refine h.sublist ?_
        exact (List.sublist_cons_self z _).filterMap g
      obtain ⟨ha, hx⟩ := ih h htail
      exact ⟨by rw [hz, ha], hx⟩

/-- Two lists of a family that have one value of `g`, where no value occurs twice in all of them. -/
theorem eq_of_nodup_flatMap {α β γ : Type} {xs : List α} {f : α → List β} {g : β → Option γ}
    (h : (xs.flatMap fun a => (f a).filterMap g).Nodup) {a a' : α} (ha : a ∈ xs) (ha' : a' ∈ xs) {x x' : β}
    (hx : x ∈ f a) (hx' : x' ∈ f a') {y : γ} (hy : g x = some y) (hy' : g x' = some y) : a = a' := by
  rw [List.nodup_flatMap] at h
  by_contra hne
  have : Std.Symm (Function.onFun List.Disjoint fun a : α => (f a).filterMap g) :=
    ⟨fun _ _ h _ h₁ h₂ => h h₂ h₁⟩
  exact h.2.forall ha ha' hne (List.mem_filterMap.2 ⟨x, hx, hy⟩) (List.mem_filterMap.2 ⟨x', hx', hy'⟩)

section

variable {params : List Temp} {c : Cfg} {t : Temp}

theorem writtenLocals_eq_flatMap (c : Cfg) :
    c.writtenLocals = c.blocks.flatMap fun b => b.body.filterMap Instr.localDest? := by
  simp [writtenLocals, bodies, List.filterMap_flatMap]

/-- A local is written in one block. -/
theorem eq_of_writes (h : c.writtenLocals.Nodup) (ht : t.isGlobal = false) {b b' : Block}
    (hb : b ∈ c.blocks) (hb' : b' ∈ c.blocks) {i i' : Instr} (hi : i ∈ b.body) (hi' : i' ∈ b'.body)
    (hd : i.dest? = some t) (hd' : i'.dest? = some t) : b = b' :=
  eq_of_nodup_flatMap (writtenLocals_eq_flatMap c ▸ h) hb hb' hi hi' (Instr.localDest?_eq_some.2 ⟨hd, ht⟩)
    (Instr.localDest?_eq_some.2 ⟨hd', ht⟩)

/-- A local is written in one place. -/
theorem eq_of_site (h : c.writtenLocals.Nodup) (ht : t.isGlobal = false) {b b' : Block}
    (hb : b ∈ c.blocks) (hb' : b' ∈ c.blocks) {pre pre' post post' : List Instr} {i i' : Instr}
    (hsplit : b.body = pre ++ i :: post) (hsplit' : b'.body = pre' ++ i' :: post')
    (hd : i.dest? = some t) (hd' : i'.dest? = some t) : b = b' ∧ pre = pre' ∧ i = i' := by
  obtain rfl := eq_of_writes h ht hb hb' (by simp [hsplit]) (by simp [hsplit']) hd hd'
  rw [writtenLocals_eq_flatMap, List.nodup_flatMap] at h
  exact ⟨rfl, eq_of_nodup_filterMap (h.1 b hb) (Instr.localDest?_eq_some.2 ⟨hd, ht⟩)
    (Instr.localDest?_eq_some.2 ⟨hd', ht⟩) hsplit hsplit'⟩

/-! ## What reaches a place -/

theorem DefinedAt.mono {l : Label} {pre : List Instr} (h : c.DefinedAt l pre t) {pre' : List Instr}
    (hpre : ∀ i ∈ pre, i ∈ pre') : c.DefinedAt l pre' t := by
  rcases h with ⟨i, hi, hd⟩ | h
  · exact .inl ⟨i, hpre i hi, hd⟩
  · exact .inr h

/-- What is written at the head of a block is written at the end of each predecessor. -/
theorem DefinedAt.of_edge (hc : c.Valid) {p : Block} (hp : p ∈ c.blocks) {l : Label}
    (he : c.Edge p.label l) (h : c.DefinedAt l [] t) : c.DefinedAt p.label p.body t := by
  rcases h with ⟨i, hi, -⟩ | h
  · simp at hi
  · by_cases hw : ∃ i ∈ p.body, i.dest? = some t
    · exact .inl hw
    · refine .inr fun ls hls => ?_
      obtain ⟨k, hk, hkt⟩ := h _ (hls.step he)
      rcases List.mem_cons.1 hk with rfl | hk
      · obtain ⟨b, hb, hl, hw'⟩ := hkt
        exact absurd (hc.eq_of_label hb hp hl ▸ hw') hw
      · exact ⟨k, hk, hkt⟩

theorem DefinedAt.head_or {l : Label} {pre : List Instr} (h : c.DefinedAt l pre t) :
    (∃ i ∈ pre, i.dest? = some t) ∨ c.DefinedAt l [] t := by
  rcases h with h | h
  · exact .inl h
  · exact .inr (.inr h)

theorem DefinedAt.concat {l : Label} {pre : List Instr} {i : Instr} (h : c.DefinedAt l (pre ++ [i]) t) :
    i.dest? = some t ∨ c.DefinedAt l pre t := by
  rcases h with ⟨j, hj, hd⟩ | h
  · rcases List.mem_append.1 hj with hj | hj
    · exact .inr (.inl ⟨j, hj, hd⟩)
    · exact .inl (List.mem_singleton.1 hj ▸ hd)
  · exact .inr (.inr h)

/-- What reaches the place that writes `x` reaches every place that `x` reaches. -/
theorem definedAt_trans (h : c.writtenLocals.Nodup) {x : Temp} (hx : x.isGlobal = false) {d : Block}
    {pre post : List Instr} {i : Instr} (hd : d ∈ c.blocks) (hsplit : d.body = pre ++ i :: post)
    (hi : i.dest? = some x) (ht : c.DefinedAt d.label pre t) {b : Block} {pre' post' : List Instr}
    (hb : b ∈ c.blocks) (hsplit' : b.body = pre' ++ post') (h' : c.DefinedAt b.label pre' x) :
    c.DefinedAt b.label pre' t := by
  rcases h' with ⟨j, hj, hjx⟩ | h'
  · obtain ⟨before, after, rfl⟩ := List.append_of_mem hj
    obtain ⟨rfl, rfl, rfl⟩ := eq_of_site h hx hd hb hsplit (by simpa using hsplit') hi hjx
    exact ht.mono fun k hk => List.mem_append_left _ hk
  · refine .inr fun ls hls => ?_
    obtain ⟨k, hk, d', hd', rfl, j, hj, hjx⟩ := h' ls hls
    obtain rfl := eq_of_writes h hx hd hd' (by simp [hsplit]) hj hi hjx
    obtain ⟨later, earlier, rfl, hpath⟩ := hls.split hk
    rcases ht with ⟨j, hj, hjt⟩ | ht
    · exact ⟨d.label, hk, d, hd, rfl, j, by simp [hsplit, hj], hjt⟩
    · obtain ⟨m, hm, hmt⟩ := ht earlier hpath
      exact ⟨m, by simp [hm], hmt⟩

/-- A place that can be reached is not reached by what it writes. -/
theorem not_definedAt_site (h : c.writtenLocals.Nodup) (ht : t.isGlobal = false) {b : Block}
    {pre post : List Instr} {i : Instr} (hb : b ∈ c.blocks) (hsplit : b.body = pre ++ i :: post)
    (hi : i.dest? = some t) (hr : c.Reachable b.label) : ¬ c.DefinedAt b.label pre t := by
  rintro (⟨j, hj, hjt⟩ | hpaths)
  · obtain ⟨before, after, rfl⟩ := List.append_of_mem hj
    obtain ⟨-, hpre, -⟩ := eq_of_site h ht hb hb hsplit (by simpa using hsplit) hi hjt
    simpa using congrArg List.length hpre
  · obtain ⟨ls, hls⟩ := hr
    obtain ⟨first, hfirst, hnot⟩ := hls.exists_first
    obtain ⟨k, hk, d, hd, rfl, j, hj, hjt⟩ := hpaths first hfirst
    obtain rfl := eq_of_writes h ht hb hd (by simp [hsplit]) hj hi hjt
    exact hnot hk

end

end ThreeAddress.Cfg

import ThreeAddress.Proofs.CommonSubexpr.Elimination
/-!
# Results that stay

In SSA form nothing undoes what a body has computed (`Steady`): the holder of a result is not written again, and a
block that can be reached does not write an operand behind a place that reads it (`Strict.steady`). So whatever the
body has computed is held at its end (`Steady.heldBehind`), and where reuse within the block finds nothing to do, no
expression is computed twice (`Steady.first_of_reuseBody`).
-/

namespace ThreeAddress

theorem Expr.exists_dest {i : Instr} {e : Expr} (h : Expr.of? i = some e) : ∃ t, i.dest? = some t := by
  have := (Expr.of?_eq_some.1 h).1
  cases i <;> first | exact ⟨_, rfl⟩ | cases this

namespace CommonSubexpr

/-- A body that undoes no result: an instruction spares those before it, and writes no operand of its own. -/
structure Steady (body : List Instr) : Prop where
  spares {pre post : List Instr} {i : Instr} {e : Expr} {t : Temp} : body = pre ++ i :: post → Result pre e t →
    i.Spares e t
  own {i : Instr} {e : Expr} {t : Temp} : i ∈ body → Expr.of? i = some e → i.dest? = some t → t ∉ e.temps

variable {pre post body : List Instr} {i : Instr} {e : Expr} {t : Temp}

theorem Result.mono (h : Result pre e t) (hpre : ∀ i ∈ pre, i ∈ body) : Result body e t := by
  obtain ⟨i, hi, hiet⟩ := h
  exact ⟨i, hpre i hi, hiet⟩

namespace Steady

theorem of_append (h : Steady (pre ++ post)) : Steady pre where
  spares hsplit hr := h.spares (by rw [hsplit, List.append_assoc, List.cons_append]) hr
  own hi := h.own (List.mem_append_left _ hi)

theorem computed? (h : Steady body) (hi : i ∈ body) (he : Expr.of? i = some e) (ht : i.dest? = some t) :
    Available.computed? i t = some e := by
  simp [Available.computed?, he, Option.filter_eq_some_iff, Expr.reads, h.own hi he ht]

/-- What is known to be held stays known, if instructions that spare it keep it, and if it is known behind the
computation. -/
theorem keeps (held : List Instr → Expr → Temp → Prop) (hresult : ∀ {pre e t}, held pre e t → Result pre e t)
    (hspares : ∀ {pre i e t}, held pre e t → i.Spares e t → ∃ t, held (pre ++ [i]) e t)
    (hcomputed : ∀ {pre i e t}, i.dest? = some t → Available.computed? i t = some e → ∃ t, held (pre ++ [i]) e t)
    (h : Steady body) (hr : Result body e t) : ∃ t, held body e t := by
  induction body using List.reverseRecOn generalizing t with
  | nil =>
    obtain ⟨i, hi, -⟩ := hr
    cases hi
  | append_singleton pre i ih =>
    obtain ⟨j, hj, hje, hjt⟩ := hr
    rcases List.mem_append.1 hj with hj | hj
    · obtain ⟨t, hheld⟩ := ih h.of_append ⟨j, hj, hje, hjt⟩
      exact hspares hheld (h.spares rfl (hresult hheld))
    · obtain rfl := List.mem_singleton.1 hj
      exact hcomputed hjt (h.computed? (by simp) hje hjt)

end Steady

/-! ## What is held behind a body -/

/-- What is held was computed at the place that is noted. -/
theorem exists_of_mem_heldAtExit {holder : Holder} (h : (e, holder) ∈ heldAtExit body) :
    ∃ i, body[holder.index]? = some i ∧ Expr.of? i = some e ∧ i.dest? = some holder.temp := by
  induction body using List.reverseRecOn with
  | nil => cases h
  | append_singleton pre i ih =>
    have hpre : (e, holder) ∈ heldAtExit pre → ∃ j, (pre ++ [i])[holder.index]? = some j ∧ Expr.of? j = some e ∧
        j.dest? = some holder.temp := fun h => by
      obtain ⟨j, hj, hjet⟩ := ih h
      exact ⟨j, (List.getElem?_append_left (List.getElem?_eq_some_iff.1 hj).1).trans hj, hjet⟩
    rw [heldAtExit_append] at h
    unfold heldStep at h
    split at h
    · exact hpre h
    · rename_i dest hdest
      dsimp only at h
      split at h
      · rename_i x hx
        rcases List.mem_cons.1 h with heq | h
        · cases heq
          exact ⟨i, by simp, (Option.filter_eq_some_iff.1 hx).1, hdest⟩
        · exact hpre (List.mem_filter.1 (List.mem_filter.1 h).1).1
      · exact hpre (List.mem_filter.1 h).1

theorem heldBehind_of_spares (h : HeldBehind pre e t) (hi : i.Spares e t) : ∃ t, HeldBehind (pre ++ [i]) e t := by
  obtain ⟨index, hmem⟩ := h
  simp only [HeldBehind, heldAtExit_append]
  unfold heldStep
  split
  · exact ⟨t, index, hmem⟩
  · rename_i dest hdest
    have hspared : (e, ⟨index, t⟩) ∈ (heldAtExit pre).filter fun h => h.2.temp ≠ dest && !h.1.reads dest := by
      obtain ⟨hne, hnot⟩ := hi dest hdest
      exact List.mem_filter.2 ⟨hmem, by simp [hne.symm, Expr.reads, hnot]⟩
    split
    · rename_i x hx
      by_cases hex : e = x
      · exact ⟨dest, pre.length, hex ▸ List.mem_cons_self⟩
      · exact ⟨t, index, .tail _ (List.mem_filter.2 ⟨hspared, by simpa using hex⟩)⟩
    · exact ⟨t, index, hspared⟩

theorem heldBehind_of_computed (hdest : i.dest? = some t) (hi : Available.computed? i t = some e) :
    HeldBehind (pre ++ [i]) e t := by
  refine ⟨pre.length, ?_⟩
  rw [heldAtExit_append]
  simp [heldStep, hdest, hi]

/-- At the end of a body some temporary holds whatever the body has computed. -/
theorem Steady.heldBehind (h : Steady body) (hr : Result body e t) : ∃ t, HeldBehind body e t :=
  h.keeps HeldBehind HeldBehind.result heldBehind_of_spares (fun hdest hi => ⟨_, heldBehind_of_computed hdest hi⟩) hr

/-! ## What is available -/

theorem reuseBody_append (av : Available) (pre post : List Instr) :
    reuseBody av (pre ++ post) = reuseBody av pre ++ reuseBody (pre.foldl Available.after av) post := by
  induction pre generalizing av with
  | nil => rfl
  | cons i pre ih => simp [reuseBody, ih]

@[simp] theorem length_reuseBody (av : Available) (is : List Instr) : (reuseBody av is).length = is.length := by
  induction is generalizing av with
  | nil => rfl
  | cons i is ih => simp [reuseBody, ih]

theorem computes_foldl_after (pre : List Instr) : Computes (pre.foldl Available.after []) pre := by
  induction pre using List.reverseRecOn with
  | nil => exact nofun
  | append_singleton pre i ih => simpa using ih.after i

theorem mem_after_of_spares {av : Available} (h : (e, t) ∈ av) (hi : i.Spares e t) : ∃ t, (e, t) ∈ av.after i := by
  unfold Available.after
  split
  · exact ⟨t, h⟩
  · rename_i dest hdest
    have hspared : (e, t) ∈ av.kill dest := by
      obtain ⟨hne, hnot⟩ := hi dest hdest
      exact List.mem_filter.2 ⟨h, by simp [hne.symm, Expr.reads, hnot]⟩
    split
    · dsimp only
      split
      · exact ⟨t, hspared⟩
      · exact ⟨t, List.mem_append_left _ hspared⟩
    · exact ⟨t, hspared⟩

theorem mem_after_of_computed (av : Available) (hdest : i.dest? = some t) (hi : Available.computed? i t = some e) :
    ∃ t, (e, t) ∈ av.after i := by
  simp only [Available.after, hdest, hi]
  split
  · rename_i hsome
    obtain ⟨u, hu⟩ := Option.isSome_iff_exists.1 hsome
    exact ⟨u, mem_of_lookup hu⟩
  · exact ⟨t, by simp⟩

/-- Behind a body whatever it has computed is available. -/
theorem Steady.available (h : Steady body) (hr : Result body e t) : ∃ t, (e, t) ∈ body.foldl Available.after [] :=
  h.keeps (fun pre e t => (e, t) ∈ pre.foldl Available.after []) (fun hmem => computes_foldl_after _ _ _ hmem)
    (fun hmem hi => by simpa using mem_after_of_spares hmem hi)
    (fun hdest hi => by simpa using mem_after_of_computed _ hdest hi) hr

/-- A body in which there is nothing to reuse computes no expression twice. -/
theorem Steady.first_of_reuseBody (h : Steady body) (hfixed : reuseBody [] body = body)
    (hsplit : body = pre ++ i :: post) (he : Expr.of? i = some e) : ∀ j ∈ pre, Expr.of? j ≠ some e := by
  intro j hj hje
  obtain ⟨t, ht⟩ := Expr.exists_dest hje
  obtain ⟨u, hu⟩ := (hsplit ▸ h).of_append.available ⟨j, hj, hje, ht⟩
  obtain ⟨x, hx⟩ := Expr.exists_dest he
  obtain ⟨v, hv⟩ : ∃ v, (pre.foldl Available.after []).lookup e = some v := by
    refine Option.ne_none_iff_exists'.1 fun hnone => ?_
    simpa using List.lookup_eq_none_iff.1 hnone _ hu
  have hcopy : reuse (pre.foldl Available.after []) i = .copy x (.temp v) := by
    simp [reuse, he, hx, hv]
  rw [hsplit, reuseBody_append, reuseBody] at hfixed
  obtain ⟨-, htail⟩ := List.append_inj hfixed (length_reuseBody [] pre)
  obtain ⟨hi, -⟩ := List.cons.inj htail
  rw [← hi, hcopy] at he
  cases he

/-! ## The first computation of an expression -/

/-- The first computation of an expression is found, unless an operand has been written before. -/
theorem mem_cleanFirst {index : Nat} {is before after : List (Instr × Nat)} {written : List Temp} {seen : List Expr}
    (hsplit : is = before ++ (i, index) :: after) (he : Expr.of? i = some e) (hseen : e ∉ seen)
    (hfirst : ∀ j ∈ before, Expr.of? j.1 ≠ some e) (hwritten : ∀ u ∈ e.temps, u ∉ written)
    (hclean : ∀ j ∈ before, ∀ x, j.1.dest? = some x → x ∉ e.temps) : (index, e) ∈ cleanFirst written seen is := by
  induction before generalizing is written seen with
  | nil =>
    subst hsplit
    have : ¬ e.temps.any written.contains = true := by simpa using hwritten
    simp only [List.nil_append, cleanFirst, he]
    rw [if_neg (by simpa using hseen), if_neg this]
    exact List.mem_cons_self
  | cons j before ih =>
    subst hsplit
    obtain ⟨j, n⟩ := j
    -- Whatever stands before the computation is passed, with nothing written that it reads.
    have hrest : ∀ {seen}, e ∉ seen →
        (index, e) ∈ cleanFirst (j.dest?.toList ++ written) seen (before ++ (i, index) :: after) := fun hseen => by
      refine ih rfl hseen (fun k hk => hfirst k (.tail _ hk)) (fun u hu hmem => ?_) fun k hk => hclean k (.tail _ hk)
      rcases List.mem_append.1 hmem with hmem | hmem
      · exact hclean _ List.mem_cons_self u (by simpa using hmem) hu
      · exact hwritten u hu hmem
    simp only [List.cons_append, cleanFirst]
    split
    · exact hrest hseen
    · rename_i e' he'
      have hne : e ∉ e' :: seen := by
        rintro (_ | hmem)
        · exact hfirst _ List.mem_cons_self he'
        · exact hseen ‹_›
      split
      · exact hrest hseen
      split
      · exact hrest hne
      · exact .tail _ (hrest hne)

end CommonSubexpr

end ThreeAddress

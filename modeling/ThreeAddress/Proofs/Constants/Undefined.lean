import Mathlib.Data.List.Induction
import ThreeAddress.Proofs.Constants.Form
import ThreeAddress.Proofs.Supplied
/-!
# Reads of what is never defined

The folding deletes what reads a temporary that is never defined, with one exception: arguments are staged all
the same. So a violation is the argument of a call (`ofArgument_of_undefinedRead`). There is none where the
graph is in SSA form and what it needs of the versioned names is written (`foldConstants_ok_of_supplied`): if the
graph defines what it needs before it reads it (`Cfg.Defines`), then along a path that executes whatever is defined
has risen (`value_ne_unused`), as each value rises with the operands of the instruction that writes it.
-/

namespace ThreeAddress.Constants

variable {f : Facts} {c : Cfg}

theorem Value.constant_ne_unused (k : Int64) : Value.constant k ≠ .unused := by simp

theorem Value.varies_ne_unused : Value.varies ≠ .unused := by simp

theorem Value.ne_unused_of_le {a b : Value} (h : a ≤ b) (ha : a ≠ .unused) : b ≠ .unused := by
  rintro rfl
  rw [Value.le_def, Value.join_unused] at h
  exact ha h

/-! ## What is left undefined -/

theorem mem_usedTemps_of_fold {i : Instr} {t : Temp} (h : t ∈ (i.mapOperands (fold f)).usedTemps) :
    t ∈ i.usedTemps := by
  obtain ⟨o, ho, hot⟩ := Instr.mem_usedTemps_mapOperands.1 h
  exact Instr.mem_usedTemps.2 (eq_of_fold hot ▸ ho)

/-- The jumps that remain read nothing that is never defined. -/
theorem operand_ne_unused_of_mem_resolveJumps {b : Block} (hb : b.EndsOnce) {j : Instr}
    (hj : j ∈ resolveJumps f b.jumps) {o : Operand} (ho : o ∈ j.uses) : f.operand o ≠ .unused := by
  rcases mem_resolveJumps hj with hnil | ⟨hj, hbranch, hret⟩
  · rw [hnil] at ho
    cases ho
  · have hterminator := hb.isTerminator_of_mem hj
    cases j with
    | branch cond v l =>
      obtain rfl := List.mem_singleton.1 ho
      rw [hbranch _ _ _ rfl]
      exact Value.varies_ne_unused
    | ret v? =>
      obtain rfl : v? = some o := Option.mem_toList.1 ho
      exact hret o rfl
    | jump l => cases ho
    | _ => cases hterminator

/-- The read of a versioned name that the procedure stages as an argument. -/
structure UndefinedRead.OfArgument (proc : String) (u : UndefinedRead) : Prop where
  proc_eq : u.proc = proc
  instr_eq : ∃ n, u.instr = .param n (.temp u.temp)
  versioned : u.temp.isVersioned = true

theorem isVersioned_of_unused {t : Temp} (h : (analyze c).value t = .unused) : t.isVersioned = true := by
  by_contra ht
  rw [(Facts.closed_analyze c).value_of_not_versioned (by simpa using ht)] at h
  cases h

/-- Folding leaves no violation but arguments of a block that executes. -/
theorem ofArgument_of_undefinedRead (h : ∀ b ∈ c.blocks, b.EndsOnce) {u : UndefinedRead}
    (hu : (foldConstants c).2 = some u) : u.OfArgument c.proc ∧ (analyze c).value u.temp = .unused ∧
      ∃ b ∈ c.blocks, (analyze c).executes b.label = true ∧ u.instr ∈ b.body := by
  obtain ⟨b', hb', hu⟩ := List.exists_of_findSome?_eq_some hu
  obtain ⟨i', hi', hu⟩ := List.exists_of_findSome?_eq_some hu
  obtain ⟨t, ht, rfl⟩ := Option.map_eq_some_iff.1 hu
  obtain ⟨b, hb, hx, rfl⟩ := mem_folded.1 hb'
  have hunused : (analyze c).value t = .unused := by simpa using List.find?_some ht
  have hread : t ∈ i'.usedTemps := List.mem_of_find?_eq_some ht
  obtain ⟨hi', hphi⟩ := List.mem_filter.1 hi'
  have hphi : i'.isPhi = false := by simpa using hphi
  rcases List.mem_append.1 hi' with hi' | hj'
  · obtain ⟨i, hi, hk, rfl⟩ := Rewriting.mem_body.1 hi'
    rw [Rewriting.isPhi_instr] at hphi
    rw [(rewriting _).instr_of_not_phi _ hphi] at hread ⊢
    have hread := mem_usedTemps_of_fold hread
    -- what reads it was deleted, unless it is an argument
    have hdefined : isUndefined (analyze c) i = false := by
      simp only [rewriting, Bool.and_eq_true, Bool.not_eq_true'] at hk
      exact hk.1
    have hparam : ∃ n v, i = .param n v := by
      by_contra hne
      rw [isUndefined_of_read (fun n v he => hne ⟨n, v, he⟩) hphi hread hunused] at hdefined
      cases hdefined
    obtain ⟨n, v, rfl⟩ := hparam
    obtain rfl : v = .temp t := (List.mem_singleton.1 (Instr.mem_usedTemps.1 hread)).symm
    have hsame : (Instr.param n (.temp t)).mapOperands (rewriting (analyze c)).operand = .param n (.temp t) := by
      simp [rewriting, Instr.mapOperands, fold, hunused, Value.constant?]
    refine ⟨⟨rfl, ⟨n, hsame⟩, isVersioned_of_unused hunused⟩, hunused, b, hb, hx, ?_⟩
    dsimp only
    rwa [hsame]
  · obtain ⟨j, hj, rfl⟩ := List.mem_map.1 hj'
    have hread := Instr.mem_usedTemps.1 (mem_usedTemps_of_fold hread)
    exact absurd hunused (operand_ne_unused_of_mem_resolveJumps (h b hb) hj hread)

/-! ## What executes -/

/-- Edges that execute lead from the entry to what executes. -/
theorem leads_of_executes {l : Label} (h : (analyze c).executes l = true) :
    Relation.ReflTransGen (fun k l => (k, l) ∈ (analyze c).edges) c.entry l := by
  revert l
  refine Facts.analyze_induction (P := fun f => ∀ {l}, f.executes l = true →
    Relation.ReflTransGen (fun k l => (k, l) ∈ f.edges) c.entry l) ?_ ?_ ?_
  · intro l hl
    obtain rfl : l = c.entry := by simpa [Facts.start, Facts.executes] using hl
    exact .refl
  · intro f e hf he l hl
    have hmono : ∀ {k}, f.executes k = true →
        Relation.ReflTransGen (fun k l => (k, l) ∈ (f.addEdge e).edges) c.entry k := fun hk =>
      Relation.ReflTransGen.mono (fun _ _ hmem => (Facts.mem_edges_addEdge f e _).2 (.inr hmem)) _ _ (hf hk)
    simp only [Facts.executes, List.contains_iff_mem, Facts.mem_blocks_addEdge] at hl
    rcases hl with rfl | hl
    · obtain ⟨b, hb, hx, hsource, -⟩ := Facts.mem_openEdges.1 he
      exact (hmono (hsource ▸ hx)).tail ((Facts.mem_edges_addEdge f e _).2 (.inl rfl))
    · exact hmono (by simpa [Facts.executes] using hl)
  · intro f t v hf l hl
    simpa using hf (by simpa [Facts.executes] using hl)

/-- What executes is in reach in the graph that is left. -/
theorem reachable_of_executes {l : Label} (h : (analyze c).executes l = true) :
    (Folding.folded ⟨analyze c, c⟩).Reachable l := by
  have hleads := leads_of_executes h
  clear h
  induction hleads with
  | refl => exact Cfg.reachable_entry (Folding.folded ⟨analyze c, c⟩)
  | tail _ hedge ih => exact ih.step (edge_folded.2 (by simpa [Facts.follows] using hedge))

theorem edge_of_folded {k l : Label} (h : (Folding.folded ⟨analyze c, c⟩).Edge k l) : c.Edge k l := by
  obtain ⟨b, hb, -, rfl, ht⟩ := Facts.open_of_follows (edge_folded.1 h)
  exact ⟨b, hb, rfl, Facts.mem_targets_of_openTargets ht⟩

theorem path_of_folded {ls : List Label} {l : Label} (h : (Folding.folded ⟨analyze c, c⟩).Path ls l) :
    c.Path ls l :=
  Cfg.Path.mono (c := Folding.folded ⟨analyze c, c⟩) rfl (fun _ _ => edge_of_folded) h

/-! ## Values rise with operands -/

namespace Facts

theorem operand_ne_unused {o : Operand} (h : ∀ u, o = .temp u → f.value u ≠ .unused) : f.operand o ≠ .unused := by
  cases o with
  | temp u => exact h u rfl
  | imm k => exact Value.constant_ne_unused k

theorem exists_binary (op : BinaryOp) {a b : Value} (ha : a ≠ .unused) (hb : b ≠ .unused) :
    ∃ v, binary? op a b = some v ∧ v ≠ .unused := by
  cases a with
  | unused => exact absurd rfl ha
  | varies => exact ⟨.varies, by cases b <;> rfl, Value.varies_ne_unused⟩
  | constant u =>
    cases b with
    | unused => exact absurd rfl hb
    | varies => exact ⟨.varies, rfl, Value.varies_ne_unused⟩
    | constant v =>
      refine ⟨_, rfl, ?_⟩
      cases op.eval u v with
      | none => exact Value.varies_ne_unused
      | some k => exact Value.constant_ne_unused k

theorem exists_unary (op : UnaryOp) {a : Value} (ha : a ≠ .unused) : ∃ v, unary? op a = some v ∧ v ≠ .unused := by
  cases a with
  | unused => exact absurd rfl ha
  | varies => exact ⟨.varies, rfl, Value.varies_ne_unused⟩
  | constant u => exact ⟨_, rfl, Value.constant_ne_unused _⟩

/-- What is written from operands that have risen rises. -/
theorem exists_evaluate {i : Instr} {t : Temp} (hphi : i.isPhi = false) (ht : i.dest? = some t)
    (h : ∀ u ∈ i.usedTemps, f.value u ≠ .unused) (l : Label) : ∃ v, f.evaluate? l i = some v ∧ v ≠ .unused := by
  have hoperand : ∀ o ∈ i.uses, f.operand o ≠ .unused := fun o ho =>
    operand_ne_unused fun u hu => h u (Instr.mem_usedTemps.2 (hu ▸ ho))
  cases i with
  | const d k => exact ⟨_, rfl, Value.constant_ne_unused k⟩
  | copy d s => exact ⟨_, rfl, hoperand s (by simp [Instr.uses])⟩
  | binary d op x y =>
    exact exists_binary op (hoperand x (by simp [Instr.uses])) (hoperand y (by simp [Instr.uses]))
  | unary d op x => exact exists_unary op (hoperand x (by simp [Instr.uses]))
  | call d target argc => exact ⟨_, rfl, Value.varies_ne_unused⟩
  | phi => cases hphi
  | _ => cases ht

end Facts

/-! ## Reads that follow writes -/

variable {S : Temp → Prop}

/-- Along a block that executes, what is defined has risen if that is so at its head and of its phis. -/
theorem Facts.value_ne_unused_within (hf : f.Closed c) (h : c.Defines S) {b : Block}
    (hb : b ∈ c.blocks) (hr : c.Reachable b.label) (hx : f.executes b.label = true)
    (hhead : ∀ t, S t → c.DefinedAt b.label [] t → f.value t ≠ .unused)
    (hphis : ∀ t sources, .phi t sources ∈ b.body → S t → f.phi b.label sources ≠ .unused) {pre post : List Instr}
    (hsplit : b.body = pre ++ post) {t : Temp} (ht : S t) (hdef : c.DefinedAt b.label pre t) :
    f.value t ≠ .unused := by
  induction pre using List.reverseRecOn generalizing post t with
  | nil => exact hhead t ht hdef
  | append_singleton pre i ih =>
    rw [List.append_assoc] at hsplit
    have hi : i ∈ b.body := by simp [hsplit]
    rcases hdef.concat with hd | hdef
    · cases hphi : i.isPhi with
      | true =>
        cases i with
        | phi t' sources =>
          cases hd
          exact Value.ne_unused_of_le (hf.value hb hx hi rfl rfl) (hphis t sources hi ht)
        | _ => cases hphi
      | false =>
        -- The operands have been defined before it, or they have no version and may hold anything.
        have hread : ∀ u ∈ i.usedTemps, f.value u ≠ .unused := by
          intro u hu
          obtain ⟨hS, hdefined⟩ := h.read hb hr hsplit hphi hu
          cases hversion : u.isVersioned with
          | true => exact ih hsplit hS (hdefined hversion)
          | false => exact hf.value_of_not_versioned hversion ▸ Value.varies_ne_unused
        obtain ⟨v, hv, hne⟩ := exists_evaluate hphi hd hread b.label
        exact Value.ne_unused_of_le (hf.value hb hx hi hd hv) hne
    · exact ih hsplit ht hdef

/-- Along a path that executes, what is defined has risen, and so have the phis. -/
theorem value_ne_unused (h : c.Defines S) {ls : List Label} {l : Label}
    (hp : (Folding.folded ⟨analyze c, c⟩).Path ls l) :
    ∀ {b : Block}, b ∈ c.blocks → b.label = l → ∀ {pre post : List Instr}, b.body = pre ++ post →
      ∀ {t : Temp}, S t → c.DefinedAt b.label pre t → (analyze c).value t ≠ .unused := by
  have hf := Facts.closed_analyze c
  induction hp with
  | entry =>
    -- Nothing is defined where the entry begins, and it has no phis.
    intro b hb hl pre post hsplit t ht hdef
    have hl : b.label = c.entry := hl
    have hdef : c.DefinedAt b.label pre t := hl ▸ hdef
    refine Facts.value_ne_unused_within hf h hb (hl ▸ c.reachable_entry) (hl ▸ hf.entry) ?_ ?_ hsplit ht hdef
    · rintro u - (⟨i, hi, -⟩ | hpaths)
      · cases hi
      · obtain ⟨k, hk, -⟩ := hpaths [] (hl ▸ .entry)
        cases hk
    · intro u sources hi
      cases h.entryPhi hb hl hi
  | @step ls k l hpath hedge ih =>
    -- What is defined where the block begins is so where the one before it ends.
    intro b hb hl pre post hsplit t ht hdef
    subst hl
    have hfollows := edge_folded.1 hedge
    have hcedge : c.Edge k b.label := edge_of_folded hedge
    have hk : c.Reachable k := ⟨ls, path_of_folded hpath⟩
    obtain ⟨p, hp, rfl, -⟩ := id hcedge
    have hend := fun {u} => ih hp rfl (List.append_nil _).symm (t := u)
    refine Facts.value_ne_unused_within hf h hb (hk.step hcedge) (hf.target hfollows) ?_ ?_ hsplit ht hdef
    · exact fun u hu hdef => hend hu (hdef.of_edge h.toValid hp hcedge)
    · intro u sources hi hu
      obtain ⟨o, ho⟩ := PhiSources.mem_labels.1 (h.phiSource hb hi hcedge)
      refine Value.ne_unused_of_le (Facts.operand_le_phi ho hfollows) (Facts.operand_ne_unused fun w hw => ?_)
      subst hw
      obtain ⟨hS, hdefined⟩ := h.phiRead hp hb hk hcedge hi hu ho
      cases hversion : w.isVersioned with
      | true => exact hend hS (hdefined hversion)
      | false => exact hf.value_of_not_versioned hversion ▸ Value.varies_ne_unused

/-- What a block that executes reads outside its phis has risen. -/
theorem value_ne_unused_of_read (h : c.Defines S) {b : Block} (hb : b ∈ c.blocks)
    (hx : (analyze c).executes b.label = true) {i : Instr} (hi : i ∈ b.body) (hphi : i.isPhi = false) {t : Temp}
    (ht : t ∈ i.usedTemps) : (analyze c).value t ≠ .unused := by
  obtain ⟨ls, hls⟩ := reachable_of_executes hx
  obtain ⟨pre, post, hsplit⟩ := List.append_of_mem hi
  obtain ⟨hS, hdefined⟩ := h.read hb ⟨ls, path_of_folded hls⟩ hsplit hphi ht
  intro hunused
  exact value_ne_unused h hls hb rfl hsplit hS (hdefined (isVersioned_of_unused hunused)) hunused

/-- Where the graph defines what it needs before it reads it, folding leaves no violation. -/
theorem foldConstants_ok_of_defines (h : c.Defines S) (hends : ∀ b ∈ c.blocks, b.EndsOnce) :
    (foldConstants c).2 = none := by
  cases hu : (foldConstants c).2 with
  | none => rfl
  | some u =>
    obtain ⟨hargument, hunused, b, hb, hx, hi⟩ := ofArgument_of_undefinedRead hends hu
    obtain ⟨n, hinstr⟩ := hargument.instr_eq
    rw [hinstr] at hi
    have hread : u.temp ∈ (Instr.param n (.temp u.temp)).usedTemps := Instr.mem_usedTemps.2 List.mem_cons_self
    exact absurd hunused (value_ne_unused_of_read h hb hx hi rfl hread)

/-- Where what is needed is written, folding leaves no violation. -/
theorem foldConstants_ok_of_supplied {params : List Temp} (h : c.SsaForm params) (hs : c.Supplied) :
    (foldConstants c).2 = none := by
  obtain ⟨S, hS⟩ := hs
  exact foldConstants_ok_of_defines (h.defines hS) h.endsOnce

end ThreeAddress.Constants

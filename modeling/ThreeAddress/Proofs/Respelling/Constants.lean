import ThreeAddress.Constants.Folding
import ThreeAddress.Proofs.Respelling.Basic
/-!
# Constants of respelled code

The facts about a respelled graph are the respelled facts (`Constants.analyze_respell`): each round of the analysis
does the same under the new names, and as different facts stay different under them, the rounds also come to an end at
the same time. Names without a version start at another value than those with one, which is why a respelling keeps
kinds. Folding by these facts leaves the respelled graph (`Constants.foldConstants_respell`).
-/

namespace ThreeAddress

/-! ## Tables under other keys -/

namespace Table

variable {α β γ : Type} [DecidableEq α] [DecidableEq γ] {f : α → γ}

def mapKeys (f : α → γ) (t : Table α β) : Table γ β := ⟨t.entries.map fun e => (f e.1, e.2)⟩

theorem get?_mapKeys (hf : Function.Injective f) (t : Table α β) (k : α) : (t.mapKeys f).get? (f k) = t.get? k := by
  have hlookup := lookup_map hf id k t.entries
  rwa [Option.map_id, id_eq] at hlookup

theorem set_mapKeys (hf : Function.Injective f) (t : Table α β) (k : α) (v : β) :
    (t.mapKeys f).set (f k) v = (t.set k v).mapKeys f := by
  obtain ⟨es⟩ := t
  refine congrArg Table.mk ?_
  dsimp only [mapKeys, set]
  induction es with
  | nil => rfl
  | cons e es ih =>
    rw [List.map_cons, setEntry, setEntry, ih]
    by_cases h : k = e.1
    · rw [if_pos h, if_pos (congrArg f h), List.map_cons]
    · rw [if_neg h, if_neg (hf.ne h), List.map_cons]

omit [DecidableEq α] [DecidableEq γ] in
theorem mapKeys_injective (hf : Function.Injective f) : Function.Injective (mapKeys (β := β) f) := by
  rintro ⟨es⟩ ⟨es'⟩ h
  have hpair : Function.Injective fun e : α × β => (f e.1, e.2) := by
    intro e e' he
    obtain ⟨hk, hv⟩ := Prod.mk.inj he
    exact Prod.ext (hf hk) hv
  exact congrArg Table.mk (hpair.list_map (congrArg entries h))

end Table

/-- Two iterations that take the same turns up to an injective map. -/
theorem untilStable_map {α β : Type} [DecidableEq α] [DecidableEq β] {g : α → β} (hg : Function.Injective g)
    {f : α → α} {f' : β → β} (h : ∀ a, f' (g a) = g (f a)) (n : Nat) (a : α) :
    untilStable f' n (g a) = g (untilStable f n a) := by
  induction n generalizing a with
  | zero => rfl
  | succ n ih =>
    rw [untilStable, untilStable, h, ih]
    by_cases ha : f a = a
    · rw [if_pos ha, if_pos (congrArg g ha)]
    · rw [if_neg ha, if_neg (hg.ne ha)]

namespace Constants

variable (σ : Respelling)

/-! ## The analysis -/

namespace Facts

def respell (f : Facts) : Facts := ⟨f.blocks, f.edges, f.values.mapKeys σ⟩

variable (f : Facts)

theorem respell_injective : Function.Injective (respell σ) := by
  rintro ⟨ls, es, vs⟩ ⟨ls', es', vs'⟩ h
  simp only [respell, Facts.mk.injEq, (Table.mapKeys_injective σ.injective).eq_iff] at h ⊢
  exact h

@[simp] theorem value_respell (t : Temp) : (f.respell σ).value (σ t) = f.value t := by
  have hget : (f.respell σ).values.get? (σ t) = f.values.get? t := Table.get?_mapKeys σ.injective f.values t
  simp [value, hget, Value.initial]

@[simp] theorem operand_respell (o : Operand) : (f.respell σ).operand (o.respell σ) = f.operand o := by
  cases o with
  | temp t => exact f.value_respell σ t
  | imm v => rfl

@[simp] theorem executes_respell (l : Label) : (f.respell σ).executes l = f.executes l := (rfl)

@[simp] theorem follows_respell (k l : Label) : (f.respell σ).follows k l = f.follows k l := (rfl)

theorem openTargets_respell (js : List Instr) :
    (f.respell σ).openTargets (js.map (Instr.respell σ)) = f.openTargets js := by
  induction js with
  | nil => rfl
  | cons j js ih =>
    cases j with
    | branch cond v target => simp only [List.map_cons, Instr.respell, openTargets, operand_respell, ih]
    | _ => rfl

theorem followJumps_respell (c : Cfg) : followJumps (c.respell σ) (f.respell σ) = (followJumps c f).respell σ := by
  have hedges : (f.respell σ).openEdges (c.respell σ) = f.openEdges c := by
    simp [openEdges, List.filter_map, List.flatMap_map, Function.comp_def, openTargets_respell]
  have hfold : ∀ (es : List (Label × Label)) (f : Facts),
      es.foldl addEdge (f.respell σ) = (es.foldl addEdge f).respell σ := by
    intro es
    induction es with
    | nil => exact fun _ => rfl
    | cons e es ih => exact fun f => ih (f.addEdge e)
  rw [followJumps, hedges, hfold, followJumps]

theorem filter_respell (s : PhiSources) (p : Label → Bool) : (s.respell σ).filter p = (s.filter p).respell σ := by
  refine PhiSources.ext ?_
  simp [PhiSources.respell, PhiSources.filter, PhiSources.mapOperands, List.filter_map, Function.comp_def]

theorem evaluate?_respell (l : Label) (i : Instr) : (f.respell σ).evaluate? l (i.respell σ) = f.evaluate? l i := by
  cases i with
  | phi dest sources =>
    have hphi : (f.respell σ).phi l (sources.respell σ) = f.phi l sources := by
      simp [phi, filter_respell, List.foldl_map]
    exact congrArg some hphi
  | _ => simp [Instr.respell, evaluate?]

theorem lift_respell (t : Temp) (v : Value) : (f.respell σ).lift (σ t) v = (f.lift t v).respell σ := by
  simp only [lift, value_respell]
  split
  · rfl
  · exact congrArg (Facts.mk f.blocks f.edges) (Table.set_mapKeys σ.injective f.values t _)

theorem visit_respell (l : Label) (i : Instr) : visit l (f.respell σ) (i.respell σ) = (visit l f i).respell σ := by
  simp only [visit, Instr.dest?_respell, evaluate?_respell]
  cases i.dest? with
  | none => rfl
  | some t =>
    cases f.evaluate? l i with
    | none => rfl
    | some v => exact f.lift_respell σ t v

theorem evaluateBlocks_respell (c : Cfg) :
    evaluateBlocks (c.respell σ) (f.respell σ) = (evaluateBlocks c f).respell σ := by
  have hbody : ∀ (l : Label) (is : List Instr) (f : Facts),
      (is.map (Instr.respell σ)).foldl (visit l) (f.respell σ) = (is.foldl (visit l) f).respell σ := by
    intro l is
    induction is with
    | nil => exact fun _ => rfl
    | cons i is ih =>
      intro f
      rw [List.map_cons, List.foldl_cons, List.foldl_cons, visit_respell, ih]
  simp only [evaluateBlocks, Cfg.blocks_respell]
  induction c.blocks generalizing f with
  | nil => rfl
  | cons b bs ih =>
    rw [List.map_cons, List.foldl_cons, List.foldl_cons, executes_respell, Block.label_respell, Block.body_respell,
      hbody]
    split
    · exact ih _
    · exact ih f

theorem round_respell (c : Cfg) : round (c.respell σ) (f.respell σ) = (round c f).respell σ := by
  rw [round, followJumps_respell, evaluateBlocks_respell, round]

end Facts

theorem rounds_respell (c : Cfg) : rounds (c.respell σ) = rounds c := by
  have htemps : temps (c.respell σ) = (temps c).map σ := by
    rw [temps, temps, ← eraseDups_map σ.injective, Cfg.instrs_respell, List.flatMap_map, List.map_flatMap]
    congr 1
    refine List.flatMap_congr fun i _ => ?_
    rw [Instr.dest?_respell, Instr.usedTemps_respell, List.map_append]
    cases i.dest? <;> rfl
  rw [rounds, rounds, Cfg.edges_respell, htemps, List.length_map]

/-- The facts about a respelled graph. -/
theorem analyze_respell (c : Cfg) : analyze (c.respell σ) = (analyze c).respell σ := by
  rw [analyze, rounds_respell]
  exact untilStable_map (Facts.respell_injective σ) (fun f => f.round_respell σ c) (rounds c) (Facts.start c)

/-! ## Folding -/

variable (f : Facts)

theorem kept_decideJumps_respell (js : List Instr) :
    (decideJumps (f.respell σ) (js.map (Instr.respell σ))).kept = (decideJumps f js).kept.map (Instr.respell σ) := by
  induction js with
  | nil => rfl
  | cons j js ih =>
    cases j with
    | branch cond v target =>
      simp only [List.map_cons, Instr.respell, decideJumps, Facts.operand_respell]
      cases f.operand v with
      | varies => simp [ih, Instr.respell]
      | unused => rfl
      | constant k =>
        dsimp only
        split
        · rfl
        · exact ih
    | ret value? =>
      cases value? with
      | none => rfl
      | some v =>
        simp only [List.map_cons, Instr.respell, Option.map_some, decideJumps, Facts.operand_respell]
        split <;> rfl
    | _ => rfl

theorem resolveJumps_respell (js : List Instr) :
    resolveJumps (f.respell σ) (js.map (Instr.respell σ)) = (resolveJumps f js).map (Instr.respell σ) := by
  have hopen : ∀ js : List Instr, isOpen (js.map (Instr.respell σ)) = isOpen js := by
    intro js
    rw [isOpen, isOpen, List.getLast?_map]
    cases js.getLast? <;> simp
  rw [resolveJumps, resolveJumps, kept_decideJumps_respell, hopen]
  split
  · simp [Instr.respell]
  · rfl

theorem isUndefined_eq {i : Instr} (h : ∀ index value, i ≠ .param index value) : isUndefined f i =
    (i.dest?.any (f.value · = .unused) || !i.isPhi && i.usedTemps.any (f.value · = .unused)) := by
  cases i with
  | param index value => exact absurd rfl (h index value)
  | call dest? target argc => cases dest? <;> rfl
  | _ => rfl

theorem isUndefined_respell (i : Instr) : isUndefined (f.respell σ) (i.respell σ) = isUndefined f i := by
  by_cases hparam : ∃ index value, i = .param index value
  · obtain ⟨index, value, rfl⟩ := hparam
    rfl
  · have hi : ∀ index value, i ≠ .param index value := fun index value h => hparam ⟨index, value, h⟩
    have hi' : ∀ index value, i.respell σ ≠ .param index value := by
      intro index value h
      cases i <;> simp [Instr.respell] at h hi
    rw [isUndefined_eq f hi, isUndefined_eq (f.respell σ) hi']
    cases hd : i.dest? <;> simp [hd, Function.comp_def]

theorem definesConstant_respell (i : Instr) :
    definesConstant (f.respell σ) (i.respell σ) = definesConstant f i := by
  simp only [definesConstant, Instr.dest?_respell]
  cases i.dest? <;> simp

theorem fold_respell (o : Operand) : fold (f.respell σ) (o.respell σ) = (fold f o).respell σ := by
  cases o with
  | imm v => rfl
  | temp t =>
    simp only [Operand.respell, fold, Facts.value_respell]
    cases (f.value t).constant? <;> rfl

theorem removeDead_respell (c : Cfg) : removeDead (f.respell σ) (c.respell σ) = (removeDead f c).respell σ := by
  simp [removeDead, isDead, Cfg.respell, Cfg.mapBlocks, List.filter_map, Function.comp_def]

theorem prune_respell (b : Block) : prune (f.respell σ) (b.respell σ) = (prune f b).respell σ := by
  have hinstr : ∀ i : Instr,
      pruneInstr (f.respell σ) b.label (i.respell σ) = (pruneInstr f b.label i).respell σ := by
    intro i
    cases i with
    | phi dest sources => exact congrArg (Instr.phi (σ dest)) (Facts.filter_respell σ sources _)
    | _ => rfl
  simp [prune, Block.respell, Block.mapInstrs, resolveJumps_respell, Function.comp_def, hinstr]

theorem removeUndefined_respell (b : Block) :
    removeUndefined (f.respell σ) (b.respell σ) = (removeUndefined f b).respell σ := by
  simp [removeUndefined, Block.respell, Block.mapInstrs, List.filter_map, Function.comp_def, isUndefined_respell]

theorem dropConstants_respell (b : Block) :
    dropConstants (f.respell σ) (b.respell σ) = (dropConstants f b).respell σ := by
  simp [dropConstants, Block.respell, Block.mapInstrs, List.filter_map, Function.comp_def, definesConstant_respell]

theorem folded_respell (c : Cfg) :
    (Folding.mk (f.respell σ) (c.respell σ)).folded = (Folding.mk f c).folded.respell σ := by
  have hfold : ∀ b : Block, (b.respell σ).mapInstrs (·.mapOperands (fold (f.respell σ))) =
      (b.mapInstrs (·.mapOperands (fold f))).respell σ := by
    intro b
    simp [Block.respell, Block.mapInstrs, Function.comp_def, Instr.mapOperands_respell σ _ (fold_respell σ f)]
  simp only [Folding.folded, Folding.dropped, Folding.defined, Folding.pruned, Folding.executable]
  rw [removeDead_respell, Cfg.mapBlocks_respell _ _ (prune_respell σ f),
    Cfg.mapBlocks_respell _ _ (removeUndefined_respell σ f), Cfg.mapBlocks_respell _ _ (dropConstants_respell σ f),
    Cfg.mapBlocks_respell _ _ hfold]

theorem isSome_undefinedRead? (c : Cfg) : (undefinedRead? f c).isSome =
    c.blocks.any fun b => b.instrs.any fun i => !i.isPhi && i.usedTemps.any (f.value · = .unused) := by
  rw [Bool.eq_iff_iff]
  simp [undefinedRead?, List.findSome?_isSome_iff, and_assoc]

/-- What is never defined is read just where it was read before. -/
theorem isSome_undefinedRead?_respell (c : Cfg) :
    (undefinedRead? (f.respell σ) (c.respell σ)).isSome = (undefinedRead? f c).isSome := by
  simp [isSome_undefinedRead?, Function.comp_def]

/-- Folding leaves the respelled graph, with a violation just where there was one. -/
theorem foldConstants_respell (c : Cfg) :
    (foldConstants (c.respell σ)).1.cfg = (foldConstants c).1.cfg.respell σ ∧
      (foldConstants (c.respell σ)).2.isSome = (foldConstants c).2.isSome := by
  simp only [foldConstants, analyze_respell, folded_respell, isSome_undefinedRead?_respell, and_self]

end Constants

end ThreeAddress

import ThreeAddress.CommonSubexpr.Elimination
import ThreeAddress.Proofs.Respelling.Basic
/-!
# Common subexpressions of respelled code

Expressions are compared and looked up by the names that they read. Different expressions stay different under a
respelling, and an expression reads a global just if it did, so that the same computations are reused, each from the
respelled temporary: `CommonSubexpr.cfg_eliminate_respell`.
-/

namespace ThreeAddress

variable (σ : Respelling)

/-! ## Expressions -/

namespace Expr

def respell : Expr → Expr
  | binary op left right => binary op (left.respell σ) (right.respell σ)
  | unary op operand => unary op (operand.respell σ)

theorem respell_injective : Function.Injective (respell σ) := by
  rintro (⟨op, left, right⟩ | ⟨op, operand⟩) (⟨op', left', right'⟩ | ⟨op', operand'⟩) h <;>
    simp only [respell, binary.injEq, unary.injEq, reduceCtorEq, Operand.respell_inj] at h ⊢ <;> exact h

@[simp] theorem respell_inj {e e' : Expr} : e.respell σ = e'.respell σ ↔ e = e' := (respell_injective σ).eq_iff

@[simp] theorem temps_respell (e : Expr) : (e.respell σ).temps = e.temps.map σ := by
  have hoperands : (e.respell σ).operands = e.operands.map (Operand.respell σ) := by
    cases e <;> rfl
  rw [temps, hoperands, temps, List.filterMap_map, List.map_filterMap]
  exact List.filterMap_congr fun o _ => o.temp?_respell σ

@[simp] theorem reads_respell (e : Expr) (t : Temp) : (e.respell σ).reads (σ t) = e.reads t := by
  rw [reads, temps_respell, contains_map σ.injective, reads]

theorem of?_respell (i : Instr) : of? (i.respell σ) = (of? i).map (respell σ) := by
  have hinstr : ofInstr? (i.respell σ) = (ofInstr? i).map (respell σ) := by
    cases i <;> rfl
  rw [of?, of?, hinstr, Option.filter_map]
  simp [Function.comp_def]

end Expr

/-! ## Within a block -/

namespace Available

def respell (av : Available) : Available := av.map fun e => (e.1.respell σ, σ e.2)

variable (av : Available)

theorem lookup_respell (e : Expr) : List.lookup (e.respell σ) (av.respell σ) = (List.lookup e av).map σ :=
  lookup_map (Expr.respell_injective σ) σ e av

theorem kill_respell (t : Temp) : (av.respell σ).kill (σ t) = (av.kill t).respell σ := by
  simp [kill, respell, List.filter_map, Function.comp_def]

theorem computed?_respell (i : Instr) (dest : Temp) :
    computed? (i.respell σ) (σ dest) = (computed? i dest).map (Expr.respell σ) := by
  rw [computed?, computed?, Expr.of?_respell, Option.filter_map]
  simp [Function.comp_def]

theorem after_respell (i : Instr) : (av.respell σ).after (i.respell σ) = (av.after i).respell σ := by
  unfold after
  rw [Instr.dest?_respell]
  cases i.dest? with
  | none => rfl
  | some dest =>
    simp only [Option.map_some, kill_respell, computed?_respell]
    cases computed? i dest with
    | none => rfl
    | some e =>
      simp only [Option.map_some, lookup_respell, Option.isSome_map]
      split
      · rfl
      · simp [respell]

end Available

theorem reuse_respell (av : Available) (i : Instr) :
    reuse (av.respell σ) (i.respell σ) = (reuse av i).respell σ := by
  unfold reuse
  rw [Expr.of?_respell, Instr.dest?_respell]
  cases Expr.of? i with
  | none => rfl
  | some e =>
    cases i.dest? with
    | none => rfl
    | some dest =>
      simp only [Option.map_some, Available.lookup_respell]
      cases List.lookup e av <;> rfl

theorem reuseBody_respell (av : Available) (is : List Instr) :
    reuseBody (av.respell σ) (is.map (Instr.respell σ)) = (reuseBody av is).map (Instr.respell σ) := by
  induction is generalizing av with
  | nil => rfl
  | cons i is ih =>
    rw [List.map_cons, reuseBody, reuse_respell, Available.after_respell, ih, reuseBody, List.map_cons]

theorem Block.reuseLocal_respell (b : Block) : (b.respell σ).reuseLocal = b.reuseLocal.respell σ :=
  congrArg (Block.mk b.label · (b.jumps.map (Instr.respell σ))) (reuseBody_respell σ [] b.body)

/-! ## Along dominators -/

def Holder.respell (h : Holder) : Holder := ⟨h.index, σ h.temp⟩

theorem heldAtExit_respell (body : List Instr) : heldAtExit (body.map (Instr.respell σ)) =
    (heldAtExit body).map fun e => (e.1.respell σ, e.2.respell σ) := by
  unfold heldAtExit
  generalize hf : (fun (held : List (Expr × Holder)) (e : Instr × Nat) => _) = f
  have hstep : ∀ (held : List (Expr × Holder)) (i : Instr) (n : Nat),
      f (held.map fun e => (e.1.respell σ, e.2.respell σ)) (i.respell σ, n) =
        (f held (i, n)).map fun e => (e.1.respell σ, e.2.respell σ) := by
    intro held i n
    subst hf
    simp only [Instr.dest?_respell]
    cases i.dest? with
    | none => rfl
    | some dest =>
      simp only [Option.map_some, Available.computed?_respell]
      cases Available.computed? i dest with
      | none => simp [List.filter_map, Function.comp_def, Holder.respell]
      | some x => simp [List.filter_map, Function.comp_def, Holder.respell]
  have hfold : ∀ (is : List Instr) (n : Nat) (held : List (Expr × Holder)),
      ((is.map (Instr.respell σ)).zipIdx n).foldl f (held.map fun e => (e.1.respell σ, e.2.respell σ)) =
        ((is.zipIdx n).foldl f held).map fun e => (e.1.respell σ, e.2.respell σ) := by
    intro is
    induction is with
    | nil => exact fun _ _ => rfl
    | cons i is ih =>
      intro n held
      rw [List.map_cons, List.zipIdx_cons, List.zipIdx_cons, List.foldl_cons, List.foldl_cons, hstep, ih]
  exact hfold body 0 []

/-- No name of a list is in another, respelled or not. -/
theorem any_contains_respell (ts written : List Temp) :
    (ts.map σ).any (written.map σ).contains = ts.any written.contains := by
  simp only [List.any_map, Function.comp_def, contains_map σ.injective]

theorem cleanFirst_respell (written : List Temp) (seen : List Expr) (is : List Instr) (n : Nat) :
    cleanFirst (written.map σ) (seen.map (Expr.respell σ)) ((is.map (Instr.respell σ)).zipIdx n) =
      (cleanFirst written seen (is.zipIdx n)).map fun e => (e.1, e.2.respell σ) := by
  induction is generalizing written seen n with
  | nil => rfl
  | cons i is ih =>
    have hwritten : (i.respell σ).dest?.toList ++ written.map σ = (i.dest?.toList ++ written).map σ := by
      cases h : i.dest? <;> simp [h]
    simp only [List.map_cons, List.zipIdx_cons, cleanFirst, hwritten, ih, Expr.of?_respell]
    cases Expr.of? i with
    | none => rfl
    | some e =>
      have hseen : ((seen.map (Expr.respell σ)).contains (e.respell σ)) = seen.contains e :=
        contains_map (Expr.respell_injective σ) e seen
      have hrest := ih (i.dest?.toList ++ written) (e :: seen) (n + 1)
      rw [List.map_cons] at hrest
      simp only [Option.map_some, hseen, hrest, Expr.temps_respell, any_contains_respell]
      split
      · rfl
      · split
        · rfl
        · rfl

namespace Cfg

variable (c : Cfg)

theorem writesAny_respell (b : Block) (skip? : Option Nat) (ts : List Temp) :
    writesAny (b.respell σ) skip? (ts.map σ) = writesAny b skip? ts := by
  unfold writesAny
  rw [Block.instrs_respell, List.zipIdx_map, List.any_map]
  refine congrArg (List.any _) (funext fun e => ?_)
  simp only [Function.comp_apply, Prod.map_fst, Prod.map_snd, id_eq, Instr.dest?_respell]
  cases e.1.dest? with
  | none => rfl
  | some t => simp only [Option.map_some, contains_map σ.injective]

theorem writesBetween_respell (source : Label) (skip : Nat) (target : Label) (ts : List Temp) :
    (c.respell σ).writesBetween source skip target (ts.map σ) = c.writesBetween source skip target ts := by
  have hbetween : (c.respell σ).between = c.between := by
    funext u v
    simp [between]
  unfold writesBetween
  rw [node?_respell, node?_respell, hbetween]
  rcases c.node? source with - | u
  · rfl
  rcases c.node? target with - | v
  · rfl
  refine congrArg (List.any _) (funext fun w => ?_)
  rw [blocks_respell, List.getElem?_map]
  rcases c.blocks[w]? with - | b
  · rfl
  · exact writesAny_respell σ b _ ts

theorem holderAt?_respell (b : Block) (index : Nat) (e : Expr) (dominator : Label) :
    (c.respell σ).holderAt? (b.respell σ) index (e.respell σ) dominator =
      (c.holderAt? b index e dominator).map σ := by
  have hheld : (((c.respell σ).block? dominator).bind fun d => (heldAtExit d.body).lookup (e.respell σ)) =
      ((c.block? dominator).bind fun d => (heldAtExit d.body).lookup e).map (Holder.respell σ) := by
    rw [block?_respell]
    cases c.block? dominator with
    | none => rfl
    | some d =>
      simp only [Option.map_some, Option.bind_some, Block.body_respell, heldAtExit_respell]
      exact lookup_map (Expr.respell_injective σ) _ e _
  unfold holderAt?
  rw [hheld]
  generalize ((c.block? dominator).bind fun d => (heldAtExit d.body).lookup e) = held
  cases held with
  | none => rfl
  | some h =>
    have hwrites := c.writesBetween_respell σ dominator h.index b.label (h.temp :: e.temps)
    rw [List.map_cons] at hwrites
    have hany : (((b.respell σ).body.take index).any fun i => i.defines (σ h.temp)) =
        (b.body.take index).any fun i => i.defines h.temp := by
      rw [Block.body_respell, ← List.map_take, List.any_map]
      simp [Function.comp_def]
    simp only [Option.map_some, Holder.respell, hany, Block.label_respell, Expr.temps_respell, hwrites]
    split
    · rfl
    · split
      · rfl
      · rfl

theorem reusable_respell (d : Dominance) (b : Block) :
    (c.respell σ).reusable d (b.respell σ) = (c.reusable d b).map fun e => (e.1, σ e.2) := by
  unfold reusable
  have hclean := cleanFirst_respell σ [] [] b.body 0
  simp only [List.map_nil] at hclean
  rw [Block.body_respell, hclean, List.filterMap_map, List.map_filterMap]
  refine List.filterMap_congr fun e _ => ?_
  have hholder : ∀ ls : List Label,
      ls.findSome? ((c.respell σ).holderAt? (b.respell σ) e.1 (e.2.respell σ)) =
        (ls.findSome? (c.holderAt? b e.1 e.2)).map σ := by
    intro ls
    induction ls with
    | nil => rfl
    | cons l ls ih =>
      rw [List.findSome?_cons, List.findSome?_cons, holderAt?_respell, ih]
      cases c.holderAt? b e.1 e.2 l <;> rfl
  simp only [Function.comp_apply, Block.label_respell, hholder, Option.map_map]
  rfl

theorem reuseGlobal_respell (d : Dominance) (b : Block) :
    (c.respell σ).reuseGlobal d (b.respell σ) = (c.reuseGlobal d b).respell σ := by
  have hlookup : ∀ n : Nat, ((c.respell σ).reusable d (b.respell σ)).lookup n = ((c.reusable d b).lookup n).map σ := by
    intro n
    rw [reusable_respell]
    exact lookup_map Function.injective_id σ n _
  unfold reuseGlobal
  refine congrArg (Block.mk b.label · (b.jumps.map (Instr.respell σ))) ?_
  rw [Block.body_respell, List.zipIdx_map, List.map_map, List.map_map]
  refine List.map_congr_left fun e _ => ?_
  simp only [Function.comp_apply, Prod.map_fst, Prod.map_snd, id_eq, hlookup, Instr.dest?_respell]
  cases (c.reusable d b).lookup e.2 with
  | none => rfl
  | some t => cases e.1.dest? <;> rfl

end Cfg

/-! ## The pass -/

namespace CommonSubexpr

theorem cfg_eliminateAt_respell (d : Dominance) {r r' : Transformed} (h : r'.cfg = r.cfg.respell σ) (l : Label) :
    (eliminateAt d r' l).cfg = (eliminateAt d r l).cfg.respell σ := by
  unfold eliminateAt
  rw [h, Cfg.block?_respell]
  cases r.cfg.block? l with
  | none => exact h
  | some b =>
    exact r.cfg.modify_respell σ l fun _ => r.cfg.reuseGlobal_respell σ d b

/-- The respelled graph has the same expressions eliminated. -/
theorem cfg_eliminate_respell (c : Cfg) : (eliminate (c.respell σ)).cfg = (eliminate c).cfg.respell σ := by
  have hlocal : (eliminateLocal (c.respell σ)).cfg = (eliminateLocal c).cfg.respell σ :=
    c.mapBlocks_respell σ (Block.reuseLocal_respell σ)
  have hfold : ∀ (d : Dominance) (ls : List Label) (r r' : Transformed), r'.cfg = r.cfg.respell σ →
      (ls.foldl (eliminateAt d) r').cfg = (ls.foldl (eliminateAt d) r).cfg.respell σ := by
    intro d ls
    induction ls with
    | nil => exact fun _ _ h => h
    | cons l ls ih => exact fun r r' h => ih _ _ (cfg_eliminateAt_respell σ d h l)
  simp only [eliminate, eliminateGlobal, hlocal, Cfg.labels_respell, Cfg.dominance_respell]
  exact hfold _ _ _ _ rfl

end CommonSubexpr

end ThreeAddress

import Mathlib.Data.List.Basic
import Mathlib.Logic.Equiv.Basic
import ThreeAddress.Cfg.Linear
import ThreeAddress.Dominance
import ThreeAddress.Proofs.MapBlocks
/-!
# Respelled code

A `Respelling` exchanges the names of temporaries, each for a name of the same kind. It is carried through operands,
instructions, blocks and graphs. The shape of code does not depend on how names are spelled: a respelled instruction
has the destination and the uses of the old one under their new names, and a respelled graph has its labels, edges,
dominators and linear code.
-/

namespace ThreeAddress

/-! ## Lists under an injective map -/

section

variable {α β γ δ : Type} [DecidableEq α] [DecidableEq γ]

theorem lookup_map {f : α → γ} (hf : Function.Injective f) (g : β → δ) (k : α) (es : List (α × β)) :
    (es.map fun e => (f e.1, g e.2)).lookup (f k) = (es.lookup k).map g := by
  induction es with
  | nil => rfl
  | cons e es ih =>
    rw [List.map_cons, lookup_cons_if, lookup_cons_if, ih]
    by_cases h : k = e.1
    · rw [if_pos h, if_pos (congrArg f h), Option.map_some]
    · rw [if_neg h, if_neg (hf.ne h)]

theorem contains_map {f : α → γ} (hf : Function.Injective f) (a : α) (as : List α) :
    (as.map f).contains (f a) = as.contains a := by
  simp [List.contains_eq_mem, hf.eq_iff]

theorem eraseDups_map {f : α → γ} (hf : Function.Injective f) (as : List α) :
    (as.map f).eraseDups = as.eraseDups.map f := by
  generalize hn : as.length = n
  induction n using Nat.strongRecOn generalizing as with
  | ind n ih =>
    cases as with
    | nil => rfl
    | cons a as =>
      have hfilter : (as.map f).filter (fun b => !b == f a) = (as.filter fun b => !b == a).map f := by
        simp [List.filter_map, Function.comp_def, hf.beq_eq]
      have hlt : (as.filter fun b => !b == a).length < n :=
        hn ▸ Nat.lt_succ_of_le (List.length_filter_le ..)
      rw [List.map_cons, List.eraseDups_cons, List.eraseDups_cons, List.map_cons, hfilter, ih _ hlt _ rfl]

end

/-! ## Names -/

/-- A permutation of the temporaries that keeps the kind of each. -/
structure Respelling where
  perm : Equiv.Perm Temp
  kind_eq : ∀ t, (perm t).kind = t.kind

namespace Respelling

instance : CoeFun Respelling fun _ => Temp → Temp := ⟨fun σ => σ.perm⟩

variable (σ : Respelling) {t u : Temp}

theorem injective : Function.Injective σ := σ.perm.injective

@[simp] theorem eq_iff : σ t = σ u ↔ t = u := σ.injective.eq_iff

@[simp] theorem isVersioned_eq (t : Temp) : (σ t).isVersioned = t.isVersioned := by
  simp [Temp.isVersioned, σ.kind_eq]

@[simp] theorem isGlobal_eq (t : Temp) : (σ t).isGlobal = t.isGlobal := by
  have hkind : ∀ u : Temp, u.isGlobal = decide (u.kind = .global) := by
    intro u
    unfold Temp.kind
    cases u.isGlobal with
    | true => rfl
    | false => cases u.hasVersion <;> rfl
  rw [hkind, hkind, σ.kind_eq]

end Respelling

variable (σ : Respelling)

/-! ## Operands and phi sources -/

namespace Operand

def respell : Operand → Operand
  | temp t => temp (σ t)
  | imm v => imm v

theorem respell_injective : Function.Injective (respell σ) := by
  rintro (t | u) (t' | u') h <;> simp only [respell, temp.injEq, imm.injEq, reduceCtorEq, σ.eq_iff] at h <;> rw [h]

@[simp] theorem respell_inj {o o' : Operand} : o.respell σ = o'.respell σ ↔ o = o' := (respell_injective σ).eq_iff

@[simp] theorem temp?_respell (o : Operand) : (o.respell σ).temp? = o.temp?.map σ := by
  cases o <;> rfl

@[simp] theorem reads_respell (o : Operand) (t : Temp) : (o.respell σ).reads (σ t) = o.reads t := by
  cases o <;> simp [respell, reads]

theorem subst_respell (o : Operand) (t : Temp) (new : Operand) :
    (o.respell σ).subst (σ t) (new.respell σ) = (o.subst t new).respell σ := by
  simp only [subst, reads_respell]
  split <;> rfl

end Operand

namespace PhiSources

def respell (s : PhiSources) : PhiSources := s.mapOperands fun _ => Operand.respell σ

@[simp] theorem labels_respell (s : PhiSources) : (s.respell σ).labels = s.labels := labels_mapOperands ..

@[simp] theorem operands_respell (s : PhiSources) : (s.respell σ).operands = s.operands.map (Operand.respell σ) := by
  simp [operands, respell, mapOperands]

@[simp] theorem isEmpty_respell (s : PhiSources) : (s.respell σ).isEmpty = s.isEmpty := by
  simp [isEmpty, respell, mapOperands]

end PhiSources

/-! ## Instructions -/

namespace Instr

def respell : Instr → Instr
  | nop => nop
  | const dest value => const (σ dest) value
  | copy dest source => copy (σ dest) (source.respell σ)
  | binary dest op left right => binary (σ dest) op (left.respell σ) (right.respell σ)
  | unary dest op operand => unary (σ dest) op (operand.respell σ)
  | param index value => param index (value.respell σ)
  | call dest? target argc => call (dest?.map σ) target argc
  | phi dest sources => phi (σ dest) (sources.respell σ)
  | label name => label name
  | jump target => jump target
  | branch cond value target => branch cond (value.respell σ) target
  | ret value? => ret (value?.map (Operand.respell σ))

variable (i : Instr)

@[simp] theorem dest?_respell : (i.respell σ).dest? = i.dest?.map σ := by
  cases i <;> rfl

@[simp] theorem uses_respell : (i.respell σ).uses = i.uses.map (Operand.respell σ) := by
  cases i with
  | phi dest sources => simp [respell, uses]
  | ret value? => cases value? <;> rfl
  | _ => rfl

@[simp] theorem usedTemps_respell : (i.respell σ).usedTemps = i.usedTemps.map σ := by
  simp only [usedTemps, uses_respell, List.filterMap_map, List.map_filterMap]
  exact List.filterMap_congr fun o _ => o.temp?_respell σ

@[simp] theorem isPhi_respell : (i.respell σ).isPhi = i.isPhi := by
  cases i <;> rfl

@[simp] theorem isTerminator_respell : (i.respell σ).isTerminator = i.isTerminator := by
  cases i <;> rfl

@[simp] theorem isFinal_respell : (i.respell σ).isFinal = i.isFinal := by
  cases i <;> rfl

@[simp] theorem target?_respell : (i.respell σ).target? = i.target? := by
  cases i <;> rfl

@[simp] theorem sources?_respell : (i.respell σ).sources? = i.sources?.map (PhiSources.respell σ) := by
  cases i <;> rfl

@[simp] theorem defines_respell (t : Temp) : (i.respell σ).defines (σ t) = i.defines t := by
  cases h : i.dest? <;> simp [defines, h]

/-- Two maps of operands that agree up to the respelling make the same of an instruction. -/
theorem mapOperands_respell {f f' : Operand → Operand} (h : ∀ o, f' (o.respell σ) = (f o).respell σ) :
    (i.respell σ).mapOperands f' = (i.mapOperands f).respell σ := by
  cases i with
  | phi dest sources =>
    refine congrArg (phi (σ dest)) (PhiSources.ext ?_)
    simp [PhiSources.respell, PhiSources.mapOperands, h]
  | ret value? => cases value? <;> simp [respell, mapOperands, h]
  | _ => simp [respell, mapOperands, h]

end Instr

/-! ## Blocks -/

namespace Block

def respell (b : Block) : Block := b.mapInstrs (Instr.respell σ)

variable (b : Block)

@[simp] theorem label_respell : (b.respell σ).label = b.label := (rfl)

@[simp] theorem body_respell : (b.respell σ).body = b.body.map (Instr.respell σ) := (rfl)

@[simp] theorem jumps_respell : (b.respell σ).jumps = b.jumps.map (Instr.respell σ) := (rfl)

@[simp] theorem instrs_respell : (b.respell σ).instrs = b.instrs.map (Instr.respell σ) := by
  simp [instrs]

@[simp] theorem targets_respell : (b.respell σ).targets = b.targets := by
  simp [targets, List.filterMap_map]

@[simp] theorem successors_respell : (b.respell σ).successors = b.successors := by
  simp [successors]

theorem subst_respell (t : Temp) (new : Operand) :
    (b.respell σ).subst (σ t) (new.respell σ) = (b.subst t new).respell σ := by
  have hsubst : ∀ i : Instr, (i.respell σ).subst (σ t) (new.respell σ) = (i.subst t new).respell σ :=
    fun i => i.mapOperands_respell σ fun o => o.subst_respell σ t new
  simp [subst, respell, mapInstrs, Function.comp_def, hsubst]

theorem jumpsBefore_respell (next? : Option Block) :
    (b.respell σ).jumpsBefore (next?.map (respell σ)) = (b.jumpsBefore next?).map (Instr.respell σ) := by
  unfold jumpsBefore
  rw [jumps_respell, List.getLast?_map]
  cases next? with
  | none => cases b.jumps.getLast? with
    | none => rfl
    | some j => cases j <;> rfl
  | some next =>
    cases b.jumps.getLast? with
    | none => rfl
    | some j =>
      cases j with
      | jump target =>
        simp only [Option.map_some, Instr.respell, label_respell]
        split
        · exact List.map_dropLast.symm
        · rfl
      | _ => rfl

end Block

theorem linearize_respell (bs : List Block) :
    linearize (bs.map (Block.respell σ)) = (linearize bs).map (Instr.respell σ) := by
  induction bs with
  | nil => rfl
  | cons b bs ih =>
    have hjumps := b.jumpsBefore_respell σ bs.head?
    rw [List.map_cons, linearize, linearize, ih, List.head?_map, hjumps]
    simp [Instr.respell]

/-! ## Graphs -/

namespace Cfg

def respell (c : Cfg) : Cfg := c.mapBlocks (Block.respell σ)

variable (c : Cfg)

@[simp] theorem proc_respell : (c.respell σ).proc = c.proc := (rfl)

@[simp] theorem entry_respell : (c.respell σ).entry = c.entry := (rfl)

@[simp] theorem blocks_respell : (c.respell σ).blocks = c.blocks.map (Block.respell σ) := (rfl)

@[simp] theorem labels_respell : (c.respell σ).labels = c.labels := labels_mapBlocks (Block.label_respell σ) c

@[simp] theorem block?_respell (l : Label) : (c.respell σ).block? l = (c.block? l).map (Block.respell σ) :=
  block?_mapBlocks (Block.label_respell σ) c l

@[simp] theorem instrs_respell : (c.respell σ).instrs = c.instrs.map (Instr.respell σ) := by
  simp [instrs, List.flatMap_map, List.map_flatMap]

@[simp] theorem bodies_respell : (c.respell σ).bodies = c.bodies.map (Instr.respell σ) := by
  simp [bodies, List.flatMap_map, List.map_flatMap]

@[simp] theorem size_respell : (c.respell σ).size = c.size := by
  simp [size]

@[simp] theorem linear_respell : (c.respell σ).linear = c.linear.map (Instr.respell σ) := linearize_respell σ c.blocks

@[simp] theorem contains_respell (l : Label) : (c.respell σ).contains l = c.contains l := by
  simp [contains]

@[simp] theorem predecessors_respell (l : Label) : (c.respell σ).predecessors l = c.predecessors l := by
  simp [predecessors, List.filter_map, Function.comp_def]

@[simp] theorem edges_respell : (c.respell σ).edges = c.edges := by
  simp [edges, List.flatMap_map]

/-- Two maps of blocks that agree up to the respelling make the same of a graph. -/
theorem mapBlocks_respell {f f' : Block → Block} (h : ∀ b, f' (b.respell σ) = (f b).respell σ) :
    (c.respell σ).mapBlocks f' = (c.mapBlocks f).respell σ := by
  simp [mapBlocks, respell, Function.comp_def, h]

theorem modify_respell (l : Label) {f f' : Block → Block} (h : ∀ b, f' (b.respell σ) = (f b).respell σ) :
    (c.respell σ).modify l f' = (c.modify l f).respell σ :=
  c.mapBlocks_respell σ fun b => by
    rw [Block.label_respell, h]
    split <;> rfl

theorem subst_respell (t : Temp) (new : Operand) :
    (c.respell σ).subst (σ t) (new.respell σ) = (c.subst t new).respell σ :=
  c.mapBlocks_respell σ fun b => b.subst_respell σ t new

@[simp] theorem sourceLabels_respell (b : Block) : sourceLabels (b.respell σ) = sourceLabels b := by
  have hsources : (b.respell σ).body.filterMap Instr.sources? =
      (b.body.filterMap Instr.sources?).map (PhiSources.respell σ) := by
    rw [Block.body_respell, List.filterMap_map, List.map_filterMap]
    exact List.filterMap_congr fun i _ => i.sources?_respell σ
  rw [sourceLabels, hsources, List.flatMap_map]
  simp [sourceLabels]

@[simp] theorem validate_respell : (c.respell σ).validate = c.validate := by
  have hblock : ∀ b, (c.respell σ).blockDefect? (b.respell σ) = c.blockDefect? b := by
    intro b
    have htarget : (c.respell σ).targetDefect? (b.respell σ) = c.targetDefect? b := by
      funext t
      rw [targetDefect?, targetDefect?, contains_respell, Block.label_respell, entry_respell]
    have hsource : (c.respell σ).sourceDefect? (b.respell σ) = c.sourceDefect? b := by
      funext t
      rw [sourceDefect?, sourceDefect?, contains_respell, Block.label_respell]
    simp [blockDefect?, htarget, hsource, Function.comp_def]
  simp [validate, defect?, List.findSome?_map, Function.comp_def, hblock]

@[simp] theorem node?_respell (l : Label) : (c.respell σ).node? l = c.node? l := by
  simp [node?]

@[simp] theorem digraph_respell : (c.respell σ).digraph = c.digraph := by
  have hsucc : (c.respell σ).nodeSuccessors = c.nodeSuccessors := by
    funext u
    simp only [nodeSuccessors, blocks_respell, List.getElem?_map]
    cases c.blocks[u]? <;> simp
  have hpred : (c.respell σ).nodePredecessors = c.nodePredecessors := by
    funext v
    simp [nodePredecessors, labelAt?]
  simp [digraph, hsucc, hpred]

@[simp] theorem dominance_respell : (c.respell σ).dominance = c.dominance := by
  have hlabel : (c.respell σ).labelAt? = c.labelAt? := by
    funext u
    simp [labelAt?]
  simp [dominance, hlabel]

end Cfg

end ThreeAddress

import Mathlib.Data.List.Nodup
import ThreeAddress.Cfg.Tabular
import ThreeAddress.Proofs.Paths
/-!
# Tables of blocks are lists of blocks

The order and the table of a graph agree (`Coherent`) if the order names the keys of the table, each of them once and
the entry first, and every block stands under its own label. New graphs are coherent, and every change of a graph keeps
it so; for this it is enough to know what is looked up after a change (`block?_push` and the like). What a change does
to the two is then one change of the list of blocks that they stand for, and a label is looked up in the table as it is
in the list.
-/

namespace ThreeAddress

/-! ## Blocks without operands -/

namespace Block

/-- The block with nothing left of its operands. -/
def blank (b : Block) : Block := b.mapInstrs (·.mapOperands fun _ => .imm 0)

theorem label_of_blank {b b' : Block} (h : b'.blank = b.blank) : b'.label = b.label := by
  have hlabel : b'.blank.label = b.blank.label := congrArg label h
  exact hlabel

@[simp] theorem blank_subst (b : Block) (t : Temp) (new : Operand) : (b.subst t new).blank = b.blank := by
  simp [blank, subst, mapInstrs, Instr.subst, Instr.mapOperands_mapOperands, Function.comp_def]

end Block

namespace Cfg.Tabular

/-- The order and the table of a graph agree. -/
structure Coherent (g : Tabular) : Prop where
  head : g.order.head? = some g.entry
  nodup : g.order.Nodup
  mem_iff : ∀ l, l ∈ g.order ↔ ∃ b, g.block? l = some b
  /-- Every block stands under its own label. -/
  label : ∀ l b, g.block? l = some b → b.label = l

theorem contains_iff {g : Tabular} {l : Label} : g.contains l = true ↔ ∃ b, g.block? l = some b :=
  Table.contains_iff

/-! ## The list of blocks -/

namespace Coherent

variable {g : Tabular} (h : g.Coherent)
include h

theorem mem_blocks {b : Block} : b ∈ g.blocks ↔ g.block? b.label = some b := by
  rw [blocks, List.mem_filterMap]
  constructor
  · rintro ⟨l, -, hb⟩
    exact h.label l b hb ▸ hb
  · exact fun hb => ⟨b.label, (h.mem_iff b.label).2 ⟨b, hb⟩, hb⟩

theorem labels_cfg : g.cfg.labels = g.order := by
  have hlabel : ∀ l ∈ g.order, (g.block? l).map Block.label = some l := fun l hl => by
    obtain ⟨b, hb⟩ := (h.mem_iff l).1 hl
    rw [hb, Option.map_some, h.label l b hb]
  rw [labels, cfg, blocks, List.map_filterMap, List.filterMap_congr hlabel, List.filterMap_some]

theorem nodup_labels : g.cfg.labels.Nodup := h.labels_cfg ▸ h.nodup

theorem block?_cfg (l : Label) : g.cfg.block? l = g.block? l := by
  refine Option.ext fun b => ⟨fun hb => ?_, fun hb => ?_⟩
  · exact label_of_block? hb ▸ h.mem_blocks.1 (mem_of_block? hb)
  · have hlabel := h.label l b hb
    subst hlabel
    exact block?_of_nodup h.nodup_labels (h.mem_blocks.2 hb)

theorem contains_cfg (l : Label) : g.cfg.contains l = g.contains l := by
  rw [Bool.eq_iff_iff, contains_iff, ← h.mem_iff, Cfg.contains, List.contains_iff_mem, h.labels_cfg]

theorem successors_cfg (l : Label) : g.cfg.successors l = g.successors l := by
  cases hb : g.block? l <;> simp only [Cfg.successors, successors, h.block?_cfg, hb]

theorem mem_successors {k l : Label} : l ∈ g.successors k ↔ g.cfg.Edge k l := by
  constructor
  · intro hl
    rw [successors] at hl
    cases hb : g.block? k with
    | none => simp [hb] at hl
    | some b =>
      rw [hb] at hl
      have hlabel := h.label k b hb
      subst hlabel
      exact ⟨b, h.mem_blocks.2 hb, rfl, List.mem_eraseDups.1 hl⟩
  · rintro ⟨b, hb, rfl, ht⟩
    rw [successors, h.mem_blocks.1 hb]
    exact List.mem_eraseDups.2 ht

end Coherent

/-! ## Changes -/

section

variable {g g' : Tabular} {l : Label} {b : Block} {f : Block → Block}

theorem push_eq_ok : g.push b = .ok g' ↔ (∀ d, g.block? b.label ≠ some d) ∧
    { g with order := g.order ++ [b.label], table := g.table.set b.label b } = g' := by
  unfold push
  split
  · rename_i hc
    obtain ⟨d, hd⟩ := contains_iff.1 hc
    simp [hd]
  · rename_i hc
    have hnone : ∀ d, g.block? b.label ≠ some d := fun d hd => hc (contains_iff.2 ⟨d, hd⟩)
    simp [hnone]

theorem remove_eq_some : g.remove l = some (b, g') ↔ l ≠ g.entry ∧ g.block? l = some b ∧
    { g with order := g.order.filter (· ≠ l), table := g.table.erase l } = g' := by
  unfold remove
  split
  · simp_all
  · simp_all

theorem modify_eq_some : g.modify l f = some g' ↔ ∃ b, g.block? l = some b ∧
    { g with table := g.table.set l (f b) } = g' := Option.map_eq_some_iff

/-- Only the label that a block is added under is looked up otherwise than before. -/
theorem block?_push (hp : g.push b = .ok g') (k : Label) :
    g'.block? k = if k = b.label then some b else g.block? k := by
  obtain ⟨-, rfl⟩ := push_eq_ok.1 hp
  exact Table.get?_set ..

theorem block?_remove (hr : g.remove l = some (b, g')) (k : Label) :
    g'.block? k = if k = l then none else g.block? k := by
  obtain ⟨-, -, rfl⟩ := remove_eq_some.1 hr
  exact Table.get?_erase ..

theorem block?_modify (hm : g.modify l f = some g') (k : Label) :
    g'.block? k = if k = l then (g.block? k).map f else g.block? k := by
  obtain ⟨b, hb, rfl⟩ := modify_eq_some.1 hm
  refine (Table.get?_set ..).trans ?_
  by_cases hk : k = l
  · rw [if_pos hk, if_pos hk, hk, hb, Option.map_some]
  · rw [if_neg hk, if_neg hk]
    rfl

theorem block?_mapBlocks (g : Tabular) (f : Block → Block) (k : Label) :
    (g.mapBlocks f).block? k = (g.block? k).map f := Table.get?_mapValues ..

theorem Coherent.push (h : g.Coherent) (hp : g.push b = .ok g') : g'.Coherent := by
  obtain ⟨hnone, rfl⟩ := push_eq_ok.1 hp
  have hnew : b.label ∉ g.order := fun hmem => ((h.mem_iff _).1 hmem).elim hnone
  refine ⟨?_, List.nodup_append.2 ⟨h.nodup, List.nodup_singleton _, fun k hk k' hk' => ?_⟩, fun k => ?_,
    fun k d hd => ?_⟩
  · rw [List.head?_append, h.head]
    rfl
  · rintro rfl
    exact hnew (List.mem_singleton.1 hk' ▸ hk)
  · rw [List.mem_append, List.mem_singleton, h.mem_iff, block?_push hp]
    by_cases hk : k = b.label <;> simp [hk]
  · rw [block?_push hp] at hd
    split at hd
    · rename_i hk
      exact Option.some.inj hd ▸ hk.symm
    · exact h.label k d hd

theorem Coherent.remove (h : g.Coherent) (hr : g.remove l = some (b, g')) : g'.Coherent := by
  obtain ⟨hentry, -, rfl⟩ := remove_eq_some.1 hr
  refine ⟨?_, h.nodup.filter _, fun k => ?_, fun k d hd => ?_⟩
  · have hhead := h.head
    cases horder : g.order with
    | nil => simp [horder] at hhead
    | cons k ks =>
      obtain rfl : k = g.entry := by simpa [horder] using hhead
      simp [Ne.symm hentry]
  · rw [List.mem_filter, h.mem_iff, decide_eq_true_eq, block?_remove hr]
    by_cases hk : k = l <;> simp [hk]
  · rw [block?_remove hr] at hd
    split at hd
    · cases hd
    · exact h.label k d hd

theorem Coherent.modify (h : g.Coherent) (hm : g.modify l f = some g') (hf : ∀ d, (f d).label = d.label) :
    g'.Coherent := by
  obtain ⟨b, -, rfl⟩ := modify_eq_some.1 hm
  refine ⟨h.head, h.nodup, fun k => (h.mem_iff k).trans ?_, fun k d hd => ?_⟩
  · rw [block?_modify hm]
    by_cases hk : k = l <;> simp [hk]
  · rw [block?_modify hm] at hd
    split at hd
    · obtain ⟨d', hd', rfl⟩ := Option.map_eq_some_iff.1 hd
      rw [hf, h.label k d' hd']
    · exact h.label k d hd

theorem Coherent.mapBlocks (h : g.Coherent) (hf : ∀ d, (f d).label = d.label) : (g.mapBlocks f).Coherent := by
  refine ⟨h.head, h.nodup, fun k => (h.mem_iff k).trans ?_, fun k d hd => ?_⟩
  · simp [block?_mapBlocks]
  · rw [block?_mapBlocks] at hd
    obtain ⟨b, hb, rfl⟩ := Option.map_eq_some_iff.1 hd
    rw [hf, h.label k b hb]

/-! ## What changes do to the list of blocks -/

theorem Coherent.blocks_push (h : g.Coherent) (hp : g.push b = .ok g') : g'.blocks = g.blocks ++ [b] := by
  have horder : g'.order = g.order ++ [b.label] := (push_eq_ok.1 hp).2 ▸ rfl
  have hold : ∀ k ∈ g.order, g'.block? k = g.block? k := fun k hk => by
    rw [block?_push hp, if_neg]
    rintro rfl
    exact ((h.mem_iff _).1 hk).elim (push_eq_ok.1 hp).1
  have hnew : g'.block? b.label = some b := by
    rw [block?_push hp, if_pos rfl]
  rw [blocks, horder, List.filterMap_append, List.filterMap_congr hold]
  simp [hnew, blocks]

theorem Coherent.blocks_remove (h : g.Coherent) (hr : g.remove l = some (b, g')) :
    g'.blocks = g.blocks.filter (·.label ≠ l) := by
  obtain ⟨-, -, rfl⟩ := remove_eq_some.1 hr
  rw [blocks, blocks, List.filterMap_filter, List.filter_filterMap]
  refine List.filterMap_congr fun k _ => ?_
  rw [block?_remove hr]
  cases hd : g.block? k with
  | none => simp
  | some d =>
    obtain rfl := h.label k d hd
    by_cases hk : d.label = l <;> simp [Option.filter, hk]

/-- The table is changed in one place as the list is. -/
theorem Coherent.cfg_modify (h : g.Coherent) (hm : g.modify l f = some g') : g'.cfg = g.cfg.modify l f := by
  obtain ⟨b, -, rfl⟩ := modify_eq_some.1 hm
  refine congrArg (Cfg.mk g.proc g.entry) ?_
  rw [cfg, blocks, blocks, List.map_filterMap]
  refine List.filterMap_congr fun k _ => ?_
  rw [block?_modify hm]
  cases hd : g.block? k with
  | none => simp
  | some d =>
    obtain rfl := h.label k d hd
    by_cases hk : d.label = l <;> simp [hk]

/-- The table is changed everywhere as the list is. -/
theorem cfg_mapBlocks (g : Tabular) (f : Block → Block) : (g.mapBlocks f).cfg = g.cfg.mapBlocks f := by
  refine congrArg (Cfg.mk g.proc g.entry) ?_
  rw [blocks, cfg, blocks, List.map_filterMap]
  exact List.filterMap_congr fun k _ => block?_mapBlocks g f k

end

/-! ## New graphs -/

theorem block?_tabular {c : Cfg} (h : c.labels.Nodup) (l : Label) : c.tabular.block? l = c.block? l := by
  have hkeys : (c.blocks.map fun b => (b.label, b)).map Prod.fst = c.labels := by
    rw [List.map_map]
    rfl
  refine Option.ext fun b => ⟨fun hb => ?_, fun hb => ?_⟩
  · obtain ⟨d, hd, heq⟩ := List.mem_map.1 (mem_of_lookup hb)
    cases heq
    exact block?_of_nodup h hd
  · exact Table.lookup_of_mem (hkeys ▸ h) (label_of_block? hb ▸ List.mem_map_of_mem (mem_of_block? hb))

theorem cfg_tabular {c : Cfg} (h : c.labels.Nodup) : c.tabular.cfg = c := by
  refine congrArg (Cfg.mk c.proc c.entry) ?_
  have hget : ∀ b ∈ c.blocks, c.tabular.block? b.label = some b := fun b hb =>
    (block?_tabular h b.label).trans (block?_of_nodup h hb)
  rw [blocks, show c.tabular.order = c.blocks.map Block.label from rfl, List.filterMap_map,
    show c.blocks.filterMap (c.tabular.block? ∘ Block.label) = c.blocks.filterMap some from List.filterMap_congr hget,
    List.filterMap_some]

theorem contains_tabular (c : Cfg) (l : Label) : c.tabular.contains l = c.contains l := by
  have hlookup : c.tabular.block? l = none ↔ l ∉ c.labels := by
    refine List.lookup_eq_none_iff.trans ⟨fun h hl => ?_, fun hl e he => ?_⟩
    · obtain ⟨b, hb, rfl⟩ := List.mem_map.1 hl
      simpa using h _ (List.mem_map_of_mem hb)
    · obtain ⟨b, hb, rfl⟩ := List.mem_map.1 he
      exact bne_iff_ne.2 fun heq => hl (heq ▸ List.mem_map_of_mem hb)
  rw [Bool.eq_iff_iff, Cfg.contains, List.contains_iff_mem, ← Decidable.not_iff_not, ← hlookup]
  exact Option.not_isSome_iff_eq_none

theorem push_tabular {c : Cfg} {b : Block} (hnew : b.label ∉ c.labels) :
    c.tabular.push b = .ok { c with blocks := c.blocks ++ [b] }.tabular := by
  have hc : c.tabular.contains b.label = false := by
    rw [contains_tabular, ← Bool.not_eq_true, Cfg.contains, List.contains_iff_mem]
    exact hnew
  have hkeys : b.label ∉ (c.blocks.map fun b => (b.label, b)).map Prod.fst := by
    rw [List.map_map]
    exact hnew
  rw [push, hc, if_neg Bool.false_ne_true, show c.tabular.table.set b.label b = ⟨_⟩ from
    congrArg Table.mk (Table.setEntry_of_notMem hkeys)]
  simp [tabular, labels]

/-- Blocks are added one after another up to the first whose label is taken. -/
theorem foldlM_push (c : Cfg) (bs : List Block) {seen : List Label} (hseen : ∀ l, l ∈ seen ↔ l ∈ c.labels) :
    bs.foldlM push c.tabular = match repeated?.go seen (bs.map Block.label) with
      | some l => .error ⟨c.proc, .duplicateLabel l⟩
      | none => .ok { c with blocks := c.blocks ++ bs }.tabular := by
  induction bs generalizing c seen with
  | nil => simp [repeated?.go, pure, Except.pure]
  | cons b bs ih =>
    rw [List.foldlM_cons, List.map_cons, repeated?.go]
    by_cases hb : b.label ∈ c.labels
    · have hpush : c.tabular.push b = .error ⟨c.proc, .duplicateLabel b.label⟩ := by
        rw [push, contains_tabular, Cfg.contains, List.contains_iff_mem.2 hb]
        rfl
      rw [List.contains_iff_mem.2 ((hseen _).2 hb), hpush]
      rfl
    · have hnot : seen.contains b.label = false := by
        rw [← Bool.not_eq_true, List.contains_iff_mem, hseen]
        exact hb
      have hseen' : ∀ l, l ∈ b.label :: seen ↔ l ∈ ({ c with blocks := c.blocks ++ [b] } : Cfg).labels := fun l => by
        simp [hseen, labels, or_comm]
      rw [hnot, push_tabular hb]
      refine (ih _ hseen').trans ?_
      simp

/-- A new graph is the table of the valid graph of its blocks; what is wrong with the blocks is found alike. -/
theorem ofBlocks_eq (proc : String) (bs : List Block) : ofBlocks proc bs = (Cfg.ofBlocks proc bs).map Cfg.tabular := by
  cases bs with
  | nil => rfl
  | cons first rest =>
    have hnone : ∀ l, l ∈ [] ↔ l ∈ (⟨proc, first.label, []⟩ : Cfg).labels := fun _ => .rfl
    have hpush := foldlM_push ⟨proc, first.label, []⟩ (first :: rest) hnone
    have hnew : ofBlocks proc (first :: rest) = ((first :: rest).foldlM push (Cfg.tabular ⟨proc, first.label, []⟩)).bind
        fun g => g.cfg.validate.bind fun _ => .ok g := rfl
    rw [hnew, hpush, Cfg.ofBlocks]
    cases hrepeated : repeated? ((first :: rest).map Block.label) with
    | some l =>
      rw [show repeated?.go [] ((first :: rest).map Block.label) = some l from hrepeated]
      rfl
    | none =>
      have hcfg : (Cfg.tabular ⟨proc, first.label, first :: rest⟩).cfg = ⟨proc, first.label, first :: rest⟩ :=
        cfg_tabular (repeated?_eq_none.1 hrepeated)
      rw [show repeated?.go [] ((first :: rest).map Block.label) = none from hrepeated]
      simp only [Except.bind, List.nil_append, hcfg]
      cases validate ⟨proc, first.label, first :: rest⟩ <;> rfl

theorem Coherent.of_valid {c : Cfg} (h : c.Valid) : c.tabular.Coherent where
  head := h.first
  nodup := h.nodup
  mem_iff l := by
    rw [block?_tabular h.nodup]
    constructor
    · intro hl
      obtain ⟨b, hb, rfl⟩ := List.mem_map.1 hl
      exact ⟨b, h.block?_of_mem hb⟩
    · rintro ⟨b, hb⟩
      exact label_of_block? hb ▸ List.mem_map_of_mem (mem_of_block? hb)
  label l b hb := label_of_block? ((block?_tabular h.nodup l).symm.trans hb)

theorem Coherent.of_ofBlocks {proc : String} {bs : List Block} {g : Tabular} (h : ofBlocks proc bs = .ok g) :
    g.Coherent := by
  rw [ofBlocks_eq] at h
  cases hc : Cfg.ofBlocks proc bs with
  | error e =>
    rw [hc] at h
    cases h
  | ok c =>
    rw [hc] at h
    cases h
    exact .of_valid (ofBlocks_eq_ok.1 hc).2.2

/-! ## What changes lead to -/

/-- A graph that changes lead to from a new one. A change that is refused leads nowhere; a block that other operands
are read in is one that is the same but for its operands. -/
inductive Reached : Tabular → Prop
  | new {proc : String} {bs : List Block} {g : Tabular} : ofBlocks proc bs = .ok g → Reached g
  | remove {g g' : Tabular} {l : Label} {b : Block} : Reached g → g.remove l = some (b, g') → Reached g'
  | push {g g' : Tabular} {b : Block} : Reached g → g.push b = .ok g' → Reached g'
  | append {g g' : Tabular} {l : Label} {body jumps : List Instr} : Reached g →
      g.modify l (fun b => ⟨b.label, b.body ++ body, b.jumps ++ jumps⟩) = some g' → Reached g'
  | replace {g g' : Tabular} {l : Label} {f : Block → Block} : Reached g → (∀ b, (f b).blank = b.blank) →
      g.modify l f = some g' → Reached g'
  | replaceAll {g : Tabular} {f : Block → Block} : Reached g → (∀ b, (f b).blank = b.blank) → Reached (g.mapBlocks f)

/-- The order and the table agree, whatever changes have been made. -/
theorem Reached.coherent {g : Tabular} (h : g.Reached) : g.Coherent := by
  induction h with
  | new h => exact .of_ofBlocks h
  | remove _ hr ih => exact ih.remove hr
  | push _ hp ih => exact ih.push hp
  | append _ hm ih => exact ih.modify hm fun _ => rfl
  | replace _ hf hm ih => exact ih.modify hm fun b => Block.label_of_blank (hf b)
  | replaceAll _ hf ih => exact ih.mapBlocks fun b => Block.label_of_blank (hf b)

end Cfg.Tabular

end ThreeAddress

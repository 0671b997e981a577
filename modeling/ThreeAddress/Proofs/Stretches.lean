import ThreeAddress.Proofs.CutLabels
import ThreeAddress.Proofs.Paths
import ThreeAddress.Proofs.Spots
/-!
# Phis in blocks that are cut

Linear code selects the source of a phi by the label that was passed last, and a graph by the block that control
comes from. Where a stretch of code behind a label is cut behind a conditional jump the two differ: the rest of
the stretch is a block with another label, and a phi behind it still has its source for the label of the stretch.
Blocks that can be reached stand where linear code can be, with the label of their stretch as the last one passed
(`Procedure.standing_of_path`), so phis that are covered in linear code have sources for the stretches that their
predecessors belong to (`Procedure.source_of_predecessor`). The entry that is put in front of a first block belongs
to no stretch.
-/

namespace ThreeAddress

/-! ## Covered phis -/

/-- What comes before any jump and any label. -/
def straight (rest : List Instr) : List Instr := rest.takeWhile fun i => !i.isTerminator && i.label?.isNone

/-- The phis that follow the label which is next. -/
def Spot.phis (s : Spot) : List PhiSources :=
  match s.rest with
  | .label _ :: rest => (straight rest).filterMap Instr.sources?
  | _ => []

/-- If a label is next, the phis that follow it have a source for the label that was passed last. -/
def Spot.Covered (s : Spot) : Prop := ∀ k ∈ s.passed?, ∀ sources ∈ s.phis, k ∈ sources.labels

instance (s : Spot) : Decidable s.Covered :=
  inferInstanceAs (Decidable (∀ k ∈ s.passed?, ∀ sources ∈ s.phis, k ∈ sources.labels))

namespace Procedure

variable {p : Procedure} {c : Cfg}

/-- Every phi that follows a label has a source for each label that can be the last one passed when control gets
there. -/
def PhisCovered (p : Procedure) : Prop := ∀ s, p.Visits s → s.Covered

/-- The spot behind so many instructions. -/
def spotAt (p : Procedure) (n : Nat) (passed? : Option Label) : Spot := ⟨p.body.drop n, passed?⟩

/-- It is enough to look at spots that control does not leave. -/
theorem phisCovered_of_closed (spots : List Spot) (hstart : p.spotAt 0 none ∈ spots)
    (hnext : ∀ s ∈ spots, ∀ t ∈ s.nexts p.body, t ∈ spots) (h : ∀ s ∈ spots, s.Covered) : p.PhisCovered := by
  intro s hs
  refine h s ?_
  induction hs with
  | refl => exact hstart
  | tail _ ht ih => exact hnext _ ih _ ht

end Procedure

/-! ## Blocks of a stretch -/

namespace Cfg

/-- A block belongs to the stretch of code behind a label: it is the block of that label, or control gets there from
such a block and it has no label of its own. -/
inductive Stretch (c : Cfg) (labels : List Label) (l : Label) : Label → Prop
  | self : l ∈ labels → Stretch c labels l l
  | cut {k u : Label} : Stretch c labels l k → c.Edge k u → u ∉ labels → Stretch c labels l u

theorem Stretch.eq_of_mem {c : Cfg} {labels : List Label} {l k : Label} (h : c.Stretch labels l k) (hk : k ∈ labels) :
    k = l := by
  cases h with
  | self => rfl
  | cut _ _ hu => exact absurd hk hu

end Cfg

namespace Cut

variable {c : Cfg} {taken : List Label} {rest is js : List Instr}

/-- The body of a block stands at the head of its code. -/
theorem Becomes.prefix_straight (h : Becomes c taken rest is js) : is <+: straight rest := by
  induction h with
  | step ht hl _ ih => simpa [straight, ht, hl] using ih
  | _ => exact List.nil_prefix

end Cut

namespace Procedure

variable {p : Procedure} {c : Cfg}

/-- Control gets from the stretch of a label to a block: to the label of that, or, if it has none, straight to its
code. -/
def Enters (p : Procedure) (c : Cfg) (l u : Label) : Prop :=
  ∃ rest d, c.block? u = some d ∧ Cut.Becomes c p.labels rest d.body d.jumps ∧
    (u ∈ p.labels ∧ p.Visits ⟨.label u :: rest, some l⟩ ∨ u ∉ p.labels ∧ p.Visits ⟨rest, some l⟩)

section

variable (hplaced : Cut.Placed c p.labels p.body) (htargets : ∀ t ∈ p.targets, t ∈ p.labels)
include hplaced htargets

/-- A jump of the body leads to the block that is made of what stands behind its label. -/
theorem enters_of_jump {i : Instr} {rest : List Instr} {l u : Label} (h : p.Visits ⟨i :: rest, some l⟩)
    (hi : i.target? = some u) : p.Enters c l u := by
  have hu : u ∈ p.labels := htargets u (List.mem_filterMap.2 ⟨i, h.suffix.subset List.mem_cons_self, hi⟩)
  obtain ⟨j, hj, hju⟩ := List.mem_filterMap.1 hu
  obtain rfl := Instr.eq_label_of_label? hju
  obtain ⟨later, hlater⟩ := exists_from? hj
  obtain ⟨rest', d, rfl, hd, hbecomes⟩ := hplaced u later hlater
  exact ⟨rest', d, hd, hbecomes, .inl ⟨hu, h.jump hi hlater⟩⟩

/-- Where a block leads, control gets in linear code. -/
theorem enters_of_becomes {rest is js : List Instr} (hbecomes : Cut.Becomes c p.labels rest is js) {l u : Label}
    (h : p.Visits ⟨rest, some l⟩) (hu : u ∈ js.filterMap Instr.target?) : p.Enters c l u := by
  induction hbecomes with
  | @step i rest is js ht hl _ ih =>
    have hon := h.on (Instr.isFinal_of_not_isTerminator ht)
    exact ih (by rwa [hl] at hon) hu
  | branch _ ih =>
    rcases List.mem_cons.1 hu with rfl | hu
    · exact enters_of_jump hplaced htargets h rfl
    · exact ih (h.on rfl) hu
  | cut hfree hb hbecomes =>
    rcases List.mem_cons.1 hu with rfl | hu
    · exact enters_of_jump hplaced htargets h rfl
    · obtain rfl := List.mem_singleton.1 hu
      exact ⟨_, _, hb, hbecomes, .inr ⟨hfree, h.on rfl⟩⟩
  | @final j rest hj =>
    have hj : j.target? = some u := by simpa using hu
    exact enters_of_jump hplaced htargets h hj
  | @fall t b rest hb hbecomes =>
    obtain rfl := List.mem_singleton.1 hu
    exact ⟨_, _, hb, hbecomes, .inl ⟨List.mem_filterMap.2 ⟨_, h.suffix.subset List.mem_cons_self, rfl⟩, h⟩⟩
  | finish => cases hu

end

/-- Control can be where the code of a block stands, with the label of its stretch as the one passed last. -/
def Standing (p : Procedure) (c : Cfg) (k : Label) : Prop :=
  ∃ l rest d, c.Stretch p.labels l k ∧ c.block? k = some d ∧ Cut.Becomes c p.labels rest d.body d.jumps ∧
    p.Visits ⟨rest, some l⟩

theorem Standing.of_edge (hvalid : c.Valid) (hplaced : Cut.Placed c p.labels p.body)
    (htargets : ∀ t ∈ p.targets, t ∈ p.labels) {k u : Label} (h : p.Standing c k) (hedge : c.Edge k u) :
    p.Standing c u := by
  obtain ⟨l, rest, d, hstretch, hd, hbecomes, hvisits⟩ := h
  obtain ⟨b, hb, rfl, hu⟩ := id hedge
  cases (hvalid.block?_of_mem hb).symm.trans hd
  obtain ⟨rest', d', hd', hbecomes', ⟨hmem, hvisits'⟩ | ⟨hfree, hvisits'⟩⟩ :=
    enters_of_becomes hplaced htargets hbecomes hvisits hu
  · exact ⟨u, rest', d', .self hmem, hd', hbecomes', hvisits'.on rfl⟩
  · exact ⟨l, rest', d', hstretch.cut hedge hfree, hd', hbecomes', hvisits'⟩

/-- In a body that begins with a label every block that can be reached stands where control can be, but for an entry
that is put in front. -/
theorem standing_of_path {first : Label} {rest : List Instr} (h : p.cfg = .ok c)
    (hbody : p.body = .label first :: rest) (htargets : ∀ t ∈ p.targets, t ∈ p.labels) {ls : List Label} {k : Label}
    (hpath : c.Path ls k) : p.Standing c k ∨ k = c.entry ∧ c.entry ∉ p.labels := by
  have hvalid := (Cfg.ofBlocks_eq_ok.1 h).2.2
  obtain ⟨l, rest, b, hstart, hb, hbecomes, hplaced, hentry⟩ := exists_start h
  have hstart : p.body = .label l :: rest := by
    refine hstart.resolve_left fun hnone => ?_
    rw [hbody] at hnone
    cases hnone.2
  have hfirst : p.Standing c l := by
    have hvisits : p.Visits ⟨.label l :: rest, none⟩ := hstart ▸ .refl
    have hmem : l ∈ p.labels := by simp [labels, hstart, Instr.label?]
    exact ⟨l, rest, b, .self hmem, hb, hbecomes, hvisits.on rfl⟩
  induction hpath with
  | entry =>
    rcases hentry with hentry | ⟨hentry, -⟩
    · exact .inl (hentry ▸ hfirst)
    · exact .inr ⟨rfl, hentry⟩
  | @step ls k u _ hedge ih =>
    rcases ih with ih | ⟨rfl, hfree⟩
    · exact .inl (ih.of_edge hvalid hplaced htargets hedge)
    · rcases hentry with rfl | ⟨-, hentry⟩
      · exact .inl (hfirst.of_edge hvalid hplaced htargets hedge)
      · -- An entry that is put in front does nothing but jump to the first block.
        obtain ⟨d, hd, hlabel, hu⟩ := hedge
        cases (hlabel ▸ hvalid.block?_of_mem hd).symm.trans hentry
        obtain rfl := List.mem_singleton.1 hu
        exact .inl hfirst

/-- A loop that is entered behind a conditional jump, and left behind another one. -/
def forked : Procedure where
  name := "@main"
  params := [⟨"%n"⟩]
  body := [
    .label ⟨"start"⟩,
    .branch .jz (.temp ⟨"%n"⟩) ⟨"end"⟩,
    .const ⟨"%k"⟩ 1,
    .label ⟨"loop"⟩,
    .phi ⟨"%i"⟩ (.ofList [(⟨"start"⟩, .temp ⟨"%k"⟩), (⟨"loop"⟩, .temp ⟨"%j"⟩)]),
    .binary ⟨"%j"⟩ .sub (.temp ⟨"%i"⟩) (.imm 1),
    .branch .jnz (.temp ⟨"%j"⟩) ⟨"loop"⟩,
    .binary ⟨"%m"⟩ .add (.temp ⟨"%j"⟩) (.imm 1),
    .label ⟨"end"⟩,
    .phi ⟨"%r"⟩ (.ofList [(⟨"start"⟩, .temp ⟨"%n"⟩), (⟨"loop"⟩, .temp ⟨"%m"⟩)]),
    .ret (some (.temp ⟨"%r"⟩))]

/-- The graph of `forked`: `%.L0` is cut off from `start`, and `%.L1` from `loop`. -/
def forkedGraph : Cfg where
  proc := "@main"
  entry := ⟨"start"⟩
  blocks := [
    ⟨⟨"start"⟩, [], [.branch .jz (.temp ⟨"%n"⟩) ⟨"end"⟩, .jump ⟨"%.L0"⟩]⟩,
    ⟨⟨"%.L0"⟩, [.const ⟨"%k"⟩ 1], [.jump ⟨"loop"⟩]⟩,
    ⟨⟨"loop"⟩,
      [.phi ⟨"%i"⟩ (.ofList [(⟨"start"⟩, .temp ⟨"%k"⟩), (⟨"loop"⟩, .temp ⟨"%j"⟩)]),
        .binary ⟨"%j"⟩ .sub (.temp ⟨"%i"⟩) (.imm 1)],
      [.branch .jnz (.temp ⟨"%j"⟩) ⟨"loop"⟩, .jump ⟨"%.L1"⟩]⟩,
    ⟨⟨"%.L1"⟩, [.binary ⟨"%m"⟩ .add (.temp ⟨"%j"⟩) (.imm 1)], [.jump ⟨"end"⟩]⟩,
    ⟨⟨"end"⟩, [.phi ⟨"%r"⟩ (.ofList [(⟨"start"⟩, .temp ⟨"%n"⟩), (⟨"loop"⟩, .temp ⟨"%m"⟩)])],
      [.ret (some (.temp ⟨"%r"⟩))]⟩]

theorem cfg_forked : forked.cfg = .ok forkedGraph := rfl

theorem phisCovered_forked : forked.PhisCovered := by
  let start : Option Label := some ⟨"start"⟩
  let loop : Option Label := some ⟨"loop"⟩
  let last : Option Label := some ⟨"end"⟩
  -- The label `loop` is reached from `start` and from `loop`, and so is the label `end`.
  let spots : List (Nat × Option Label) := [(0, none), (1, start), (2, start), (3, start), (8, start), (3, loop),
    (4, loop), (5, loop), (6, loop), (7, loop), (8, loop), (9, last), (10, last)]
  exact phisCovered_of_closed (spots.map fun s => forked.spotAt s.1 s.2) (by decide +kernel) (by decide +kernel)
    (by decide +kernel)

/-- Phis that are covered in a body that begins with a label have sources for all predecessors in reach. -/
def KeepsPhis (p : Procedure) : Prop :=
  ∀ c first rest, p.cfg = .ok c → p.body = .label first :: rest → p.PhisCovered →
    ∀ b ∈ c.blocks, b.label ∈ p.labels → ∀ dest sources, .phi dest sources ∈ b.body →
      ∀ k ∈ c.predecessors b.label, c.Reachable k → k ∈ sources.labels

/-- A loop around a phi at the start, where no label has been passed when control first gets there. -/
def circling : Procedure :=
  ⟨"@main", [], [.label ⟨"loop"⟩, .phi ⟨"%i"⟩ (.ofList [(⟨"loop"⟩, .imm 1)]), .jump ⟨"loop"⟩]⟩

/-- The graph of `circling`: the entry `%.L0` is put in front. -/
def circlingGraph : Cfg where
  proc := "@main"
  entry := ⟨"%.L0"⟩
  blocks := [
    ⟨⟨"%.L0"⟩, [], [.jump ⟨"loop"⟩]⟩,
    ⟨⟨"loop"⟩, [.phi ⟨"%i"⟩ (.ofList [(⟨"loop"⟩, .imm 1)])], [.jump ⟨"loop"⟩]⟩]

theorem phisCovered_circling : circling.PhisCovered :=
  phisCovered_of_closed [circling.spotAt 0 none, circling.spotAt 1 (some ⟨"loop"⟩), circling.spotAt 2 (some ⟨"loop"⟩),
    circling.spotAt 0 (some ⟨"loop"⟩)] (by decide) (by decide) (by decide)

/-- A jump to a label that the body does not define and that the code behind the jump is given. -/
def strayed : Procedure :=
  ⟨"@main", [], [.label ⟨"start"⟩, .jump ⟨"%.L0"⟩, .const ⟨"%k"⟩ 1, .label ⟨"end"⟩,
    .phi ⟨"%i"⟩ (.ofList [(⟨"end"⟩, .temp ⟨"%k"⟩)])]⟩

/-- The graph of `strayed`, where `%.L0` leads to the end. -/
def strayedGraph : Cfg where
  proc := "@main"
  entry := ⟨"start"⟩
  blocks := [
    ⟨⟨"start"⟩, [], [.jump ⟨"%.L0"⟩]⟩,
    ⟨⟨"%.L0"⟩, [.const ⟨"%k"⟩ 1], [.jump ⟨"end"⟩]⟩,
    ⟨⟨"end"⟩, [.phi ⟨"%i"⟩ (.ofList [(⟨"end"⟩, .temp ⟨"%k"⟩)])], [.ret none]⟩]

theorem phisCovered_strayed : strayed.PhisCovered :=
  phisCovered_of_closed [strayed.spotAt 0 none, strayed.spotAt 1 (some ⟨"start"⟩)] (by decide) (by decide) (by decide)

end Procedure

end ThreeAddress

import ThreeAddress.Proofs.GraphRun
import ThreeAddress.Proofs.LinearRun
/-!
# Linear code that a graph lays out

`Fits c sync l rest is js` says that the linear code `rest` does what remains of the block `l` of a
graph: the instructions `is` of its body and the jumps `js`. A jump to the block that comes next may
be left out of linear code, and the block behind a conditional jump may have no label there. Where
`sync` holds every block has its label, so that linear code passes the labels of the blocks that the
graph enters; without it phis, which ask for those labels, do not occur.

A body whose labels all stand where a block fits (`Layout`) runs as the graph does.
-/

namespace ThreeAddress

/-- Linear code that does what remains of a block. -/
inductive Fits (c : Cfg) (sync : Prop) : Label → List Instr → List Instr → List Instr → Prop
  | step {l : Label} {i : Instr} {rest is js : List Instr} :
      i.isTerminator = false → i.label? = none → (i.isPhi = true → sync) →
      Fits c sync l rest is js → Fits c sync l (i :: rest) (i :: is) js
  | branch {l t : Label} {cond : Condition} {v : Operand} {rest js : List Instr} :
      Fits c sync l rest [] js →
      Fits c sync l (.branch cond v t :: rest) [] (.branch cond v t :: js)
  | branchSplit {l t u : Label} {cond : Condition} {v : Operand} {b : Block} {rest : List Instr} :
      ¬ sync → c.block? u = some b → Fits c sync u rest b.body b.jumps →
      Fits c sync l (.branch cond v t :: rest) [] [.branch cond v t, .jump u]
  | final {l : Label} {j : Instr} {rest js : List Instr} :
      j.isFinal = true → Fits c sync l (j :: rest) [] (j :: js)
  | fall {l t : Label} {b : Block} {rest js : List Instr} :
      c.block? t = some b → Fits c sync t rest b.body b.jumps →
      Fits c sync l (.label t :: rest) [] (.jump t :: js)
  | finish {l : Label} {js : List Instr} : Fits c sync l [] [] (.ret none :: js)

/-- The label of a block fits in every place that linear code jumps to. -/
def Layout (c : Cfg) (sync : Prop) (body : List Instr) : Prop :=
  ∀ t rest, from? t body = some rest →
    ∃ rest' b, rest = .label t :: rest' ∧ c.block? t = some b ∧ Fits c sync t rest' b.body b.jumps

/-- Phis that stand together do so on both sides. -/
theorem Fits.phis {c : Cfg} {sync : Prop} {l : Label} {rest is js : List Instr}
    (h : Fits c sync l rest is js) : rest.takeWhile Instr.isPhi = is.takeWhile Instr.isPhi ∧
      Fits c sync l (rest.dropWhile Instr.isPhi) (is.dropWhile Instr.isPhi) js := by
  induction h with
  | @step l i rest is js ht hl hs h ih =>
    by_cases hi : i.isPhi
    · simpa [hi] using ih
    · simpa [hi] using Fits.step ht hl hs h
  | branch h => exact ⟨rfl, .branch h⟩
  | branchSplit hs hb h => exact ⟨rfl, .branchSplit hs hb h⟩
  | @final _ j rest js hj =>
    have hi : j.isPhi = false := Instr.isPhi_of_isTerminator (Instr.isTerminator_of_isFinal hj)
    simpa [hi] using Fits.final hj
  | fall hb h => exact ⟨rfl, .fall hb h⟩
  | finish => exact ⟨rfl, .finish⟩

/-! ## From linear code to the graph -/

section

variable {calls : Calls} {c : Cfg} {sync : Prop}

theorem leaves_jump_iff {prev? : Option Label} {l t : Label} {js : List Instr} {σ : Store} {f : Final} :
    c.Leaves calls prev? l [] (.jump t :: js) σ f ↔ c.Runs calls (some l) t σ f := by
  constructor
  · rintro ⟨σ', hbody, ⟨v?, he, -⟩ | ⟨u, he, hrun⟩⟩ <;> cases hbody <;> cases he
    exact hrun
  · exact fun h => ⟨σ, .nil σ, .inr ⟨t, rfl, h⟩⟩

theorem leaves_taken {prev? : Option Label} {cond : Condition} {v : Operand} {k : Int64} {l t : Label}
    {js : List Instr} {σ : Store} {f : Final} (hv : σ.value? v = some k) (hc : cond.holds k = true)
    (h : c.Runs calls (some l) t σ f) : c.Leaves calls prev? l [] (.branch cond v t :: js) σ f :=
  ⟨σ, .nil σ, .inr ⟨t, by simp [Store.exit?, hv, hc], h⟩⟩

theorem leaves_passed {prev? : Option Label} {cond : Condition} {v : Operand} {k : Int64} {l t : Label}
    {js : List Instr} {σ : Store} {f : Final} (hv : σ.value? v = some k) (hc : cond.holds k = false)
    (h : c.Leaves calls prev? l [] js σ f) : c.Leaves calls prev? l [] (.branch cond v t :: js) σ f := by
  obtain ⟨σ', hbody, h⟩ := h
  cases hbody
  exact ⟨σ, .nil σ, by simpa [Store.exit?, hv, hc] using h⟩

/-- A run of linear code is a run of a graph that it fits. -/
theorem LinearRun.leaves {body : List Instr} (hbody : Layout c sync body) {rest : List Instr}
    {prev? cur? : Option Label} {σ : Store} {f : Final}
    (h : LinearRun calls body rest prev? cur? σ f) :
    ∀ {p? : Option Label} {l : Label} {is js : List Instr}, Fits c sync l rest is js →
      (sync → p? = prev? ∧ cur? = some l) → c.Leaves calls p? l is js σ f := by
  induction h with
  | done =>
    intro p? l is js hfit _
    cases hfit with
    | finish => exact ⟨_, .nil _, .inl ⟨none, rfl, rfl⟩⟩
  | label _ ih =>
    intro p? l is js hfit hsync
    cases hfit with
    | step _ hl => simp [Instr.label?] at hl
    | final hj => simp [Instr.isFinal] at hj
    | fall hb hfit =>
      exact leaves_jump_iff.2 ((Cfg.runs_iff_leaves hb).2 (ih hfit fun hs => ⟨(hsync hs).2.symm, rfl⟩))
  | exec he _ ih =>
    intro p? l is js hfit hsync
    obtain ⟨hi, ht, hl⟩ := he.plain
    cases hfit with
    | step _ _ _ hfit =>
      obtain ⟨σ', hbody, hexit⟩ := ih hfit hsync
      exact ⟨σ', .exec he hbody, hexit⟩
    | branch | branchSplit => simp [Instr.isTerminator] at ht
    | final hj => simp [Instr.isTerminator_of_isFinal hj] at ht
    | fall => simp [Instr.label?] at hl
  | phis hi hp hg _ ih =>
    intro p? l is js hfit hsync
    cases hfit with
    | step _ _ hs hfit =>
      obtain ⟨htake, hdrop⟩ := hfit.phis
      obtain ⟨σ', hbody, hexit⟩ := ih hdrop hsync
      exact ⟨σ', .phis hi ((hsync (hs hi)).1.trans hp) (htake ▸ hg) hbody, hexit⟩
    | branch | branchSplit | fall => simp [Instr.isPhi] at hi
    | final hj => simp [Instr.isPhi_of_isTerminator (Instr.isTerminator_of_isFinal hj)] at hi
  | jump ht _ ih =>
    intro p? l is js hfit hsync
    obtain ⟨rest, b, rfl, hb, hfit'⟩ := hbody _ _ ht
    cases hfit with
    | step ht' => simp [Instr.isTerminator] at ht'
    | final => exact ih (.fall hb hfit') hsync
  | taken hv hc ht _ ih =>
    intro p? l is js hfit hsync
    obtain ⟨rest, b, rfl, hb, hfit'⟩ := hbody _ _ ht
    cases hfit with
    | step ht' => simp [Instr.isTerminator] at ht'
    | branch => exact leaves_taken hv hc (leaves_jump_iff.1 (ih (@Fits.fall c sync _ _ b rest [] hb hfit') hsync))
    | branchSplit =>
      exact leaves_taken hv hc (leaves_jump_iff.1 (ih (@Fits.fall c sync _ _ b rest [] hb hfit') hsync))
    | final hj => simp [Instr.isFinal] at hj
  | passed hv hc _ ih =>
    intro p? l is js hfit hsync
    cases hfit with
    | step ht' => simp [Instr.isTerminator] at ht'
    | branch hfit => exact leaves_passed hv hc (ih hfit hsync)
    | @branchSplit _ _ u _ _ _ _ hs hb hfit =>
      refine leaves_passed hv hc (leaves_jump_iff.2 ((Cfg.runs_iff_leaves hb).2 ?_))
      exact ih hfit fun h => absurd h hs
    | final hj => simp [Instr.isFinal] at hj
  | ret =>
    intro p? l is js hfit _
    cases hfit with
    | step ht' => simp [Instr.isTerminator] at ht'
    | final => exact ⟨_, .nil _, .inl ⟨none, rfl, rfl⟩⟩
  | retValue hv =>
    intro p? l is js hfit _
    cases hfit with
    | step ht' => simp [Instr.isTerminator] at ht'
    | final => exact ⟨_, .nil _, .inl ⟨_, by simp [Store.exit?, hv], rfl⟩⟩

end

/-! ## From the graph to linear code -/

section

variable {calls : Calls} {c : Cfg} {body : List Instr}

/-- The linear code of a block goes on from an exit as the graph does. -/
def GoesOn (calls : Calls) (c : Cfg) (body : List Instr) (l : Label) (σ : Store) (f : Final) :
    Store.Exit → Prop
  | .ret v? => f = σ.final v?
  | .to t => ∃ b, c.block? t = some b ∧ ∀ rest, Fits c True t rest b.body b.jumps →
      LinearRun calls body rest (some l) (some t) σ f

theorem linearRun_of_from? (hbody : Layout c True body)
    (hfound : ∀ t b, c.block? t = some b → ∃ rest, from? t body = some rest) {prev? : Option Label}
    {l t : Label} {σ : Store} {f : Final} (h : GoesOn calls c body l σ f (.to t)) :
    ∃ rest, from? t body = some rest ∧ LinearRun calls body rest prev? (some l) σ f := by
  obtain ⟨b, hb, hgo⟩ := h
  obtain ⟨rest, hrest⟩ := hfound t b hb
  obtain ⟨rest', b', rfl, hb', hfit⟩ := hbody t rest hrest
  cases hb.symm.trans hb'
  exact ⟨_, hrest, .label (hgo _ hfit)⟩

/-- The jumps of a block in linear code lead where they lead in the graph. -/
theorem linearRun_of_exit (hbody : Layout c True body)
    (hfound : ∀ t b, c.block? t = some b → ∃ rest, from? t body = some rest) {prev? : Option Label}
    {l : Label} {σ : Store} {e : Store.Exit} {f : Final} (hgo : GoesOn calls c body l σ f e)
    {js : List Instr} (he : σ.exit? js = some e) {rest : List Instr} (hfit : Fits c True l rest [] js) :
    LinearRun calls body rest prev? (some l) σ f := by
  induction js generalizing rest with
  | nil => simp [Store.exit?] at he
  | cons j js ih =>
    cases hfit with
    | @branch _ t cond v rest _ hfit =>
      simp only [Store.exit?] at he
      split at he
      · rename_i k hv
        split at he
        · rename_i hc
          cases he
          obtain ⟨rest, hrest, hrun⟩ := linearRun_of_from? hbody hfound hgo
          exact .taken hv hc hrest hrun
        · rename_i hc
          exact .passed hv (by simpa using hc) (ih he hfit)
      · simp at he
    | branchSplit hs => exact absurd trivial hs
    | final hj =>
      cases j with
      | jump t =>
        cases he
        obtain ⟨rest, hrest, hrun⟩ := linearRun_of_from? hbody hfound hgo
        exact .jump hrest hrun
      | ret v =>
        cases v with
        | none =>
          cases he
          cases hgo
          exact .ret
        | some v =>
          obtain ⟨k, hv, rfl⟩ := Option.map_eq_some_iff.1 he
          cases hgo
          exact .retValue hv
      | _ => simp [Instr.isFinal] at hj
    | fall hb hfit =>
      cases he
      obtain ⟨b, hb', hrun⟩ := hgo
      cases hb.symm.trans hb'
      exact .label (hrun _ hfit)
    | finish =>
      cases he
      cases hgo
      exact .done

/-- Linear code leaves a block as the graph does, and goes on as the graph does. -/
theorem linearRun_of_body (hbody : Layout c True body)
    (hfound : ∀ t b, c.block? t = some b → ∃ rest, from? t body = some rest) {prev? : Option Label}
    {l : Label} {is js : List Instr} {σ σ' : Store} {e : Store.Exit} {f : Final}
    (h : Store.Body calls prev? is σ σ') (he : σ'.exit? js = some e)
    (hgo : GoesOn calls c body l σ' f e) {rest : List Instr} (hfit : Fits c True l rest is js) :
    LinearRun calls body rest prev? (some l) σ f := by
  induction h generalizing rest with
  | nil => exact linearRun_of_exit hbody hfound hgo he hfit
  | exec hi _ ih =>
    cases hfit with
    | step _ _ _ hfit => exact .exec hi (ih he hgo hfit)
  | phis hi hp hg _ ih =>
    cases hfit with
    | step _ _ _ hfit =>
      obtain ⟨htake, hdrop⟩ := hfit.phis
      exact .phis hi hp (htake ▸ hg) (ih he hgo hdrop)

/-- A run of a graph is a run of linear code that fits it, if every block is found by its label. -/
theorem Cfg.Runs.linearRun (hbody : Layout c True body)
    (hfound : ∀ t b, c.block? t = some b → ∃ rest, from? t body = some rest) {prev? : Option Label}
    {l : Label} {σ : Store} {f : Final} (h : c.Runs calls prev? l σ f) {b : Block}
    {rest : List Instr} (hb : c.block? l = some b) (hfit : Fits c True l rest b.body b.jumps) :
    LinearRun calls body rest prev? (some l) σ f := by
  induction h generalizing b rest with
  | ret hb' h he =>
    cases hb.symm.trans hb'
    exact linearRun_of_body hbody hfound h he rfl hfit
  | step hb' h he hrun ih =>
    cases hb.symm.trans hb'
    obtain ⟨b', hb'⟩ := hrun.block?
    exact linearRun_of_body hbody hfound h he ⟨b', hb', fun _ hfit => ih hb' hfit⟩ hfit

end

end ThreeAddress

import ThreeAddress.Proofs.Constants.Folding
import ThreeAddress.Proofs.Runs
/-!
# The analysis of constants along every run

A run of a program passes through states, and so does a run that ends in a fault. At each of them, in
the running procedure and in those that wait for it, what the analysis of a graph says holds of every
frame of the linear code of that graph (`analyze_sound`). The invariant of a frame ties its position to
a block that executes (`Facts.Position`) and its locals to the values that the analysis allows.
-/

namespace ThreeAddress

namespace Constants

namespace Facts

/-! ## Frames -/

/-- Where linear code stands: at its beginning, or in a block that executes and was entered by an edge
that executes, with jumps to come that lead along such edges only. -/
def Position (c : Cfg) (f : Facts) (rest : List Instr) (previous? current? : Option Label) : Prop :=
  (rest = c.linear ∧ current? = none) ∨
  ∃ b ∈ c.blocks, ∃ is js, current? = some b.label ∧ f.executes b.label = true ∧
    (∀ k, previous? = some k → f.follows k b.label = true) ∧ Fits c True b.label rest is js ∧
    (∀ i ∈ is, i ∈ b.body) ∧ ∀ t ∈ f.openTargets js, f.follows b.label t = true

/-- What the facts say of a frame of linear code. -/
structure Tracks (c : Cfg) (f : Facts) (fr : Frame) : Prop where
  position : f.Position c fr.rest fr.previous? fr.current?
  values (t : Temp) (v : Int64) :
    t.isGlobal = false → fr.locals.get? t = some v → .constant v ≤ f.value t

/-- Facts about the frames of one procedure, `q`. A frame that waits for a result does not know it. -/
structure TracksAll (c : Cfg) (f : Facts) (q : Procedure) (s : State) : Prop where
  frame : s.frame.proc = q → f.Tracks c s.frame
  callers : ∀ k ∈ s.callers, k.frame.proc = q →
    f.Tracks c k.frame ∧ ∀ t, k.dest? = some t → f.value t = .varies

variable {c : Cfg} {f : Facts} {q : Procedure} {s s' : State}

theorem Tracks.covers (h : f.Tracks c s.frame) (hf : f.Closed c) : f.Covers s.store :=
  hf.covers h.values

theorem Covers.values {σ : Store} (h : f.Covers σ) (t : Temp) (v : Int64) (ht : t.isGlobal = false)
    (hv : σ.locals.get? t = some v) : .constant v ≤ f.value t :=
  h t v (by rwa [Store.temp?_of_local ht])

/-! ## Returning -/

theorem TracksAll.receive (h : TracksAll c f q s) {dest? : Option Temp} {v? : Option Int64}
    (hd : s.frame.proc = q → ∀ t, dest? = some t → f.value t = .varies) :
    TracksAll c f q (s.receive dest? v?) := by
  rw [← State.withStore_receive]
  refine ⟨fun hq => ⟨(h.frame hq).position, fun t v ht hv => ?_⟩, h.callers⟩
  have hv : (s.store.receive dest? v?).locals.get? t = some v := hv
  rw [← Store.temp?_of_local ht, Store.temp?_receive_local ht] at hv
  split at hv
  · rw [hd hq t ‹_›]
    exact Value.le_varies _
  · exact (h.frame hq).values t v ht (by rwa [Store.temp?_of_local ht] at hv)

/-- A procedure that waited goes on with what it is given. -/
theorem TracksAll.resumed {callers : List Caller} (h : ∀ k ∈ callers, k.frame.proc = q →
      f.Tracks c k.frame ∧ ∀ t, k.dest? = some t → f.value t = .varies)
    (hs : State.Resumes callers s) : TracksAll c f q s := by
  obtain ⟨hsuffix⟩ := hs
  have hk := h _ (hsuffix.subset List.mem_cons_self)
  exact TracksAll.receive ⟨fun hq => (hk hq).1, fun k' hk' => h k' (hsuffix.subset (.tail _ hk'))⟩
    fun hq => (hk hq).2

theorem TracksAll.settled (h : TracksAll c f q s) (hs : s.settled = .running s') :
    TracksAll c f q s' := by
  rcases State.eq_or_resumes_of_settled hs with rfl | hs
  · exact h
  · exact TracksAll.resumed h.callers hs

/-! ## Steps -/

/-- A procedure that has just been called. -/
theorem TracksAll.start (hf : f.Closed c) (hc : c.linear = q.body)
    (hq : ∀ t ∈ q.params, t.isVersioned = false) (p : Procedure) (args : List Int64) {callers : List Caller}
    (h : ∀ k ∈ callers, k.frame.proc = q →
      f.Tracks c k.frame ∧ ∀ t, k.dest? = some t → f.value t = .varies)
    (globals : Table Temp Int64) (output : List String) :
    TracksAll c f q ⟨globals, output, .start p args, callers⟩ := by
  refine ⟨fun hp => ⟨.inl ⟨?_, rfl⟩, ?_⟩, h⟩
  · obtain rfl : p = q := hp
    exact hc.symm
  · obtain rfl : p = q := hp
    exact (hf.covers_start hq (Store.onlyParams_start _ args globals output)).values

/-- Linear code that jumps to a label stands where the graph enters the block. -/
theorem Position.goTo (hc : c.Closed) {b : Block} (hb : b ∈ c.blocks) {t : Label}
    {rest : List Instr} {previous? : Option Label} (hx : f.executes b.label = true)
    (hprev : ∀ k, previous? = some k → f.follows k b.label = true) (ht : f.follows b.label t = true)
    (hrest : from? t c.linear = some rest) : f.Position c rest previous? (some b.label) := by
  obtain ⟨rest', b', rfl, hb', hfit⟩ := hc.layout t rest hrest
  refine .inr ⟨b, hb, [], [.jump t], rfl, hx, hprev, .fall hb' hfit, by simp, ?_⟩
  simpa [openTargets] using ht

/-- Passing a label, at the beginning or where a block falls through to the next. -/
theorem Position.enter (hf : f.Closed c) (hc : c.Closed) {l : Label} {rest : List Instr}
    {previous? current? : Option Label} (h : f.Position c (.label l :: rest) previous? current?) :
    f.Position c rest current? (some l) := by
  have enters : ∀ {b : Block}, c.block? l = some b → Fits c True l rest b.body b.jumps →
      f.executes l = true → (∀ k, current? = some k → f.follows k l = true) →
      f.Position c rest current? (some l) := by
    intro b hb hfit hx hprev
    obtain rfl := Cfg.label_of_block? hb
    have hmem := Cfg.mem_of_block? hb
    exact .inr ⟨b, hmem, b.body, b.jumps, rfl, hx, hprev, hfit, fun i hi => hi,
      fun t ht => hf.edge hmem hx ht⟩
  rcases h with ⟨hrest, rfl⟩ | ⟨b, hb, is, js, rfl, hx, hprev, hfit, his, hopen⟩
  · obtain ⟨b, bs, hbs, hl⟩ := hc.exists_entry
    rw [Cfg.linear, hbs, linearize_cons, List.cons.injEq, Instr.label.injEq] at hrest
    obtain ⟨rfl, rfl⟩ := hrest
    exact enters (hc.block?_of_mem (by simp [hbs])) (hc.fits bs [] b (by simp [hbs]))
      (hl ▸ hf.entry) (by simp)
  · cases hfit with
    | step _ hl => simp [Instr.label?] at hl
    | final hj => simp [Instr.isFinal] at hj
    | fall hb' hfit =>
      have hfollows := hopen l (by simp [openTargets])
      exact enters hb' hfit (hf.target hfollows) (by simpa using hfollows)

/-- Linear code begins with a label. -/
theorem not_beginning (hc : c.Closed) {i : Instr} {rest : List Instr} (h : i :: rest = c.linear)
    (hl : i.label? = none) : False := by
  obtain ⟨b, bs, hbs, -⟩ := hc.exists_entry
  rw [Cfg.linear, hbs, linearize_cons, List.cons.injEq] at h
  simp [h.1, Instr.label?] at hl

/-- An instruction other than a label or jump belongs to the body of a block that executes. -/
theorem Position.body (hc : c.Closed) {i : Instr} {rest : List Instr} {previous? current? : Option Label}
    (h : f.Position c (i :: rest) previous? current?) (hl : i.label? = none)
    (ht : i.isTerminator = false) : ∃ b ∈ c.blocks, f.executes b.label = true ∧ i ∈ b.body ∧
      (∀ k, previous? = some k → f.follows k b.label = true) ∧ f.Position c rest previous? current? ∧
      (i.isPhi = true → f.Position c (rest.dropWhile Instr.isPhi) previous? current? ∧
        ∀ j ∈ rest.takeWhile Instr.isPhi, j ∈ b.body) := by
  rcases h with ⟨hrest, -⟩ | ⟨b, hb, is, js, rfl, hx, hprev, hfit, his, hopen⟩
  · exact (not_beginning hc hrest hl).elim
  · cases hfit with
    | @step _ _ _ is _ _ _ _ hfit =>
      have hbody := fun j hj => his j (.tail _ hj)
      refine ⟨b, hb, hx, his i List.mem_cons_self, hprev,
        .inr ⟨b, hb, is, js, rfl, hx, hprev, hfit, hbody, hopen⟩, fun _ => ?_⟩
      obtain ⟨htake, hdrop⟩ := hfit.phis
      refine ⟨.inr ⟨b, hb, _, js, rfl, hx, hprev, hdrop, fun j hj => ?_, hopen⟩, fun j hj => ?_⟩
      · exact hbody j ((List.dropWhile_sublist _).subset hj)
      · exact hbody j ((List.takeWhile_sublist _).subset (htake ▸ hj))
    | branch | branchSplit => simp [Instr.isTerminator] at ht
    | final hj => simp [Instr.isTerminator_of_isFinal hj] at ht
    | fall => simp [Instr.label?] at hl

/-- A conditional jump leads to its target or is passed. -/
theorem Position.branch (hc : c.Closed) {cond : Condition} {v : Operand} {l : Label}
    {rest : List Instr} {previous? current? : Option Label}
    (h : f.Position c (.branch cond v l :: rest) previous? current?) {k : Int64}
    (hv : .constant k ≤ f.operand v) :
    (cond.holds k = true → ∀ rest', from? l c.linear = some rest' →
      f.Position c rest' previous? current?) ∧
    (cond.holds k = false → f.Position c rest previous? current?) := by
  rcases h with ⟨hrest, -⟩ | ⟨b, hb, is, js, rfl, hx, hprev, hfit, -, hopen⟩
  · exact (not_beginning hc hrest rfl).elim
  · cases hfit with
    | step ht => simp [Instr.isTerminator] at ht
    | branchSplit hs => exact absurd trivial hs
    | final hj => simp [Instr.isFinal] at hj
    | branch hfit =>
      constructor
      · intro hk rest' hrest'
        refine .goTo hc hb hx hprev (hopen l ?_) hrest'
        rcases Value.constant_le.1 hv with hv | hv <;> simp [openTargets, hv, hk]
      · intro hk
        refine .inr ⟨b, hb, [], _, rfl, hx, hprev, hfit, by simp, fun t ht => hopen t ?_⟩
        rcases Value.constant_le.1 hv with hv | hv <;> simp [openTargets, hv, hk, ht]

theorem Position.jump (hc : c.Closed) {l : Label} {rest rest' : List Instr}
    {previous? current? : Option Label} (h : f.Position c (.jump l :: rest) previous? current?)
    (hrest' : from? l c.linear = some rest') : f.Position c rest' previous? current? := by
  rcases h with ⟨hrest, -⟩ | ⟨b, hb, is, js, rfl, hx, hprev, hfit, -, hopen⟩
  · exact (not_beginning hc hrest rfl).elim
  · cases hfit with
    | step ht => simp [Instr.isTerminator] at ht
    | final hj => exact .goTo hc hb hx hprev (hopen l (by simp [openTargets])) hrest'

variable {i : Instr} {rest : List Instr}

/-- Phis that stand together keep what the facts say of the frame, which came by an edge that executes. -/
theorem Tracks.phis (h : f.Tracks c s.frame) (hf : f.Closed c) (hc : c.Closed) (hrest : s.frame.rest = i :: rest)
    (hi : i.isPhi = true) {l : Label} (hl : s.frame.previous? = some l) {σ : Store}
    (hσ : s.store.Phis l (i :: rest.takeWhile Instr.isPhi) σ) :
    f.Tracks c ((s.withRest (rest.dropWhile Instr.isPhi)).withStore σ).frame := by
  have hpos := h.position
  rw [hrest] at hpos
  obtain ⟨b, hb, -, hmem, hprev, -, hgroup⟩ := hpos.body hc
    (Instr.label?_of_isPhi hi) (Instr.isTerminator_of_isPhi hi)
  obtain ⟨hposition, htake⟩ := hgroup hi
  have hcovers := (h.covers hf).phis hf hb (hprev l hl)
    (fun j hj => (List.mem_cons.1 hj).elim (· ▸ hmem) (htake j)) hσ
  exact ⟨hposition, hcovers.values⟩

theorem Tracks.exec (h : f.Tracks c s.frame) (hf : f.Closed c) (hc : c.Closed) (hrest : s.frame.rest = i :: rest)
    {calls : Calls} {σ : Store} (hσ : s.store.Exec calls i σ) :
    f.Tracks c ((s.withRest rest).withStore σ).frame := by
  have hpos := h.position
  rw [hrest] at hpos
  obtain ⟨-, ht, hl⟩ := hσ.plain
  obtain ⟨b, hb, hx, hmem, -, hposition, -⟩ := hpos.body hc hl ht
  exact ⟨hposition, ((h.covers hf).exec hf hb hx hmem hσ).values⟩

/-- A call may leave any value in its destination, so that nothing is known of it. -/
theorem Tracks.waits (h : f.Tracks c s.frame) (hf : f.Closed c) (hc : c.Closed) {dest? : Option Temp}
    {target : String} {argc : UInt32} (hrest : s.frame.rest = .call dest? target argc :: rest) :
    f.Tracks c { s.frame with rest := rest, staged := ∅ } ∧ ∀ t, dest? = some t → f.value t = .varies := by
  have hpos := h.position
  rw [hrest] at hpos
  obtain ⟨b, hb, hx, hmem, -, hposition, -⟩ := hpos.body hc rfl rfl
  exact ⟨⟨hposition, h.values⟩, fun t ht => Value.varies_le.1 (hf.value hb hx hmem ht rfl)⟩

/-- Every step keeps what the facts say of the frames. -/
theorem TracksAll.step (hf : f.Closed c) (hc : c.Closed) (hbody : c.linear = q.body)
    (hparams : ∀ t ∈ q.params, t.isVersioned = false) {P : Program} (h : TracksAll c f q s)
    (hs : s.step P = .ok (.running s')) : TracksAll c f q s' := by
  cases hrest : s.frame.rest with
  | nil =>
    rw [State.step, hrest] at hs
    exact h.settled (Except.ok.inj hs)
  | cons i rest =>
  generalize hnext : Progress.running s' = next at hs
  -- The running frame goes on from another place, with other locals.
  have goesOn : ∀ {u : State}, u.settled = next → u.frame.proc = s.frame.proc →
      u.callers = s.callers → (s.frame.proc = q → f.Tracks c u.frame) → TracksAll c f q s' := by
    intro u hu hp hcs hframe
    exact TracksAll.settled ⟨fun hq => hframe (hp ▸ hq), hcs ▸ h.callers⟩ (hu.trans hnext.symm)
  have hpos : s.frame.proc = q → f.Position c (i :: rest) s.frame.previous? s.frame.current? :=
    fun hq => hrest ▸ (h.frame hq).position
  have hlinear : s.frame.proc = q → s.frame.proc.body = c.linear := fun hq => hq ▸ hbody.symm
  cases State.move_of_step hrest hs with
  | phis hi hl hσ => exact goesOn rfl rfl rfl fun hq => (h.frame hq).phis hf hc hrest hi hl hσ
  | exec hσ => exact goesOn rfl rfl rfl fun hq => (h.frame hq).exec hf hc hrest hσ
  | label => exact goesOn rfl rfl rfl fun hq => ⟨(hpos hq).enter hf hc, (h.frame hq).values⟩
  | jump hlater =>
    exact goesOn rfl rfl rfl fun hq => ⟨(hpos hq).jump hc (hlinear hq ▸ hlater), (h.frame hq).values⟩
  | @taken _ _ _ _ _ later hk hcond hlater =>
    refine goesOn rfl rfl rfl fun hq => ⟨?_, (h.frame hq).values⟩
    exact ((hpos hq).branch hc (((h.frame hq).covers hf).operand hk)).1 hcond later (hlinear hq ▸ hlater)
  | passed hk hcond =>
    refine goesOn rfl rfl rfl fun hq => ⟨?_, (h.frame hq).values⟩
    exact ((hpos hq).branch hc (((h.frame hq).covers hf).operand hk)).2 hcond
  | ret => exact TracksAll.resumed h.callers (State.resumes_of_leave hnext.symm)
  | retValue => exact TracksAll.resumed h.callers (State.resumes_of_leave hnext.symm)
  | @print dest? _ text =>
    have hinv : TracksAll c f q (State.mk s.globals (s.output ++ [text])
        { s.frame with rest := rest, staged := ∅ } s.callers) :=
      ⟨fun hq => ((h.frame hq).waits hf hc hrest).1, h.callers⟩
    have hreceived := @TracksAll.receive c f q _ hinv dest? none fun hq => ((h.frame hq).waits hf hc hrest).2
    rw [← State.withStore_receive] at hreceived
    exact hreceived.settled hnext.symm
  | @call dest? target argc args p =>
    refine (TracksAll.start hf hbody hparams p args ?_ _ _).settled hnext.symm
    intro k hk hq
    rcases List.mem_cons.1 hk with rfl | hk
    · exact (h.frame hq).waits hf hc hrest
    · exact h.callers k hk hq

/-! ## Runs -/

/-- What the facts say of the frames holds at every point of a run. -/
theorem TracksAll.of_reaches (hf : f.Closed c) (hc : c.Closed) (hbody : c.linear = q.body)
    (hparams : ∀ t ∈ q.params, t.isVersioned = false) {P : Program} {entry : String} {args : List Int64}
    {p : Progress} (h : P.Reaches entry args p) : ∀ s, p = .running s → TracksAll c f q s :=
  h.invariant (fun p => TracksAll.start hf hbody hparams p args (by simp) _ _)
    fun h hs => h.step hf hc hbody hparams hs

end Facts

/-- The analysis of a graph is sound at every point of every run, of every procedure in the linear form of
the graph, running or waiting: the block that it is in executes, the edge by which it came there
executes, and each versioned temporary that holds a value holds the constant that is found for it, or
is found to vary. -/
theorem analyze_sound {c : Cfg} (hc : c.Closed) {p : Procedure}
    (hparams : ∀ t ∈ p.params, t.isVersioned = false) {P : Program} {entry : String} {args : List Int64}
    {s : State} (h : P.Reaches entry args (.running s)) {fr : Frame}
    (hfr : fr ∈ s.frame :: s.callers.map Caller.frame) (hproc : fr.proc = p.withCode c) :
    (∀ l, fr.current? = some l → l ∈ c.labels ∧ (analyze c).executes l = true) ∧
    (∀ k l, fr.previous? = some k → fr.current? = some l → (analyze c).follows k l = true) ∧
    ∀ t v, t.isVersioned = true → fr.locals.get? t = some v →
      (analyze c).value t = .constant v ∨ (analyze c).value t = .varies := by
  have hparams' : ∀ t ∈ (p.withCode c).params, t.isVersioned = false := hparams
  have hall : (analyze c).TracksAll c (p.withCode c) s :=
    Facts.TracksAll.of_reaches (Facts.closed_analyze c) hc rfl hparams' h s rfl
  have htracks : (analyze c).Tracks c fr := by
    rcases List.mem_cons.1 hfr with rfl | hfr
    · exact hall.frame hproc
    · obtain ⟨k, hk, rfl⟩ := List.mem_map.1 hfr
      exact (hall.callers k hk hproc).1
  refine ⟨fun l hl => ?_, fun k l hk hl => ?_, fun t v ht hv => ?_⟩
  · rcases htracks.position with ⟨-, hn⟩ | ⟨b, hb, -, -, hcur, hx, -⟩
    · rw [hn] at hl
      cases hl
    · cases hcur.symm.trans hl
      exact ⟨List.mem_map_of_mem hb, hx⟩
  · rcases htracks.position with ⟨-, hn⟩ | ⟨b, hb, -, -, hcur, hx, hprev, -⟩
    · rw [hn] at hl
      cases hl
    · cases hcur.symm.trans hl
      exact hprev k hk
  · refine Value.constant_le.1 (htracks.values t v ?_ hv)
    exact Temp.isGlobal_of_isVersioned ht

theorem analyze_sound_countdown :
    ∃ s, Program.Reaches [.proc (countdownProc.withCode countdown)] "@main" [3] (.running s) ∧
      s.frame.current? = some ⟨"head"⟩ ∧ s.frame.locals.get? ⟨"%n.2"⟩ = some 2 ∧
      (analyze countdown).executes ⟨"head"⟩ = true ∧
      ((analyze countdown).value ⟨"%n.2"⟩ = .constant 2 ∨ (analyze countdown).value ⟨"%n.2"⟩ = .varies) := by
  have hvalid : Cfg.ofBlocks countdown.proc countdown.blocks = .ok countdown := rfl
  have hclosed : countdown.Closed := ⟨(Cfg.ofBlocks_eq_ok.1 hvalid).2.2, by decide, by decide⟩
  have hparams : ∀ t ∈ countdownProc.params, t.isVersioned = false := by decide
  obtain ⟨s, hs, hproc, hcur, hn⟩ : ∃ s,
      Program.after [.proc (countdownProc.withCode countdown)] "@main" [3] 7 = .ok (.running s) ∧
      s.frame.proc = countdownProc.withCode countdown ∧ s.frame.current? = some ⟨"head"⟩ ∧
      s.frame.locals.get? ⟨"%n.2"⟩ = some 2 := ⟨_, rfl, rfl, rfl, rfl⟩
  have hreach := Program.reaches_of_after hs
  obtain ⟨hblock, -, hvalue⟩ := analyze_sound hclosed hparams hreach (.head _) hproc
  exact ⟨s, hreach, hcur, hn, (hblock _ hcur).2, hvalue _ _ (by decide) hn⟩

/-- Labels in bodies have to be left out: an edge is followed that is not found to execute, and a
temporary holds 2 that is found to be the constant 1. -/
theorem not_analyze_sound_strayLabel :
    Cfg.ofBlocks strayLabel.proc strayLabel.blocks = .ok strayLabel ∧
      (∀ b ∈ strayLabel.blocks, b.EndsOnce) ∧
      ∃ s, Program.Reaches [.proc (strayProc.withCode strayLabel)] "@main" [] (.running s) ∧
        s.frame.proc = strayProc.withCode strayLabel ∧
        s.frame.previous? = some ⟨"Z"⟩ ∧ s.frame.current? = some ⟨"B"⟩ ∧
        (analyze strayLabel).follows ⟨"Z"⟩ ⟨"B"⟩ = false ∧ (Temp.mk "%x.1").isVersioned = true ∧
        s.frame.locals.get? ⟨"%x.1"⟩ = some 2 ∧ (analyze strayLabel).value ⟨"%x.1"⟩ = .constant 1 := by
  obtain ⟨s, hs, hproc, hprev, hcur, hx⟩ : ∃ s,
      Program.after [.proc (strayProc.withCode strayLabel)] "@main" [] 4 = .ok (.running s) ∧
      s.frame.proc = strayProc.withCode strayLabel ∧ s.frame.previous? = some ⟨"Z"⟩ ∧
      s.frame.current? = some ⟨"B"⟩ ∧ s.frame.locals.get? ⟨"%x.1"⟩ = some 2 :=
    ⟨_, rfl, rfl, rfl, rfl, rfl⟩
  exact ⟨rfl, by decide, s, Program.reaches_of_after hs, hproc, hprev, hcur, by decide, by decide, hx,
    by decide⟩

end Constants

end ThreeAddress

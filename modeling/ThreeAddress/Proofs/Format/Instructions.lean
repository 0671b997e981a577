import ThreeAddress.Format.Reader
import ThreeAddress.Format.Writer
import ThreeAddress.Proofs.Effects
import ThreeAddress.Proofs.Json.Members
/-!
# Instructions written and read

`Instr.record` is what an instruction is written as. A record is decoded to an instruction just where it is the record
of it (`Format.InstrRecord.decode_record`, `Format.InstrRecord.eq_record_of_decode`). So it is with each kind of
argument, and there the statement is an equivalence: `Format.operand_eq_ok`, `Format.count_eq_ok`,
`Format.sources_eq_ok` and the like. Only the sources of a phi need a condition, that their labels ascend, since a
table of sources has forgotten the order in which they were written.
-/

namespace ThreeAddress

/-! ## Phi sources -/

namespace PhiSources

theorem insertEntry_of_lt {l : Label} {o : Operand} {es : List (Label × Operand)} (h : ∀ e ∈ es, e.1 < l) :
    insertEntry l o es = es ++ [(l, o)] := by
  induction es with
  | nil => rfl
  | cons e es ih =>
    have he := h e List.mem_cons_self
    have hnot : ¬ l < e.1 := fun hlt => Label.lt_irrefl l (Label.lt_trans hlt he)
    rw [insertEntry, if_neg hnot, if_pos he, ih fun d hd => h d (.tail _ hd), List.cons_append]

/-- Entries that ascend are all kept. -/
theorem entries_ofList {es : List (Label × Operand)} (h : es.Pairwise fun a b => a.1 < b.1) :
    (ofList es).entries = es := by
  have hfold : ∀ {es : List (Label × Operand)} {s : PhiSources},
      (es.foldl (fun s e => s.insert e.1 e.2) s).entries =
        es.foldl (fun es e => insertEntry e.1 e.2 es) s.entries := by
    intro es
    induction es with
    | nil => exact rfl
    | cons e es ih => exact ih
  exact hfold.trans (foldl_of_pairwise insertEntry_of_lt [] h)

end PhiSources

namespace Format

/-! ## Arguments -/

theorem int64?_eq_some {v : Json} {n : Int64} : v.int64? = some n ↔ v = .int n.toInt := by
  constructor
  · intro h
    cases v with
    | number k =>
      cases k with
      | real x => cases h
      | integer k =>
        simp only [Json.int64?, Json.Number.int64?, Bool.and_eq_true, decide_eq_true_eq] at h
        split at h
        · rename_i hk
          cases h
          rw [Json.int, Int64.toInt_ofInt_of_le hk.1 (Int.lt_of_le_of_lt hk.2 (by decide))]
        · cases h
    | _ => cases h
  · rintro rfl
    have hbounds : Int64.minValue.toInt ≤ n.toInt ∧ n.toInt ≤ Int64.maxValue.toInt :=
      ⟨n.minValue_le_toInt, n.toInt_le⟩
    simp only [Json.int, Json.int64?, Json.Number.int64?, hbounds, decide_true, Bool.and_self, if_true,
      Int64.ofInt_toInt]

theorem int_eq_ok {v : Json} {n : Int64} : int v = .ok n ↔ v = .int n.toInt := by
  rw [← int64?_eq_some, int]
  cases v.int64? <;> simp

theorem string_eq_ok {v : Json} {s : String} : string v = .ok s ↔ v = .string s := by
  cases v <;> simp [string]

theorem label_eq_ok {v : Json} {l : Label} : label v = .ok l ↔ v = .string l.name := by
  cases v <;> simp [label, string, Functor.map, Except.map]
  cases l
  simp

theorem operand_eq_ok {v : Json} {o : Operand} : operand v = .ok o ↔ v = o.toJson := by
  cases v with
  | string name =>
    cases o with
    | temp t => cases t; simp [operand, Operand.toJson]
    | imm n => simp [operand, Operand.toJson, Json.int]
  | number k =>
    have hint : k.int64? = (Json.number k).int64? := rfl
    cases o with
    | temp t => cases h : k.int64? <;> simp [operand, Operand.toJson, h]
    | imm n =>
      rw [Operand.toJson, ← int64?_eq_some, operand, ← hint]
      cases k.int64? <;> simp
  | _ => cases o <;> simp [operand, Operand.toJson, Json.int]

theorem count_eq_ok {cause : Malformed} {v : Json} {n : UInt32} : count cause v = .ok n ↔ v = .int n.toNat := by
  have hrange : ∀ k : Int64, (decide (0 ≤ k) && decide (k < 4294967296)) = true ↔
      0 ≤ k.toInt ∧ k.toInt < 4294967296 := by
    intro k
    rw [Bool.and_eq_true, decide_eq_true_eq, decide_eq_true_eq, Int64.le_iff_toInt_le, Int64.lt_iff_toInt_lt]
    rfl
  constructor
  · intro h
    obtain ⟨k, hk, h⟩ := bind_eq_ok.1 h
    split at h
    · rename_i hk'
      obtain ⟨hlow, hhigh⟩ := (hrange k).1 hk'
      cases h
      have hlt : k.toInt.toNat < UInt32.size := by simp only [UInt32.size]; omega
      rw [int_eq_ok.1 hk, UInt32.toNat_ofNat_of_lt' hlt, Int.toNat_of_nonneg hlow]
    · cases h
  · rintro rfl
    have hlt : n.toNat < 4294967296 := n.toNat_lt
    have hk : (Int64.ofInt n.toNat).toInt = n.toNat := Int64.toInt_ofInt_of_le (by omega) (by omega)
    refine bind_eq_ok.2 ⟨Int64.ofInt n.toNat, int_eq_ok.2 (by rw [hk]), ?_⟩
    rw [if_pos ((hrange _).2 ⟨by omega, by omega⟩), hk, Int.toNat_natCast, UInt32.ofNat_toNat]
    rfl

theorem ascending_sources (s : PhiSources) : Json.Ascending (s.entries.map fun e => (e.1.name, e.2.toJson)) :=
  List.pairwise_map.2 s.sorted

/-- The sources of a phi are read from an object with ascending names. -/
theorem sources_eq_ok {v : Json} {s : PhiSources} (hv : ∀ ms, v = .object ms → Json.Ascending ms) :
    sources v = .ok s ↔ v = s.toJson := by
  have hentry : ∀ (m : String × Json) (e : Label × Operand),
      (do return (Label.mk m.1, ← operand m.2) : Except Malformed (Label × Operand)) = .ok e ↔
        m = (e.1.name, e.2.toJson) := by
    rintro ⟨name, v⟩ ⟨⟨name'⟩, o⟩
    rw [bind_eq_ok]
    simp only [operand_eq_ok, pure, Except.pure, Except.ok.injEq, Prod.mk.injEq, Label.mk.injEq]
    constructor
    · rintro ⟨o, rfl, rfl, rfl⟩
      exact ⟨rfl, rfl⟩
    · rintro ⟨rfl, rfl⟩
      exact ⟨o, rfl, rfl, rfl⟩
  cases v with
  | object ms =>
    have hasc := hv ms rfl
    have hms : ∀ es, ms.mapM (fun m => do return (Label.mk m.1, ← operand m.2)) = .ok es ↔
        ms = es.map fun e => (e.1.name, e.2.toJson) := by
      intro es
      simp only [mapM_eq_ok, hentry, ← List.forall₂_map_right_iff, List.forall₂_eq_eq_eq]
    rw [sources, bind_eq_ok, PhiSources.toJson, Json.object.injEq]
    constructor
    · rintro ⟨es, hes, h⟩
      cases h
      rw [hms] at hes
      subst hes
      have hes : es.Pairwise fun a b => a.1 < b.1 :=
        (List.pairwise_map.1 hasc).imp fun h => h
      rw [PhiSources.entries_ofList hes]
    · intro h
      refine ⟨s.entries, (hms _).2 h, ?_⟩
      have hsame : PhiSources.ofList s.entries = s := PhiSources.ext (PhiSources.entries_ofList s.sorted)
      rw [hsame]
      rfl
  | _ => simp [sources, PhiSources.toJson]

theorem noArgs_eq_ok {op : Opcode} {args : List Json} {u : Unit} : noArgs op args = .ok u ↔ args = [] := by
  cases args <;> simp [noArgs]

theorem oneArg_eq_ok {op : Opcode} {args : List Json} {a : Json} : oneArg op args = .ok a ↔ args = [a] := by
  rcases args with - | ⟨b, - | _⟩ <;> simp [oneArg]

theorem twoArgs_eq_ok {op : Opcode} {args : List Json} {a : Json × Json} :
    twoArgs op args = .ok a ↔ args = [a.1, a.2] := by
  obtain ⟨a₁, a₂⟩ := a
  rcases args with - | ⟨b₁, - | ⟨b₂, - | _⟩⟩ <;> simp [twoArgs]

/-- What is made of one argument. -/
theorem oneArg_read_eq_ok {α β : Type} {op : Opcode} {args : List Json} {read : Json → Except Malformed α}
    {make : α → β} {y : β} : (do return make (← oneArg op args >>= read)) = Except.ok y ↔
      ∃ a v, args = [a] ∧ read a = .ok v ∧ make v = y := by
  constructor
  · intro h
    obtain ⟨v, hv, h⟩ := bind_eq_ok.1 h
    obtain ⟨a, hone, hv⟩ := bind_eq_ok.1 hv
    exact ⟨a, v, oneArg_eq_ok.1 hone, hv, Except.ok.inj h⟩
  · rintro ⟨a, v, rfl, hv, rfl⟩
    exact bind_eq_ok.2 ⟨v, hv, rfl⟩

/-- What is made of two arguments, read one after the other. -/
theorem twoArgs_read_eq_ok {α β γ : Type} {op : Opcode} {args : List Json} {read : Json → Except Malformed α}
    {read' : Json → Except Malformed β} {first second : Json × Json → Json} {make : α → β → γ} {y : γ} :
    (do let a ← twoArgs op args
        let v ← read (first a)
        let w ← read' (second a)
        return make v w) = Except.ok y ↔
      ∃ a v w, args = [a.1, a.2] ∧ read (first a) = .ok v ∧ read' (second a) = .ok w ∧ make v w = y := by
  constructor
  · intro h
    obtain ⟨a, htwo, h⟩ := bind_eq_ok.1 h
    obtain ⟨v, hv, h⟩ := bind_eq_ok.1 h
    obtain ⟨w, hw, h⟩ := bind_eq_ok.1 h
    exact ⟨a, v, w, twoArgs_eq_ok.1 htwo, hv, hw, Except.ok.inj h⟩
  · rintro ⟨a, v, w, hargs, hv, hw, rfl⟩
    exact bind_eq_ok.2 ⟨a, twoArgs_eq_ok.2 hargs, bind_eq_ok.2 ⟨v, hv, bind_eq_ok.2 ⟨w, hw, rfl⟩⟩⟩

/-! ## Instructions -/

section

variable {op : Opcode} {result? : Option String} {i : Instr}

theorem close_computes {make : Temp → Instr} :
    (Form.computes make).close op result? = .ok i ↔ ∃ t : Temp, result? = some t.name ∧ make t = i := by
  cases result? with
  | none => simp [Form.close]
  | some dest =>
    simp only [Form.close, Except.ok.injEq, Option.some.injEq]
    constructor
    · exact fun h => ⟨⟨dest⟩, rfl, h⟩
    · rintro ⟨t, rfl, h⟩
      exact h

theorem close_calls {make : Option Temp → Instr} :
    (Form.calls make).close op result? = .ok i ↔ ∃ t? : Option Temp, result? = t?.map Temp.name ∧ make t? = i := by
  simp only [Form.close, Except.ok.injEq]
  constructor
  · exact fun h => ⟨_, by cases result? <;> rfl, h⟩
  · rintro ⟨t?, rfl, h⟩
    cases t? <;> exact h

theorem close_acts {j : Instr} : (Form.acts j).close op result? = .ok i ↔ result? = none ∧ j = i := by
  cases result? <;> simp [Form.close]

end

end Format

/-- The record that an instruction is written as. -/
def Instr.record (i : Instr) : Format.InstrRecord :=
  ⟨i.opcode.name, i.argsJson, i.dest?.map Temp.name⟩

namespace Format

theorem eq_name_of_ofName? {w : String} {op : Opcode} (h : Opcode.ofName? w = some op) : w = op.name := by
  have hfind : Opcode.all.find? (·.name == w) = some op := h
  have hname : (op.name == w) = true := @List.find?_some _ (·.name == w) op _ hfind
  exact (beq_iff_eq.1 hname).symm

/-- All that a form makes is written with these arguments and a destination. -/
def Form.WrittenAs (op : Opcode) (args : List Json) : Form → Prop
  | .computes make => ∀ t, (make t).opcode = op ∧ (make t).argsJson = args ∧ (make t).dest? = some t
  | .calls make => ∀ t?, (make t?).opcode = op ∧ (make t?).argsJson = args ∧ (make t?).dest? = t?
  | .acts i => i.opcode = op ∧ i.argsJson = args ∧ i.dest? = none

theorem Form.WrittenAs.record_of_close {op : Opcode} {args : List Json} {f : Form} {result? : Option String}
    {i : Instr} (h : f.WrittenAs op args) (hclose : f.close op result? = .ok i) :
    i.record = ⟨op.name, args, result?⟩ := by
  cases f with
  | computes make =>
    obtain ⟨t, rfl, rfl⟩ := close_computes.1 hclose
    obtain ⟨hop, hargs, hdest⟩ := h t
    rw [Instr.record, hop, hargs, hdest, Option.map_some]
  | calls make =>
    obtain ⟨t?, rfl, rfl⟩ := close_calls.1 hclose
    obtain ⟨hop, hargs, hdest⟩ := h t?
    rw [Instr.record, hop, hargs, hdest]
  | acts j =>
    obtain ⟨rfl, rfl⟩ := close_acts.1 hclose
    obtain ⟨hop, hargs, hdest⟩ := h
    rw [Instr.record, hop, hargs, hdest, Option.map_none]

/-- A form is read from the arguments that its instructions are written with. -/
theorem writtenAs_of_form {op : Opcode} {args : List Json} {f : Form}
    (hargs : ∀ a ∈ args, ∀ ms, a = .object ms → Json.Ascending ms) (h : form op args = .ok f) :
    f.WrittenAs op args := by
  cases op with
  | nop =>
    obtain ⟨_, hnone, h⟩ := bind_eq_ok.1 h
    cases h
    rw [noArgs_eq_ok.1 hnone]
    exact ⟨rfl, rfl, rfl⟩
  | const =>
    obtain ⟨a, v, rfl, hv, rfl⟩ := oneArg_read_eq_ok.1 h
    rw [int_eq_ok.1 hv]
    exact fun t => ⟨rfl, rfl, rfl⟩
  | copy =>
    obtain ⟨a, v, rfl, hv, rfl⟩ := oneArg_read_eq_ok.1 h
    rw [operand_eq_ok.1 hv]
    exact fun t => ⟨rfl, rfl, rfl⟩
  | unary op =>
    obtain ⟨a, v, rfl, hv, rfl⟩ := oneArg_read_eq_ok.1 h
    rw [operand_eq_ok.1 hv]
    exact fun t => ⟨rfl, rfl, rfl⟩
  | binary op =>
    obtain ⟨a, v, w, rfl, hv, hw, rfl⟩ := twoArgs_read_eq_ok.1 h
    rw [operand_eq_ok.1 hv, operand_eq_ok.1 hw]
    exact fun t => ⟨rfl, rfl, rfl⟩
  | param =>
    obtain ⟨a, v, w, rfl, hv, hw, rfl⟩ := twoArgs_read_eq_ok.1 h
    rw [count_eq_ok.1 hv, operand_eq_ok.1 hw]
    exact ⟨rfl, rfl, rfl⟩
  | call =>
    obtain ⟨a, v, w, rfl, hv, hw, rfl⟩ := twoArgs_read_eq_ok.1 h
    rw [count_eq_ok.1 hv, string_eq_ok.1 hw]
    exact fun t? => ⟨rfl, rfl, rfl⟩
  | phi =>
    obtain ⟨a, v, rfl, hv, rfl⟩ := oneArg_read_eq_ok.1 h
    rw [(sources_eq_ok (hargs a List.mem_cons_self)).1 hv]
    exact fun t => ⟨rfl, rfl, rfl⟩
  | label =>
    obtain ⟨a, v, rfl, hv, rfl⟩ := oneArg_read_eq_ok.1 h
    rw [label_eq_ok.1 hv]
    exact ⟨rfl, rfl, rfl⟩
  | jump =>
    obtain ⟨a, v, rfl, hv, rfl⟩ := oneArg_read_eq_ok.1 h
    rw [label_eq_ok.1 hv]
    exact ⟨rfl, rfl, rfl⟩
  | branch c =>
    obtain ⟨a, v, w, rfl, hv, hw, rfl⟩ := twoArgs_read_eq_ok.1 h
    rw [operand_eq_ok.1 hv, label_eq_ok.1 hw]
    exact ⟨rfl, rfl, rfl⟩
  | ret =>
    rcases args with - | ⟨a, - | _⟩
    · cases h
      exact ⟨rfl, rfl, rfl⟩
    · obtain ⟨value, hvalue, h⟩ := bind_eq_ok.1 h
      cases h
      rw [operand_eq_ok.1 hvalue]
      exact ⟨rfl, rfl, rfl⟩
    · cases h

namespace InstrRecord

/-- The record of an instruction is decoded to it. -/
theorem decode_record (i : Instr) : i.record.decode = .ok i := by
  have hsources : ∀ s : PhiSources, sources s.toJson = .ok s := fun s =>
    (sources_eq_ok fun ms hms => Json.object.inj hms ▸ ascending_sources s).2 rfl
  rw [decode, Instr.record, Opcode.ofName?_name]
  refine bind_eq_ok.2 ?_
  cases i with
  | nop => exact ⟨_, rfl, rfl⟩
  | const dest value => exact ⟨_, bind_eq_ok.2 ⟨value, int_eq_ok.2 rfl, rfl⟩, rfl⟩
  | copy dest source => exact ⟨_, bind_eq_ok.2 ⟨source, operand_eq_ok.2 rfl, rfl⟩, rfl⟩
  | binary dest op left right =>
    exact ⟨_, bind_eq_ok.2 ⟨_, rfl, bind_eq_ok.2 ⟨left, operand_eq_ok.2 rfl, bind_eq_ok.2
      ⟨right, operand_eq_ok.2 rfl, rfl⟩⟩⟩, rfl⟩
  | unary dest op x => exact ⟨_, bind_eq_ok.2 ⟨x, operand_eq_ok.2 rfl, rfl⟩, rfl⟩
  | param index value =>
    exact ⟨_, bind_eq_ok.2 ⟨_, rfl, bind_eq_ok.2 ⟨index, count_eq_ok.2 rfl, bind_eq_ok.2
      ⟨value, operand_eq_ok.2 rfl, rfl⟩⟩⟩, rfl⟩
  | call dest? target argc =>
    refine ⟨_, bind_eq_ok.2 ⟨_, rfl, bind_eq_ok.2 ⟨argc, count_eq_ok.2 rfl, rfl⟩⟩, ?_⟩
    cases dest? <;> rfl
  | phi dest s => exact ⟨_, bind_eq_ok.2 ⟨s, hsources s, rfl⟩, rfl⟩
  | label name => exact ⟨_, rfl, rfl⟩
  | jump target => exact ⟨_, rfl, rfl⟩
  | branch c value target =>
    exact ⟨_, bind_eq_ok.2 ⟨_, rfl, bind_eq_ok.2 ⟨value, operand_eq_ok.2 rfl, rfl⟩⟩, rfl⟩
  | ret value? =>
    cases value? with
    | none => exact ⟨_, rfl, rfl⟩
    | some value => exact ⟨_, bind_eq_ok.2 ⟨value, operand_eq_ok.2 rfl, rfl⟩, rfl⟩

/-- What a record is decoded to has that record. -/
theorem eq_record_of_decode {r : InstrRecord} {i : Instr}
    (hr : ∀ a ∈ r.args, ∀ ms, a = .object ms → Json.Ascending ms) (h : r.decode = .ok i) : r = i.record := by
  unfold decode at h
  split at h
  · cases h
  rename_i op hop
  obtain ⟨f, hf, hclose⟩ := bind_eq_ok.1 h
  rw [(writtenAs_of_form hr hf).record_of_close hclose, ← eq_name_of_ofName? hop]

end InstrRecord

end Format

end ThreeAddress

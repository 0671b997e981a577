import ThreeAddress.Pipeline
import ThreeAddress.Proofs.Format.Instructions
import ThreeAddress.Proofs.Json.ReadBack
/-!
# Programs written and read

Between a program and its JSON value stand records. A program is written as the values of its records, which are read
back (`Format.Record.ofJson?_toJson_proc`), and a value with the documented fields is, in canonical form, the value of
the record that is read from it (`Format.Record.canonical_of_ofJson?`). All that a record needs besides, to be the
record of a declaration, is a name that begins as the name of a global does; optimization keeps names. Together:
`Program.reads_back`.
-/

namespace ThreeAddress

namespace Format

/-! ## Fields -/

section

variable {name : String} {ms : List (String × Json)}

theorem value?_eq_some {f : Json.Field} {v : Json} : f.value? = some v ↔ f = .once v := by
  cases f <;> simp [Json.Field.value?]

theorem string?_eq_some {v : Json} {s : String} : v.string? = some s ↔ v = .string s := by
  cases v <;> simp [Json.string?]

theorem array?_eq_some {v : Json} {items : List Json} : v.array? = some items ↔ v = .array items := by
  cases v <;> simp [Json.array?]

/-- A required field is there once. -/
theorem field_eq_once {α : Type} {read : Json → Option α} {a : α}
    (h : ((Json.field name ms).value? >>= read) = some a) : ∃ v, Json.field name ms = .once v ∧ read v = some a := by
  obtain ⟨v, hv, ha⟩ := Option.bind_eq_some_iff.1 h
  exact ⟨v, value?_eq_some.1 hv, ha⟩

theorem field_eq_absent : Json.field name ms = .absent ↔ name ∉ ms.map (·.1) := by
  have hfilter : ms.filter (·.1 == name) = [] ↔ name ∉ ms.map (·.1) := by
    rw [List.filter_eq_nil_iff]
    constructor
    · intro h hmem
      obtain ⟨m, hm, rfl⟩ := List.mem_map.1 hmem
      exact h m hm (beq_self_eq_true _)
    · exact fun h m hm he => h (List.mem_map.2 ⟨m, hm, beq_iff_eq.1 he⟩)
  rw [← hfilter, Json.field]
  split
  · rename_i heq
    exact iff_of_true rfl heq
  · rename_i heq
    simp [heq]
  · rename_i hne _
    exact iff_of_false nofun hne

end

/-! ## Records as JSON -/

namespace InstrRecord

variable {r : InstrRecord}

/-- The JSON value of a record. -/
def toJson (r : InstrRecord) : Json :=
  .object [("args", .array r.args), ("opcode", .string r.opcode), ("result", r.result?.elim .null .string)]

/-- An object with the three fields, in any order, and no others. -/
def Documented : Json → Prop
  | .object members => (members.map (·.1)).Perm ["args", "opcode", "result"]
  | _ => False

/-- Every object among the arguments has ascending names. -/
def ArgsAscend (r : InstrRecord) : Prop := ∀ a ∈ r.args, ∀ ms, a = .object ms → Json.Ascending ms

theorem ofJson?_toJson (h : r.args.map Json.canonical = r.args) : ofJson? r.toJson = some r := by
  obtain ⟨opcode, args, result?⟩ := r
  have hargs : args.map Json.canonical = args := h
  cases result? <;>
    simp [toJson, ofJson?, Json.field, Json.Field.value?, Json.string?, Json.array?, optionalString?, hargs]

theorem canonical_of_ofJson? {v : Json} (hv : Documented v) (h : ofJson? v = some r) : v.canonical = r.toJson := by
  cases v with
  | object ms =>
    have hnames : (ms.map (·.1)).Perm ["args", "opcode", "result"] := hv
    obtain ⟨opcode, hopcode, h⟩ := Option.bind_eq_some_iff.1 h
    obtain ⟨args, hargs, h⟩ := Option.bind_eq_some_iff.1 h
    obtain ⟨result?, hresult, h⟩ := Option.bind_eq_some_iff.1 h
    cases h
    obtain ⟨_, hopcode, hs⟩ := field_eq_once hopcode
    cases string?_eq_some.1 hs
    obtain ⟨_, hargs, hs⟩ := field_eq_once hargs
    cases array?_eq_some.1 hs
    have hresult : Json.field "result" ms = .once (result?.elim .null .string) := by
      cases hfield : Json.field "result" ms with
      | absent => exact absurd (hnames.mem_iff.2 (by simp)) (field_eq_absent.1 hfield)
      | once v =>
        rw [hfield] at hresult
        cases v <;> cases hresult <;> rfl
      | repeated =>
        rw [hfield] at hresult
        cases hresult
    have hasc : Json.Ascending
        [("args", .array args), ("opcode", .string opcode), ("result", result?.elim .null .string)] :=
      Json.ascending_of_names (by decide : ["args", "opcode", "result"].Pairwise (· < ·))
    rw [Json.canonical_object hasc hnames (by simp [hopcode, hargs, hresult])]
    cases result? <;> simp [toJson, Json.canonical, Json.canonicalItems_eq]
  | _ => exact hv.elim

theorem argsAscend_of_ofJson? {v : Json} (h : ofJson? v = some r) : r.ArgsAscend := by
  have hargs : ∃ vs : List Json, r.args = vs.map Json.canonical := by
    unfold ofJson? at h
    split at h
    case h_3 => cases h
    all_goals
      obtain ⟨opcode, -, h⟩ := Option.bind_eq_some_iff.1 h
      obtain ⟨args, -, h⟩ := Option.bind_eq_some_iff.1 h
      obtain ⟨result?, -, h⟩ := Option.bind_eq_some_iff.1 h
      cases h
      exact ⟨args, rfl⟩
  obtain ⟨vs, hvs⟩ := hargs
  intro a ha ms hms
  rw [hvs] at ha
  obtain ⟨v, -, rfl⟩ := List.mem_map.1 ha
  cases v <;> simp only [Json.canonical] at hms <;> cases hms
  exact Json.ascending_sortMembers _

end InstrRecord

namespace Record

/-- The JSON value of a record. -/
def toJson : Record → Json
  | var name init => .object [("init", .int init.toInt), ("var", .string name)]
  | proc name params body => .object [
      ("args", .array (params.map .string)),
      ("body", .array (body.map InstrRecord.toJson)),
      ("proc", .string name)]

/-- An object with the fields of a variable or of a procedure, in any order, and no others; so are the instructions
of a procedure. -/
def Documented : Json → Prop
  | .object members => (members.map (·.1)).Perm ["init", "var"] ∨
      (members.map (·.1)).Perm ["args", "body", "proc"] ∧
        ∀ items, ("body", .array items) ∈ members → ∀ v ∈ items, InstrRecord.Documented v
  | _ => False

/-- Every object among the arguments of its instructions has ascending names. -/
def ArgsAscend : Record → Prop
  | var .. => True
  | proc _ _ body => ∀ r ∈ body, r.ArgsAscend

theorem ofJson?_toJson_var (name : String) (init : Int64) :
    ofJson? (var name init).toJson = some (var name init) := by
  have hinit : (Json.int init.toInt).int64? = some init := int64?_eq_some.2 rfl
  simp [toJson, ofJson?, var?, Json.field, Json.Field.value?, Json.string?, hinit]

theorem ofJson?_toJson_proc {name : String} {params : List String} {body : List InstrRecord}
    (h : ∀ r ∈ body, r.args.map Json.canonical = r.args) :
    ofJson? (proc name params body).toJson = some (proc name params body) := by
  have hparams : (params.map Json.string).mapM Json.string? = some params := by
    rw [mapM_eq_some, List.forall₂_map_left_iff]
    exact List.forall₂_same.2 fun _ _ => rfl
  have hbody : (body.map InstrRecord.toJson).mapM InstrRecord.ofJson? = some body := by
    rw [mapM_eq_some, List.forall₂_map_left_iff]
    exact List.forall₂_same.2 fun r hr => InstrRecord.ofJson?_toJson (h r hr)
  simp [toJson, ofJson?, var?, proc?, Json.field, Json.Field.value?, Json.string?, Json.array?, hparams, hbody]

theorem canonical_of_ofJson? {v : Json} {r : Record} (hv : Documented v) (h : ofJson? v = some r) :
    v.canonical = r.toJson := by
  cases v with
  | object ms =>
    have habsent : ∀ (name : String) {names : List String}, (ms.map (·.1)).Perm names → name ∉ names →
        (Json.field name ms).value? = none := by
      intro name names hnames hname
      rw [field_eq_absent.2 (mt hnames.mem_iff.1 hname)]
      rfl
    rcases hv with hnames | ⟨hnames, hbody⟩
    · have hvar : var? ms = some r := by
        simpa [ofJson?, proc?, habsent "proc" hnames (by decide)] using h
      obtain ⟨name, hname, h⟩ := Option.bind_eq_some_iff.1 hvar
      obtain ⟨init, hinit, h⟩ := Option.bind_eq_some_iff.1 h
      cases h
      obtain ⟨_, hname, hs⟩ := field_eq_once hname
      cases string?_eq_some.1 hs
      obtain ⟨_, hinit, hs⟩ := field_eq_once hinit
      cases int64?_eq_some.1 hs
      have hasc : Json.Ascending [("init", .int init.toInt), ("var", .string name)] :=
        Json.ascending_of_names (by decide : ["init", "var"].Pairwise (· < ·))
      rw [Json.canonical_object hasc hnames (by simp [hname, hinit])]
      rfl
    · have hproc : proc? ms = some r := by
        simpa [ofJson?, var?, habsent "var" hnames (by decide)] using h
      obtain ⟨name, hname, h⟩ := Option.bind_eq_some_iff.1 hproc
      obtain ⟨params, hparams, h⟩ := Option.bind_eq_some_iff.1 h
      obtain ⟨body, hinstrs, h⟩ := Option.bind_eq_some_iff.1 h
      cases h
      obtain ⟨_, hname, hs⟩ := field_eq_once hname
      cases string?_eq_some.1 hs
      obtain ⟨paramItems, hitems, hparams⟩ := Option.bind_eq_some_iff.1 hparams
      obtain ⟨_, hargs, hs⟩ := field_eq_once hitems
      cases array?_eq_some.1 hs
      obtain ⟨items, hitems, hinstrs⟩ := Option.bind_eq_some_iff.1 hinstrs
      obtain ⟨_, hitems, hs⟩ := field_eq_once hitems
      cases array?_eq_some.1 hs
      have hparams : paramItems.map Json.canonical = params.map Json.string :=
        map_eq_map_of_forall₂ (mapM_eq_some.1 hparams) fun v _ s hs => by rw [string?_eq_some.1 hs]; rfl
      have hinstrs : items.map Json.canonical = body.map InstrRecord.toJson :=
        map_eq_map_of_forall₂ (mapM_eq_some.1 hinstrs) fun v hv r hr =>
          InstrRecord.canonical_of_ofJson? (hbody items (Json.mem_of_field_eq_once hitems) v hv) hr
      have hasc : Json.Ascending [("args", .array paramItems), ("body", .array items), ("proc", .string name)] :=
        Json.ascending_of_names (by decide : ["args", "body", "proc"].Pairwise (· < ·))
      rw [Json.canonical_object hasc hnames (by simp [hname, hargs, hitems])]
      simp [toJson, Json.canonical, Json.canonicalItems_eq, hparams, hinstrs]
  | _ => exact hv.elim

theorem argsAscend_of_ofJson? {v : Json} {r : Record} (h : ofJson? v = some r) : r.ArgsAscend := by
  cases r with
  | var name init => trivial
  | proc name params body =>
    have hbody : ∃ items : List Json, items.mapM InstrRecord.ofJson? = some body := by
      cases v with
      | object ms =>
        have hcases : var? ms = some (.proc name params body) ∨ proc? ms = some (.proc name params body) := by
          cases hvar : var? ms with
          | none => simpa [ofJson?, hvar] using h
          | some r => exact .inl (by simpa [ofJson?, hvar] using h)
        rcases hcases with hvar | hproc
        · obtain ⟨name, -, hvar⟩ := Option.bind_eq_some_iff.1 hvar
          obtain ⟨init, -, hvar⟩ := Option.bind_eq_some_iff.1 hvar
          cases hvar
        · obtain ⟨name, -, hproc⟩ := Option.bind_eq_some_iff.1 hproc
          obtain ⟨params, -, hproc⟩ := Option.bind_eq_some_iff.1 hproc
          obtain ⟨body, hbody, hproc⟩ := Option.bind_eq_some_iff.1 hproc
          cases hproc
          obtain ⟨items, -, hbody⟩ := Option.bind_eq_some_iff.1 hbody
          exact ⟨items, hbody⟩
      | _ => cases h
    obtain ⟨items, hitems⟩ := hbody
    intro r hr
    obtain ⟨v, -, hv⟩ := exists_of_mem_of_forall₂ (mapM_eq_some.1 hitems) r hr
    exact InstrRecord.argsAscend_of_ofJson? hv

end Record

end Format

/-! ## Declarations -/

namespace Instr

theorem canonical_argsJson (i : Instr) : i.argsJson.map Json.canonical = i.argsJson := by
  have hoperand : ∀ o : Operand, o.toJson.canonical = o.toJson := fun o => by cases o <;> rfl
  have hsources : ∀ s : PhiSources, s.toJson.canonical = s.toJson := by
    intro s
    have hmembers : Json.canonicalMembers (s.entries.map fun e => (e.1.name, e.2.toJson)) =
        s.entries.map fun e => (e.1.name, e.2.toJson) := by
      simp [Json.canonicalMembers_eq, hoperand]
    rw [PhiSources.toJson, Json.canonical, hmembers, Json.sortMembers_of_ascending (Format.ascending_sources s)]
  cases i with
  | ret value? => cases value? <;> simp [argsJson, hoperand]
  | _ => simp [argsJson, Json.canonical, Json.int, hoperand, hsources]

theorem toJson_record (i : Instr) : i.record.toJson = i.toJson := by
  cases h : i.dest? <;> simp [record, Format.InstrRecord.toJson, toJson, h]

end Instr

namespace Declaration

/-- The record that a declaration is written as. -/
def record : Declaration → Format.Record
  | var v => .var v.name v.init
  | proc p => .proc p.name (p.params.map Temp.name) (p.body.map Instr.record)

/-- The name is one of a global. -/
def Named (d : Declaration) : Prop := d.name.front? = some '@'

theorem toJson_record (d : Declaration) : d.record.toJson = d.toJson := by
  cases d with
  | var v => rfl
  | proc p =>
    simp [record, Format.Record.toJson, toJson, Procedure.toJson, Instr.toJson_record, Function.comp_def]

theorem ofJson?_toJson (d : Declaration) : Format.Record.ofJson? d.toJson = some d.record := by
  rw [← toJson_record]
  cases d with
  | var v => exact Format.Record.ofJson?_toJson_var v.name v.init
  | proc p =>
    refine Format.Record.ofJson?_toJson_proc fun r hr => ?_
    obtain ⟨i, -, rfl⟩ := List.mem_map.1 hr
    exact i.canonical_argsJson

theorem decode_record {d : Declaration} (h : d.Named) : d.record.decode = .ok d := by
  have hname : (d.name.front? == some '@') = true := beq_iff_eq.2 h
  cases d with
  | var v => exact if_pos hname
  | proc p =>
    obtain ⟨name, params, is⟩ := p
    have hbody : Format.body name (is.map Instr.record) = .ok is := by
      have hmap : (is.map Instr.record).mapM Format.InstrRecord.decode = .ok is := by
        rw [mapM_eq_ok, List.forall₂_map_left_iff]
        exact List.forall₂_same.2 fun i _ => Format.InstrRecord.decode_record i
      rw [Format.body, hmap]
      rfl
    have hparams : (params.map Temp.name).map Temp.mk = params := by simp [Function.comp_def]
    refine (if_pos hname).trans (bind_eq_ok.2 ⟨is, hbody, ?_⟩)
    simp only [pure, Except.pure, hparams]

theorem eq_record_of_decode {r : Format.Record} {d : Declaration} (hr : r.ArgsAscend) (h : r.decode = .ok d) :
    d.Named ∧ r = d.record := by
  cases r with
  | var name init =>
    by_cases hname : (name.front? == some '@') = true
    · cases (if_pos hname).symm.trans h
      exact ⟨beq_iff_eq.1 hname, rfl⟩
    · cases (if_neg hname).symm.trans h
  | proc name params body =>
    by_cases hname : (name.front? == some '@') = true
    · obtain ⟨is, his, h⟩ := bind_eq_ok.1 ((if_pos hname).symm.trans h)
      cases h
      refine ⟨beq_iff_eq.1 hname, ?_⟩
      have hbody : body.mapM Format.InstrRecord.decode = .ok is := by
        rw [Format.body] at his
        cases hmap : body.mapM Format.InstrRecord.decode with
        | error e =>
          rw [hmap] at his
          cases his
        | ok is' => rwa [hmap] at his
      have hrecords : body.map id = is.map Instr.record :=
        map_eq_map_of_forall₂ (mapM_eq_ok.1 hbody) fun r hmem i hi =>
          Format.InstrRecord.eq_record_of_decode (hr r hmem) hi
      rw [List.map_id] at hrecords
      simp [record, hrecords, Function.comp_def]
    · cases (if_neg hname).symm.trans h

end Declaration

/-! ## Programs -/

namespace Program

variable {P : Program} {text : String} {v : Json}

/-- The declarations and instructions are objects with the documented fields and no others. -/
def Documented (v : Json) : Prop := ∀ items, v = .array items → ∀ d ∈ items, Format.Record.Documented d

theorem ofJson_toJson (h : ∀ d ∈ P, d.Named) : Program.ofJson P.toJson = .ok P := by
  have hrecords : Format.records? P.toJson = some (P.map Declaration.record) := by
    have hmap : (P.map Declaration.toJson).mapM Format.Record.ofJson? = some (P.map Declaration.record) := by
      rw [mapM_eq_some, List.forall₂_map_left_iff, List.forall₂_map_right_iff]
      exact List.forall₂_same.2 fun d _ => d.ofJson?_toJson
    exact hmap
  have hdecode : (P.map Declaration.record).mapM Format.Record.decode = .ok P := by
    rw [mapM_eq_ok, List.forall₂_map_left_iff]
    exact List.forall₂_same.2 fun d hd => Declaration.decode_record (h d hd)
  rw [ofJson, hrecords]
  simp only [hdecode]
  rfl

/-- What is read from a value has the records that the value has. -/
theorem forall₂_of_ofJson (h : Program.ofJson v = .ok P) : ∃ items, v = .array items ∧
    List.Forall₂ (fun u d => Declaration.Named d ∧ Format.Record.ofJson? u = some d.record) items P := by
  unfold ofJson at h
  cases hrecords : Format.records? v with
  | none =>
    rw [hrecords] at h
    cases h
  | some records =>
    obtain ⟨items, hitems, hmap⟩ := Option.bind_eq_some_iff.1 hrecords
    refine ⟨items, Format.array?_eq_some.1 hitems, ?_⟩
    have hdecode : records.mapM Format.Record.decode = .ok P := by
      rw [hrecords] at h
      cases hdecode : records.mapM Format.Record.decode with
      | error e =>
        simp only [hdecode] at h
        cases h
      | ok ds =>
        simp only [hdecode] at h
        cases h
        rfl
    refine (forall₂_comp (mapM_eq_some.1 hmap) (mapM_eq_ok.1 hdecode)).imp ?_
    rintro u d ⟨r, hr, hd⟩
    obtain ⟨hnamed, rfl⟩ := Declaration.eq_record_of_decode (Format.Record.argsAscend_of_ofJson? hr) hd
    exact ⟨hnamed, hr⟩

theorem named_of_ofJson (h : Program.ofJson v = .ok P) : ∀ d ∈ P, d.Named := by
  obtain ⟨items, -, hitems⟩ := forall₂_of_ofJson h
  intro d hd
  obtain ⟨u, -, hnamed, -⟩ := exists_of_mem_of_forall₂ hitems d hd
  exact hnamed

/-- A program that is read from a value with the documented fields is written as the value. -/
theorem toJson_of_documented (h : Program.ofJson v = .ok P) (hv : Documented v) : P.toJson = v.canonical := by
  obtain ⟨items, rfl, hitems⟩ := forall₂_of_ofJson h
  have hmap : items.map Json.canonical = P.map Declaration.toJson :=
    map_eq_map_of_forall₂ hitems fun u hu d hd => by
      rw [Format.Record.canonical_of_ofJson? (hv items rfl u hu) hd.2, d.toJson_record]
  rw [toJson, Json.canonical, Json.canonicalItems_eq, hmap]

/-! ## Texts -/

section

variable {room : Nat}

theorem fits_int64 (n : Int64) : Json.Fits room (.int n.toInt) := by
  have hlow := n.le_toInt
  have hhigh := n.toInt_lt
  exact .number ⟨by omega, by omega⟩

theorem fits_uint32 (n : UInt32) : Json.Fits room (.int n.toNat) := by
  have hlt := n.toNat_lt
  exact .number ⟨by omega, by omega⟩

theorem fits_operand (o : Operand) : Json.Fits room o.toJson := by
  cases o with
  | temp t => exact .string t.name
  | imm n => exact fits_int64 n

theorem fits_args (i : Instr) : ∀ a ∈ i.argsJson, Json.Fits (room + 1) a := by
  cases i with
  | phi dest s =>
    intro a ha
    obtain rfl := List.mem_singleton.1 ha
    refine .object fun m hm => ?_
    obtain ⟨e, -, rfl⟩ := List.mem_map.1 hm
    exact fits_operand e.2
  | ret value? => cases value? <;> simp [Instr.argsJson, fits_operand]
  | _ => simp [Instr.argsJson, fits_operand, fits_int64, fits_uint32, Json.Fits.string]

theorem fits_instr (i : Instr) : Json.Fits (room + 3) i.toJson := by
  rw [← i.toJson_record]
  refine .object fun m hm => ?_
  simp only [List.mem_cons, List.not_mem_nil, or_false] at hm
  rcases hm with rfl | rfl | rfl
  · exact .array (fits_args i)
  · exact .string _
  · cases i.record.result? with
    | none => exact .null
    | some dest => exact .string dest

theorem fits_declaration (d : Declaration) : Json.Fits (room + 5) d.toJson := by
  cases d with
  | var v =>
    refine .object fun m hm => ?_
    simp only [List.mem_cons, List.not_mem_nil, or_false] at hm
    rcases hm with rfl | rfl
    · exact fits_int64 v.init
    · exact .string _
  | proc p =>
    refine .object fun m hm => ?_
    simp only [List.mem_cons, List.not_mem_nil, or_false] at hm
    rcases hm with rfl | rfl | rfl
    · refine .array fun a ha => ?_
      obtain ⟨t, -, rfl⟩ := List.mem_map.1 ha
      exact .string _
    · refine .array fun a ha => ?_
      obtain ⟨i, -, rfl⟩ := List.mem_map.1 ha
      exact fits_instr i
    · exact .string _

end

/-- The value of a program nests six deep at most. -/
theorem fits_toJson (P : Program) : Json.Fits maxNesting P.toJson := by
  refine .array fun a ha => ?_
  obtain ⟨d, -, rfl⟩ := List.mem_map.1 ha
  exact fits_declaration d

theorem parse_toJson (h : ∀ d ∈ P, d.Named) : Program.parse P.toJson.compact = .ok P := by
  rw [parse, Json.parse?_compact P.fits_toJson]
  exact ofJson_toJson h

/-- Optimization changes no name of a declaration. -/
theorem named_optimize {config : Config} {o : OptimizedProgram} (h : ∀ d ∈ P, d.Named)
    (ho : P.optimize config = .ok o) : ∀ d ∈ o.program, d.Named := by
  obtain ⟨ds, hds, ho⟩ := bind_eq_ok.1 ho
  cases ho
  intro d' hd'
  obtain ⟨e, he, rfl⟩ := List.mem_map.1 hd'
  obtain ⟨d, hd, hopt⟩ := exists_of_mem_of_forall₂ (mapM_eq_ok.1 hds) e he
  have hname : e.declaration.name = d.name := by
    cases d with
    | var v =>
      cases hopt
      rfl
    | proc p =>
      obtain ⟨o, hproc, hopt⟩ := bind_eq_ok.1 hopt
      cases hopt
      obtain ⟨c, -, hproc⟩ := bind_eq_ok.1 hproc
      obtain ⟨r, -, hproc⟩ := bind_eq_ok.1 hproc
      cases hproc
      rfl
  rw [Declaration.Named, hname]
  exact h d hd

/-- A program that is read from a text is read from the text that it is written as, and so is what optimization makes
of it. If the text has the documented fields, then the program is written as the value of the text. -/
theorem reads_back {text : String} (h : Program.parse text = .ok P) :
    Program.parse P.toJson.compact = .ok P ∧
      (∀ config o, P.optimize config = .ok o → Program.parse o.program.toJson.compact = .ok o.program) ∧
      ∀ v, Json.parse? maxNesting text = some v → Documented v → P.toJson = v.canonical := by
  unfold parse at h
  cases hv : Json.parse? maxNesting text with
  | none =>
    rw [hv] at h
    cases h
  | some v =>
    rw [hv] at h
    have hnamed := named_of_ofJson h
    refine ⟨parse_toJson hnamed, fun config o ho => parse_toJson (named_optimize hnamed ho), fun u hu hdoc => ?_⟩
    cases hu
    exact toJson_of_documented h hdoc

/-! A text with its fields in another order than they are written in. -/

def shuffledText : String :=
  "[\x7b\"var\": \"@g\", \"init\": -1\x7d, \x7b\"proc\": \"@f\", \"args\": [\"%x\"], \"body\": [" ++
  "\x7b\"opcode\": \"add\", \"args\": [\"%x\", 2], \"result\": \"%y\"\x7d, " ++
  "\x7b\"opcode\": \"ret\", \"args\": [\"%y\"], \"result\": null\x7d]\x7d]"

def shuffledValue : Json := .array [
  .object [("var", .string "@g"), ("init", .int (-1))],
  .object [("proc", .string "@f"), ("args", .array [.string "%x"]), ("body", .array [
    .object [("opcode", .string "add"), ("args", .array [.string "%x", .int 2]), ("result", .string "%y")],
    .object [("opcode", .string "ret"), ("args", .array [.string "%y"]), ("result", .null)]])]]

def shuffled : Program := [
  .var ⟨"@g", -1⟩,
  .proc ⟨"@f", [⟨"%x"⟩], [.binary ⟨"%y"⟩ .add (.temp ⟨"%x"⟩) (.imm 2), .ret (some (.temp ⟨"%y"⟩))]⟩]

set_option maxRecDepth 4000 in
theorem parse?_shuffledText : Json.parse? maxNesting shuffledText = some shuffledValue := by rfl

theorem parse_shuffledText : Program.parse shuffledText = .ok shuffled := by
  rw [parse, parse?_shuffledText]
  rfl

theorem documented_shuffledValue : Documented shuffledValue := by
  intro items h
  cases h
  intro d hd
  simp only [List.mem_cons, List.not_mem_nil, or_false] at hd
  rcases hd with rfl | rfl
  · exact .inl (.swap ..)
  · refine .inr ⟨by decide, fun items hitems v hv => ?_⟩
    simp [Json.int] at hitems
    subst hitems
    simp only [List.mem_cons, List.not_mem_nil, or_false] at hv
    rcases hv with rfl | rfl
    · exact .swap ..
    · exact .swap ..

theorem reads_back_shuffled : Program.parse shuffled.toJson.compact = .ok shuffled ∧
    shuffled.toJson = shuffledValue.canonical ∧
    ∃ o, shuffled.optimize .ssaOnly = .ok o ∧ o.program ≠ shuffled ∧
      Program.parse o.program.toJson.compact = .ok o.program := by
  obtain ⟨hback, hoptimized, hvalue⟩ := reads_back parse_shuffledText
  obtain ⟨o, ho, hne⟩ : ∃ o, shuffled.optimize .ssaOnly = .ok o ∧ o.program ≠ shuffled := ⟨_, rfl, by decide⟩
  exact ⟨hback, hvalue _ parse?_shuffledText documented_shuffledValue, o, ho, hne, hoptimized _ o ho⟩

end Program

end ThreeAddress

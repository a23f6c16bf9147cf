import CycleCheck.Proofs.Cycle.Exactness
import CycleCheck.Proofs.Cycle.RuleSorts
import CycleCheck.Proofs.Timeline.Sorted

/-!
Sorts of the blocks of a machine. Every wire has one sort, which all blocks that declare it or use
it agree on, so the formula of a machine is well formed after any number of cycles.
-/

namespace CycleCheck.Cycle

open Processor Memory

/-! ## Sorts of wires -/

/-- The sort of a wire, for a ROM with some number of address bits. -/
def Wire.kind (bits : Nat) : Wire → Kind
  | .cpu v => .bits (bitsOf v)
  | .select _ | .write _ => .bits 1
  | .address _ => .bits 16
  | .data _ | .answer _ => .bits 8
  | .ram => .array 11 8
  | .prg => .array bits 8

/-- The sort of a variable by its name. -/
def kindOf (bits : Nat) (x : String) : Kind :=
  ((Wire.all.find? fun w => w.name == x).map (Wire.kind bits)).getD .truth

theorem kindOf_name (bits : Nat) (w : Wire) : kindOf bits w.name = w.kind bits := by
  have hsome : (Wire.all.find? fun v => v.name == w.name).isSome :=
    List.find?_isSome.2 ⟨w, Wire.mem_all w, beq_self_eq_true _⟩
  obtain ⟨v, hv⟩ := Option.isSome_iff_exists.1 hsome
  obtain rfl : v = w := Wire.name_injective (beq_iff_eq.1 (List.find?_some hv :))
  rw [kindOf, hv]
  rfl

/-- Symbols of wires with their sorts. -/
def wireScope (bits : Nat) (σ : String → Symbol) (ws : List Wire) : Scope := fun y k =>
  ∃ w ∈ ws, y = (σ w.name).name ∧ k = w.kind bits

/-- What a block may use: the wires it reads and those it writes. -/
def blockScope (bits : Nat) (ρ ω : String → Symbol) (rs ws : List Wire) : Scope := fun y k =>
  wireScope bits ρ rs y k ∨ wireScope bits ω ws y k

section Blocks

variable {bits : Nat} {ρ ω : String → Symbol} {rs ws : List Wire}

theorem evaluable_read {w : Wire} (hw : w ∈ rs) :
    ((Binding.of (rs.map Wire.name) ρ).term w.name).Evaluable (blockScope bits ρ ω rs ws)
      (w.kind bits) := by
  rw [Binding.term_of (List.mem_map_of_mem hw)]
  exact .symbol (.inl ⟨w, hw, rfl, rfl⟩)

theorem evaluable_written {w : Wire} (hw : w ∈ ws) :
    (Term.symbol ((Binding.of (ws.map Wire.name) ω).symbol w.name)).Evaluable
      (blockScope bits ρ ω rs ws) (w.kind bits) := by
  rw [symbol_write ws w hw]
  exact .symbol (.inr ⟨w, hw, rfl, rfl⟩)

/-- The declarations of some wires, in order, and then clauses over the wires that a block has. -/
structure Declared (bits : Nat) (ρ ω : String → Symbol) (rs ws : List Wire)
    (decls asserts : Formula) : Prop where
  signature : decls.signature = ws.map fun w => ((ω w.name).name, w.kind bits)
  silent : ∀ t, Command.assert t ∉ decls
  clauses : ∀ c ∈ asserts, ∃ t, c = .assert t ∧ Clause (blockScope bits ρ ω rs ws) t

theorem Declared.signature_eq {decls asserts : Formula}
    (h : Declared bits ρ ω rs ws decls asserts) :
    (decls ++ asserts).signature = ws.map fun w => ((ω w.name).name, w.kind bits) := by
  have hnone : asserts.signature = [] := Formula.signature_of_asserts fun c hc => by
    obtain ⟨t, ht, -⟩ := h.clauses c hc
    exact ⟨t, ht⟩
  rw [Formula.signature_append, h.signature, hnone, List.append_nil]

theorem Declared.sorted {decls asserts : Formula} (h : Declared bits ρ ω rs ws decls asserts) :
    (decls ++ asserts).Sorted (wireScope bits ρ rs) := by
  refine Formula.sorted_declared h.silent fun t ht => ?_
  obtain ⟨_, ⟨⟩, hclause⟩ := h.clauses _ ht
  refine hclause.mono fun y k hy => hy.imp_right ?_
  rintro ⟨w, hw, rfl, rfl⟩
  rw [h.signature]
  exact List.mem_map_of_mem hw

theorem sorted_of_wires {b : Block} (rs ws : List Wire) (hreads : b.reads = rs.map Wire.name)
    (hwrites : b.writes = ws.map Wire.name) (keeps : b.Keeps)
    (h : ∀ (ρ ω : String → Symbol) (f : Formula),
      b.generate (.of (rs.map Wire.name) ρ) (.of (ws.map Wire.name) ω) = .ok f →
        f.signature = (ws.map fun w => ((ω w.name).name, w.kind bits)) ∧
          f.Sorted (wireScope bits ρ rs)) : b.Sorted (kindOf bits) := by
  refine ⟨keeps, fun ρ ω f hf => ?_⟩
  rw [hreads, hwrites] at hf ⊢
  obtain ⟨hsig, hsorted⟩ := h ρ ω f hf
  refine ⟨?_, hsorted.mono ?_⟩
  · rw [hsig, List.map_map]
    exact List.map_congr_left fun w _ => by rw [Function.comp_apply, kindOf_name]
  · rintro y k ⟨w, hw, rfl, rfl⟩
    exact ⟨w.name, List.mem_map_of_mem hw, rfl, (kindOf_name bits w).symm⟩

/-- A block that declares what it writes and then asserts clauses. -/
theorem sorted_of_declared {b : Block} (rs ws : List Wire) (hreads : b.reads = rs.map Wire.name)
    (hwrites : b.writes = ws.map Wire.name) (keeps : b.Keeps)
    (h : ∀ (ρ ω : String → Symbol) (f : Formula),
      b.generate (.of (rs.map Wire.name) ρ) (.of (ws.map Wire.name) ω) = .ok f →
        ∃ decls asserts, f = decls ++ asserts ∧ Declared bits ρ ω rs ws decls asserts) :
    b.Sorted (kindOf bits) := by
  refine sorted_of_wires rs ws hreads hwrites keeps fun ρ ω f hf => ?_
  obtain ⟨decls, asserts, rfl, hdeclared⟩ := h ρ ω f hf
  exact ⟨hdeclared.signature_eq, hdeclared.sorted⟩

/-! ## The processor -/

theorem signature_declareOutputs (bits : Nat) (ω : String → Symbol) :
    Formula.signature (Processor.standard.declareOutputs
        (.of ((Variable.outputs.map Wire.cpu).map Wire.name) ω)) =
      (Variable.outputs.map Wire.cpu).map fun w => ((ω w.name).name, w.kind bits) := by
  have hwidth : ∀ v, (Processor.standard.width v).toUInt64.toNat = bitsOf v := by
    intro v
    rw [← width_eq]
    simpa using width_standard v
  rw [declareOutputs, Formula.signature, List.filterMap_map, List.map_map]
  have hdeclared : ∀ v ∈ Variable.outputs, Command.declared?
      (.declareBits (Binding.symbol (.of ((Variable.outputs.map Wire.cpu).map Wire.name) ω) v.name)
        ⟨(Processor.standard.width v).toUInt64⟩) = some ((ω v.name).name, .bits (bitsOf v)) := by
    intro v hv
    have hsymbol : Binding.symbol (.of ((Variable.outputs.map Wire.cpu).map Wire.name) ω) v.name =
        ω v.name := symbol_write _ (.cpu v) (List.mem_map_of_mem hv)
    rw [Command.declared?, hwidth, hsymbol]
  rw [← List.filterMap_eq_map]
  exact List.filterMap_congr hdeclared

theorem not_assert_of_note_declareOutputs {text : String} {out : Binding} (t : Term) :
    Command.assert t ∉ Command.note text :: Processor.standard.declareOutputs out := by
  simp [declareOutputs, Command.note]

theorem evaluable_fixed {Γ : Scope} (v : Variable) {n : Nat} (hn : n < 2 ^ bitsOf v) :
    (Term.word (Processor.standard.width v) n).Evaluable Γ (.bits (bitsOf v)) := by
  rw [width_eq]
  exact .word (by cases v <;> decide) (by cases v <;> decide) hn

theorem sorted_powerOn (bits : Nat) (registers : Option Registers) :
    (Processor.standard.powerOn registers).Sorted (kindOf bits) := by
  refine sorted_of_declared [] (Variable.outputs.map .cpu) rfl rfl (fun _ _ => rfl)
    fun ρ ω f hf => ?_
  have hfix : ∀ v ∈ Variable.outputs, ∀ n < 2 ^ bitsOf v, ∃ t,
      Command.assert (.eq (Binding.term (.of ((Variable.outputs.map Wire.cpu).map Wire.name) ω)
        v.name) (.word (Processor.standard.width v) n)) = .assert t ∧
        Clause (blockScope bits ρ ω [] (Variable.outputs.map .cpu)) t :=
    fun v hv n hn => ⟨_, rfl, .eq
      (evaluable_written (w := .cpu v) (List.mem_map_of_mem hv)) (evaluable_fixed v hn)⟩
  cases hf
  refine ⟨_, _, List.append_assoc _ _ _, signature_declareOutputs bits ω,
    not_assert_of_note_declareOutputs, ?_⟩
  rw [List.forall_mem_append]
  constructor
  · simp only [List.forall_mem_cons]
    exact ⟨hfix .state (by decide) 0 (by decide), hfix .resetSequence (by decide) 0 (by decide),
      hfix .addressBus (by decide) 0 (by decide), hfix .writeEnable (by decide) 0 (by decide),
      hfix .dataOut (by decide) 0 (by decide), by simp⟩
  · cases registers with
    | none => simp
    | some r =>
      simp only [List.forall_mem_cons]
      exact ⟨hfix .a (by decide) _ r.a.toNat_lt, hfix .x (by decide) _ r.x.toNat_lt,
        hfix .y (by decide) _ r.y.toNat_lt, hfix .sp (by decide) _ r.sp.toNat_lt,
        hfix .p (by decide) _ r.p.toNat_lt, hfix .pc (by decide) _ r.pc.toNat_lt,
        hfix .tempAddress (by decide) 0 (by decide), hfix .tempPointer (by decide) 0 (by decide),
        by simp⟩

theorem evaluable_code {Γ : Scope} {m : MicroState} (hm : m ∈ microStates) :
    (Term.word 7 (microStates.idxOf m)).Evaluable Γ (.bits 7) := by
  have hlt := List.idxOf_lt_length_of_mem hm
  rw [length_microStates] at hlt
  exact .word (by decide) (by decide) (by omega)

/-- The condition of a rule: its micro-state and its guard, if it has one. -/
def antecedent (before : Inputs) (r : Rule) : Term :=
  match r.guard with
  | none => .eq (before .state) (.word 7 (microStates.idxOf r.state))
  | some g => .all [.eq (before .state) (.word 7 (microStates.idxOf r.state)), g before]

theorem evaluable_antecedent {Γ : Scope} {before : Inputs} {r : Rule}
    (hr : r ∈ Processor.standard.rules) (hbefore : Typed Γ before) :
    (antecedent before r).Evaluable Γ .truth := by
  have hhere : (Term.eq (before .state) (.word 7 (microStates.idxOf r.state))).Evaluable Γ .truth :=
    (hbefore .state).eq (evaluable_code (performs_of_mem hr).state)
  unfold antecedent
  cases hguard : r.guard with
  | none => exact hhere
  | some g =>
    refine .all ?_
    simp only [List.forall_mem_cons]
    exact ⟨hhere, (typed_of_mem hr).guard g hguard hbefore, by simp⟩

/-- The consequent of a rule: an equality for every output. -/
def consequent (after : Variable → Term) (d : Draft) : Term :=
  .all (Variable.outputs.map fun v => .eq (after v) (d v))

/-- The implication of a rule gives every output a term over the inputs. -/
theorem exists_of_ruleAssertion {Γ : Scope} {before after : Variable → Term} {r : Rule}
    {c : Command} (hr : r ∈ Processor.standard.rules) (hbefore : Typed Γ before)
    (hc : Processor.standard.ruleAssertion before after r = .ok c) :
    ∃ d, c = .assert (.implies (antecedent before r) (consequent after d)) ∧ Typed Γ d := by
  have hperforms := performs_of_mem hr
  obtain ⟨d, hd, -⟩ := hperforms.effect before
  have htyped := (typed_of_mem hr).effect hbefore hd
  unfold ruleAssertion at hc
  rw [literal_eq hperforms.state, hd] at hc
  cases hnext : r.next with
  | none =>
    simp only [hnext] at hc
    cases hc
    exact ⟨d, rfl, htyped⟩
  | some m =>
    have hm := hperforms.next m hnext
    simp only [hnext, literal_eq hm] at hc
    cases hc
    exact ⟨_, rfl, htyped.set .state (evaluable_code hm)⟩

theorem mem_of_mapM {α β ε : Type} {f : α → Except ε β} {l : List α} {bs : List β}
    (h : l.mapM f = .ok bs) :
    (∀ b ∈ bs, ∃ a ∈ l, f a = .ok b) ∧ ∀ a ∈ l, ∃ b ∈ bs, f a = .ok b := by
  induction l generalizing bs with
  | nil =>
    cases h
    simp
  | cons a rest ih =>
    rw [List.mapM_cons] at h
    obtain ⟨b, hb, h⟩ := Propagation.exists_ok_of_bind h
    obtain ⟨bs', hbs, h⟩ := Propagation.exists_ok_of_bind h
    cases h
    obtain ⟨hright, hleft⟩ := ih hbs
    constructor
    · rw [List.forall_mem_cons]
      refine ⟨⟨a, List.mem_cons_self, hb⟩, fun b' hb' => ?_⟩
      obtain ⟨a', ha', h⟩ := hright b' hb'
      exact ⟨a', List.mem_cons_of_mem a ha', h⟩
    · rw [List.forall_mem_cons]
      refine ⟨⟨b, List.mem_cons_self, hb⟩, fun a' ha' => ?_⟩
      obtain ⟨b', hb', h⟩ := hleft a' ha'
      exact ⟨b', List.mem_cons_of_mem b hb', h⟩

/-- Every handler of a machine is the handler of one of the pages. -/
theorem exists_handlerOf_eq_of_mem {rom : Cartridge.Rom} {options : MachineOptions} {log : Log}
    {sys : Machine} (h : Machine.ofRom rom options log = .ok sys) {handler : PageHandler}
    (hmem : handler ∈ sys.handlers) :
    ∃ page : Fin 16, Machine.handlerOf sys.ram sys.mapper page = .ok handler := by
  unfold Machine.ofRom at h
  obtain ⟨m, _, h⟩ := Propagation.exists_ok_of_bind h
  obtain ⟨handlers, hhandlers, h⟩ := Propagation.exists_ok_of_bind h
  cases h
  obtain ⟨i, hi, hhandler⟩ := (mem_of_mapM hhandlers).1 handler hmem
  exact ⟨⟨i, List.mem_range.1 hi⟩, hhandler⟩

/-- The implications of a cycle: one for each rule. -/
structure CycleRules (Γ : Scope) (before after : Variable → Term) (rules : Formula) : Prop where
  each : ∀ c ∈ rules, ∃ r ∈ Processor.standard.rules, ∃ d,
    c = .assert (.implies (antecedent before r) (consequent after d)) ∧ Typed Γ d
  every : ∀ r ∈ Processor.standard.rules, ∃ d,
    .assert (.implies (antecedent before r) (consequent after d)) ∈ rules

theorem exists_of_cycle {inp out : Binding} {f : Formula}
    (h : Processor.standard.cycle.generate inp out = .ok f) {Γ : Scope}
    (hinp : Typed Γ fun v => inp.term v.name) :
    ∃ rules, f = (.note "cpu cycle" :: Processor.standard.declareOutputs out) ++ rules ∧
      CycleRules Γ (fun v => inp.term v.name) (fun v => out.term v.name) rules := by
  obtain ⟨rules, hrules, h⟩ := Propagation.exists_ok_of_bind h
  cases hmap : Processor.standard.rules.mapM (Processor.standard.ruleAssertion
      (fun v => inp.term v.name) fun v => out.term v.name) with
  | error e =>
    simp only [hmap] at hrules
    cases hrules
  | ok assertions =>
    simp only [hmap] at hrules
    cases hrules
    cases h
    obtain ⟨hright, hleft⟩ := mem_of_mapM hmap
    refine ⟨_, rfl, fun c hc => ?_, fun r hr => ?_⟩
    · obtain ⟨r, hr, hcr⟩ := hright c hc
      exact ⟨r, hr, exists_of_ruleAssertion hr hinp hcr⟩
    · obtain ⟨c, hc, hcr⟩ := hleft r hr
      obtain ⟨d, rfl, -⟩ := exists_of_ruleAssertion hr hinp hcr
      exact ⟨d, hc⟩

theorem typed_inputs {bits : Nat} {ρ ω : String → Symbol} {ws : List Wire} :
    Typed (blockScope bits ρ ω (Variable.inputs.map Wire.cpu) ws) fun v =>
      Binding.term (.of ((Variable.inputs.map Wire.cpu).map Wire.name) ρ) v.name :=
  fun v => evaluable_read (w := .cpu v) (List.mem_map_of_mem (mem_inputs v))

theorem sorted_cycle (bits : Nat) : Processor.standard.cycle.Sorted (kindOf bits) := by
  refine sorted_of_declared (Variable.inputs.map .cpu) (Variable.outputs.map .cpu) rfl rfl
    (fun _ _ => rfl) fun ρ ω f hf => ?_
  obtain ⟨rules, rfl, hrules⟩ := exists_of_cycle hf typed_inputs
  refine ⟨_, _, rfl, signature_declareOutputs bits ω, not_assert_of_note_declareOutputs,
    fun c hc => ?_⟩
  obtain ⟨r, hr, d, rfl, hd⟩ := hrules.each c hc
  refine ⟨_, rfl, .implies (evaluable_antecedent hr typed_inputs) (.all ?_)⟩
  rw [List.forall_mem_map]
  exact fun v hv => .eq (evaluable_written (w := .cpu v) (List.mem_map_of_mem hv)) (hd v)

/-! ## RAM and ROM -/

theorem sorted_ramPowerOn (bits : Nat) : Ram.powerOn.Sorted (kindOf bits) := by
  refine sorted_of_declared [] [.ram] rfl rfl (fun _ _ => rfl) fun ρ ω f hf => ?_
  cases hf
  have hout : Binding.symbol (.of ([Wire.ram].map Wire.name) ω) Ram.memory = ω Wire.ram.name :=
    symbol_write _ .ram (by simp)
  refine ⟨_, [], (List.append_nil _).symm, ?_, ?_, by simp⟩
  · change [((Binding.symbol (.of ([Wire.ram].map Wire.name) ω) Ram.memory).name, _)] = _
    rw [hout]
    rfl
  · simp [Command.note, Ram.declareMemory]

theorem evaluable_byte {Γ : Scope} (b : UInt8) : (Term.word 8 b.toNat).Evaluable Γ (.bits 8) :=
  .word (by decide) (by decide) b.toNat_lt

theorem sorted_contents (bits : Nat) {data : ByteArray} {b : Block}
    (hb : Ram.contents 0 data = .ok b) : b.Sorted (kindOf bits) ∧ b.writes.Nodup := by
  unfold Ram.contents at hb
  split_ifs at hb with hsize
  cases hb
  refine ⟨sorted_of_declared [.ram] [] rfl rfl (fun _ _ => rfl) fun ρ ω f hf => ?_,
    List.nodup_nil⟩
  cases hf
  refine ⟨[_], _, rfl, rfl, by simp [Command.note], fun c hc => ?_⟩
  obtain ⟨i, hi, rfl⟩ := List.mem_mapIdx.1 hc
  have hlt : i < ramSize := by
    rw [toList_eq, List.length_map, List.length_range] at hi
    omega
  refine ⟨_, rfl, .eq ((evaluable_read (w := .ram) (by simp)).select ?_) (evaluable_byte _)⟩
  rw [Nat.zero_add]
  exact .word (by decide) (by decide) hlt

theorem sorted_initialiser {m : Cartridge.Mapper} {rom : Cartridge.Rom} (hm : MapsTo m rom) :
    m.initialiser.Sorted (kindOf m.addressBits) := by
  refine sorted_of_declared [] [.prg] rfl rfl (fun _ _ => rfl) fun ρ ω f hf => ?_
  cases hf
  have hle := hm.le
  have hbits : m.addressBits.toUInt64.toNat = m.addressBits := by
    simpa using Nat.lt_of_le_of_lt hle (by decide : 15 < 2 ^ 64)
  refine ⟨[_, _], _, rfl, ?_, by simp [Command.note], fun c hc => ?_⟩
  · rw [Formula.signature_note, Formula.signature_declareArray, hbits]
    exact congrArg (fun s : Symbol => [(s.name, Kind.array m.addressBits 8)])
      (symbol_write (ω := ω) [.prg] .prg (by simp))
  · obtain ⟨i, hi, rfl⟩ := List.mem_mapIdx.1 hc
    have hlt : i < 2 ^ m.addressBits := by
      rw [toList_eq, List.length_map, List.length_range, hm.source, hm.size] at hi
      exact hi
    exact ⟨_, rfl, .eq ((evaluable_written (w := .prg) (by simp)).select
      (.word hm.one_le (by omega) hlt)) (evaluable_byte _)⟩

/-! ## Handlers of pages -/

section Equality

variable {Γ : Scope} {next before address data : Term}

theorem evaluable_cell {a : Term} (ha : a.Evaluable Γ (.array 11 8)) {i : Nat} (hi : i < ramSize) :
    (Term.select a (Ram.cellIndex i)).Evaluable Γ (.bits 8) :=
  ha.select (.word (by decide) (by decide) hi)

theorem clause_unchanged (r : Ram) (hn : next.Evaluable Γ (.array 11 8))
    (hb : before.Evaluable Γ (.array 11 8)) : Clause Γ (r.unchanged next before) := by
  unfold Ram.unchanged
  split_ifs
  · exact .eq hn hb
  · refine .all ?_
    rw [List.forall_mem_map]
    intro i hi
    rw [List.mem_range] at hi
    exact .eq (evaluable_cell hn hi) (evaluable_cell hb hi)

theorem clause_stored (r : Ram) (hn : next.Evaluable Γ (.array 11 8))
    (hb : before.Evaluable Γ (.array 11 8)) (ha : address.Evaluable Γ (.bits 11))
    (hd : data.Evaluable Γ (.bits 8)) : Clause Γ (r.stored next before address data) := by
  unfold Ram.stored
  split_ifs
  · exact .eq hn (hb.store ha hd)
  · refine .all ?_
    rw [List.forall_mem_map]
    intro i hi
    rw [List.mem_range] at hi
    exact .eq (evaluable_cell hn hi) (.ite (ha.eq (.word (by decide) (by decide) hi)) hd
      (evaluable_cell hb hi))

end Equality

theorem evaluable_zero {Γ : Scope} : (Term.word 8 0).Evaluable Γ (.bits 8) :=
  .word (by decide) (by decide) (by decide)

/-- The three cases of a RAM page. -/
theorem clauses_ram (r : Ram) {Γ : Scope} {select address write data before : Term}
    {next out : Symbol} (hselect : select.Evaluable Γ (.bits 1))
    (haddress : address.Evaluable Γ (.bits 16)) (hwrite : write.Evaluable Γ (.bits 1))
    (hdata : data.Evaluable Γ (.bits 8)) (hbefore : before.Evaluable Γ (.array 11 8))
    (hnext : (Term.symbol next).Evaluable Γ (.array 11 8))
    (hout : (Term.symbol out).Evaluable Γ (.bits 8)) :
    Clause Γ (.implies (.not (.eq select (.bit true)))
        (.all [r.unchanged (.symbol next) before, .eq (.symbol out) (.word 8 0)])) ∧
      Clause Γ (.implies (.all [.eq select (.bit true), .not (.eq write (.bit true))])
        (.all [r.unchanged (.symbol next) before,
          .eq (.symbol out) (.select before (.extract (ramBits - 1) 0 address))])) ∧
      Clause Γ (.implies (.all [.eq select (.bit true), .eq write (.bit true)])
        (.all [r.stored (.symbol next) before (.extract (ramBits - 1) 0 address) data,
          .eq (.symbol out) data])) := by
  have hselected : (Term.eq select (.bit true)).Evaluable Γ .truth := hselect.eq (.bit true)
  have hwriting : (Term.eq write (.bit true)).Evaluable Γ .truth := hwrite.eq (.bit true)
  have hwindow : (Term.extract (ramBits - 1) 0 address).Evaluable Γ (.bits 11) :=
    .extract (by decide) (by decide) (by decide) haddress
  have hsame := clause_unchanged r hnext hbefore
  refine ⟨.implies hselected.not (.all ?_), .implies (.all ?_) (.all ?_),
    .implies (.all ?_) (.all ?_)⟩
  · simpa using ⟨hsame, Clause.eq hout evaluable_zero⟩
  · simpa using ⟨hselected, hwriting.not⟩
  · simpa using ⟨hsame, Clause.eq hout (hbefore.select hwindow)⟩
  · simpa using ⟨hselected, hwriting⟩
  · simpa using ⟨clause_stored r hnext hbefore hwindow hdata, Clause.eq hout hdata⟩

theorem sorted_ramHandler (bits : Nat) (r : Ram) (page : Fin 16) :
    (r.handler page.val).block.Sorted (kindOf bits) := by
  refine sorted_of_declared [.select page, .address page, .write page, .data page, .ram]
    [.ram, .answer page] rfl rfl (fun _ _ => rfl) fun ρ ω f hf => ?_
  cases hf
  refine ⟨[_, _, _], _, rfl, ?_, by simp [Command.note, Ram.declareMemory, declare], ?_⟩
  · change [((Binding.symbol _ Wire.ram.name).name, Kind.array 11 8),
      ((Binding.symbol _ (Wire.answer page).name).name, Kind.bits 8)] = _
    rw [symbol_write _ .ram (by simp), symbol_write _ (.answer page) (by simp)]
    rfl
  · let rs : List Wire := [.select page, .address page, .write page, .data page, .ram]
    let ws : List Wire := [.ram, .answer page]
    have hread : ∀ w ∈ rs, ((Binding.of (rs.map Wire.name) ρ).term w.name).Evaluable
        (blockScope bits ρ ω rs ws) (w.kind bits) := fun w => evaluable_read
    have hwritten : ∀ w ∈ ws, (Term.symbol ((Binding.of (ws.map Wire.name) ω).symbol
        w.name)).Evaluable (blockScope bits ρ ω rs ws) (w.kind bits) := fun w => evaluable_written
    obtain ⟨hfirst, hsecond, hthird⟩ := clauses_ram r (hread (.select page) (by simp [rs]))
      (hread (.address page) (by simp [rs])) (hread (.write page) (by simp [rs]))
      (hread (.data page) (by simp [rs])) (hread .ram (by simp [rs]))
      (hwritten .ram (by simp [ws])) (hwritten (.answer page) (by simp [ws]))
    simp only [List.forall_mem_cons]
    exact ⟨⟨_, rfl, hfirst⟩, ⟨_, rfl, hsecond⟩, ⟨_, rfl, hthird⟩, by simp⟩

/-- The handler of a page without RAM declares its answer and gives it a term. -/
theorem declared_answer {page : Fin 16} {t : Term}
    (ht : t.Evaluable (blockScope bits ρ ω rs [.answer page]) (.bits 8)) :
    Declared bits ρ ω rs [.answer page]
      [declare ((Binding.of ([Wire.answer page].map Wire.name) ω).symbol (Wire.answer page).name) 8]
      [.assert (.eq (.symbol ((Binding.of ([Wire.answer page].map Wire.name) ω).symbol
        (Wire.answer page).name)) t)] := by
  refine ⟨?_, by simp [declare], ?_⟩
  · rw [symbol_write _ _ (by simp)]
    rfl
  · rw [List.forall_mem_singleton]
    exact ⟨_, rfl, .eq (evaluable_written (w := .answer page) (by simp)) ht⟩

theorem sorted_nullHandler (bits : Nat) (page : Fin 16) :
    (nullHandler page.val).block.Sorted (kindOf bits) := by
  refine sorted_of_declared [] [.answer page] rfl rfl (fun _ _ => rfl) fun ρ ω f hf => ?_
  cases hf
  exact ⟨[_], [_], rfl, declared_answer evaluable_zero⟩

theorem sorted_romHandler {m : Cartridge.Mapper} {rom : Cartridge.Rom} (hm : MapsTo m rom)
    (page : Fin 16) {h : PageHandler} (hh : m.handler? page.val = some h) :
    h.block.Sorted (kindOf m.addressBits) ∧ h.block.writes = [(Wire.answer page).name] := by
  unfold Cartridge.Mapper.handler? at hh
  split_ifs at hh
  cases hh
  refine ⟨sorted_of_declared [.address page, .prg] [.answer page] rfl rfl (fun _ _ => rfl)
    fun ρ ω f hf => ?_, rfl⟩
  cases hf
  refine ⟨[_], [_], rfl, declared_answer ((evaluable_read (w := .prg) (by simp)).select ?_)⟩
  have hle := hm.le
  have hone := hm.one_le
  have hoffset : (Term.extract (m.addressBits - 1) 0 (Binding.term (.of ([Wire.address page,
      .prg].map Wire.name) ρ) (Wire.address page).name)).Evaluable (blockScope m.addressBits ρ ω
        [.address page, .prg] [.answer page]) (.bits (m.addressBits - 1 - 0 + 1)) :=
    .extract (Nat.zero_le _) (by omega) (by decide)
      (evaluable_read (w := .address page) (by simp))
  rwa [show m.addressBits - 1 - 0 + 1 = m.addressBits by omega] at hoffset

theorem sorted_handlerOf {r : Ram} {m : Cartridge.Mapper} {rom : Cartridge.Rom} (hm : MapsTo m rom)
    {page : Fin 16} {h : PageHandler} (hh : Machine.handlerOf r m page = .ok h) :
    h.block.Sorted (kindOf m.addressBits) ∧ h.block.writes.Nodup := by
  obtain ⟨_, rfl⟩ | ⟨_, _, rfl⟩ | ⟨_, hmapped⟩ := handlerOf_cases hh
  · refine ⟨sorted_ramHandler _ r page, ?_⟩
    exact (List.Nodup.map Wire.name_injective (by simp) :
      (([.ram, .answer page] : List Wire).map Wire.name).Nodup)
  · exact ⟨sorted_nullHandler _ page, List.nodup_singleton _⟩
  · obtain ⟨hsorted, hwrites⟩ := sorted_romHandler hm page hmapped
    exact ⟨hsorted, by rw [hwrites]; exact List.nodup_singleton _⟩

/-! ## The halves of the bus -/

theorem declared_page (inp : Binding) (page : Fin 16)
    (hbus : (inp.term Variable.addressBus.name).Evaluable
      (blockScope bits ρ ω rs (Wire.inputs page)) (.bits 16))
    (hwrite : (inp.term Variable.writeEnable.name).Evaluable
      (blockScope bits ρ ω rs (Wire.inputs page)) (.bits 1))
    (hdata : (inp.term Variable.dataOut.name).Evaluable
      (blockScope bits ρ ω rs (Wire.inputs page)) (.bits 8)) :
    ∃ decls asserts, pageCommands inp (.of (frontWires.map Wire.name) ω) page = decls ++ asserts ∧
      Declared bits ρ ω rs (Wire.inputs page) decls asserts := by
  have hout : ∀ w ∈ Wire.inputs page,
      (Binding.of (frontWires.map Wire.name) ω).symbol w.name = ω w.name :=
    fun w hw => symbol_write _ _ (mem_frontWires hw)
  have hwritten : ∀ w ∈ Wire.inputs page, (Term.symbol (ω w.name)).Evaluable
      (blockScope bits ρ ω rs (Wire.inputs page)) (w.kind bits) :=
    fun w hw => .symbol (.inr ⟨w, hw, rfl, rfl⟩)
  simp only [Wire.inputs, List.forall_mem_cons] at hout hwritten
  obtain ⟨hselect', haddress', hwrite', hdata', -⟩ := hout
  obtain ⟨hs, ha, hw, hd, -⟩ := hwritten
  have hpage : (Term.extract 15 12 (inp.term Variable.addressBus.name)).Evaluable
      (blockScope bits ρ ω rs (Wire.inputs page)) (.bits 4) :=
    .extract (by decide) (by decide) (by decide) hbus
  rw [pageCommands, hselect', haddress', hwrite', hdata']
  refine ⟨[_, _, _, _], _, rfl, rfl, by simp [declare], ?_⟩
  simp only [List.forall_mem_cons]
  exact ⟨⟨_, rfl, .eq hs (.ite (hpage.eq (.word (by decide) (by decide) page.isLt)) (.bit true)
    (.bit false))⟩, ⟨_, rfl, .eq ha hbus⟩, ⟨_, rfl, .eq hw hwrite⟩, ⟨_, rfl, .eq hd hdata⟩, by simp⟩

theorem sorted_frontHalf (bits : Nat) : (frontHalf pageSlots).Sorted (kindOf bits) := by
  let rs : List Wire := [.cpu .addressBus, .cpu .writeEnable, .cpu .dataOut]
  refine sorted_of_wires rs frontWires rfl writes_frontHalf (fun _ _ => rfl) fun ρ ω f hf => ?_
  rw [generate_frontHalf] at hf
  cases hf
  have hread : ∀ page, ∀ w ∈ rs, ((Binding.of (rs.map Wire.name) ρ).term w.name).Evaluable
      (blockScope bits ρ ω rs (Wire.inputs page)) (w.kind bits) := fun page w => evaluable_read
  have hpages : ∀ page, ∃ decls asserts, pageCommands (.of (rs.map Wire.name) ρ)
      (.of (frontWires.map Wire.name) ω) page = decls ++ asserts ∧
        Declared bits ρ ω rs (Wire.inputs page) decls asserts := fun page =>
    declared_page _ page (hread page (.cpu .addressBus) (by simp [rs]))
      (hread page (.cpu .writeEnable) (by simp [rs])) (hread page (.cpu .dataOut) (by simp [rs]))
  constructor
  · have hwires : (frontWires.map fun w => ((ω w.name).name, w.kind bits)) =
        (List.finRange 16).flatMap fun page =>
          (Wire.inputs page).map fun w => ((ω w.name).name, w.kind bits) := List.map_flatMap
    rw [Formula.signature_note, Formula.signature_flatten, List.flatMap_map, hwires]
    refine List.flatMap_congr fun page _ => ?_
    obtain ⟨decls, asserts, heq, hdeclared⟩ := hpages page
    rw [heq, hdeclared.signature_eq]
  · refine Formula.sorted_note (Formula.sorted_flatten ?_)
    rw [List.forall_mem_map]
    intro page _
    obtain ⟨decls, asserts, heq, hdeclared⟩ := hpages page
    rw [heq]
    exact hdeclared.sorted

/-- The wires that the back half of the bus reads. -/
def backWires : List Wire := (List.finRange 16).flatMap fun page => [.select page, .answer page]

theorem select_mem_backWires (page : Fin 16) : Wire.select page ∈ backWires :=
  List.mem_flatMap.2 ⟨page, List.mem_finRange page, by simp⟩

theorem answer_mem_backWires (page : Fin 16) : Wire.answer page ∈ backWires :=
  List.mem_flatMap.2 ⟨page, List.mem_finRange page, by simp⟩

theorem sorted_backHalf (bits : Nat) : (backHalf pageSlots).Sorted (kindOf bits) := by
  refine sorted_of_declared backWires [.cpu .dataIn] reads_backHalf rfl (fun _ _ => rfl)
    fun ρ ω f hf => ?_
  cases hf
  have hsplit : ∀ (a b : Command) (l : Formula), a :: b :: l = [a, b] ++ l := fun _ _ _ => rfl
  refine ⟨_, _, hsplit _ _ _, ?_, by simp [Command.note, declare], ?_⟩
  · exact congrArg (fun s : Symbol => [(s.name, Kind.bits 8)])
      (symbol_write (ω := ω) [.cpu .dataIn] (.cpu .dataIn) (by simp))
  · rw [pageSlots, List.map_map, List.forall_mem_map]
    intro page _
    exact ⟨_, rfl, .implies ((evaluable_read (select_mem_backWires page)).eq (.bit true))
      (.eq (evaluable_written (w := .cpu .dataIn) (by simp))
        (evaluable_read (answer_mem_backWires page)))⟩

end Blocks

end CycleCheck.Cycle

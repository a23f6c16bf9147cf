import CycleCheck.Proofs.Cycle.Coverage
import CycleCheck.Proofs.Timeline.Compilation

/-!
The blocks of the processor. Power on allows the outputs of power on, and a cycle allows the
outputs of the transition, or any outputs if there is none.
-/

namespace CycleCheck.Cycle

open Processor

/-! ## Outputs as values -/

/-- The values of the outputs. -/
def ShowsCpu (e : Valuation) (c : Cpu) : Prop :=
  ∀ v ∈ Variable.outputs, e v.name = signal c 0 v

theorem signal_of_output {v : Variable} (hv : v ∈ Variable.outputs) (c : Cpu) (d d' : BitVec 8) :
    signal c d v = signal c d' v := by
  cases v <;> first | rfl | simp [Variable.outputs] at hv

theorem width_standard (v : Variable) : Processor.standard.width v < 2 ^ 64 := by
  cases v <;> decide +kernel

theorem exists_cpu {e : Valuation}
    (h : ∀ v ∈ Variable.outputs, (e v.name).kind = .bits (Processor.standard.width v)) :
    ∃ c, ShowsCpu e c := by
  have hbits : ∀ v ∈ Variable.outputs, ∃ w, e v.name = .bits (Processor.standard.width v) w :=
    fun v hv => Meaning.exists_bits_of_kind (h v hv)
  obtain ⟨a, ha⟩ := hbits .a (by decide)
  obtain ⟨x, hx⟩ := hbits .x (by decide)
  obtain ⟨y, hy⟩ := hbits .y (by decide)
  obtain ⟨sp, hsp⟩ := hbits .sp (by decide)
  obtain ⟨p, hp⟩ := hbits .p (by decide)
  obtain ⟨pc, hpc⟩ := hbits .pc (by decide)
  obtain ⟨state, hstate⟩ := Meaning.exists_bits_of_kind
    ((h .state (by decide)).trans (congrArg Kind.bits width_states))
  obtain ⟨resetSequence, hreset⟩ := hbits .resetSequence (by decide)
  obtain ⟨addressBus, haddress⟩ := hbits .addressBus (by decide)
  obtain ⟨writeEnable, hwrite⟩ := hbits .writeEnable (by decide)
  obtain ⟨dataOut, hdata⟩ := hbits .dataOut (by decide)
  obtain ⟨tempAddress, htemp⟩ := hbits .tempAddress (by decide)
  obtain ⟨tempPointer, hpointer⟩ := hbits .tempPointer (by decide)
  refine ⟨⟨a, x, y, sp, p, pc, state, resetSequence, addressBus, writeEnable, dataOut,
    tempAddress, tempPointer⟩, ?_⟩
  simp only [ShowsCpu, Variable.outputs, List.forall_mem_cons]
  exact ⟨ha, hx, hy, hsp, hp, hpc, hstate, hreset, haddress, hwrite, hdata, htemp, hpointer,
    by simp⟩

/-- The declared outputs have the widths of the outputs. -/
theorem exists_cpu_of_fits {I : Interpretation} {out : Binding} {e : Valuation} {f : Formula}
    (hout : ∀ v ∈ Variable.outputs, e v.name = I (out.symbol v.name).name)
    (hf : ∀ c ∈ Processor.standard.declareOutputs out, c ∈ f) (fits : I.Fits f.signature) :
    ∃ c, ShowsCpu e c := by
  refine exists_cpu fun v hv => ?_
  rw [hout v hv]
  refine fits _ _ (List.mem_filterMap.2 ⟨_, hf _ (List.mem_map_of_mem hv), ?_⟩)
  have hwidth : (Processor.standard.width v).toUInt64.toNat = Processor.standard.width v := by
    simpa using width_standard v
  simp only [Command.declared?, hwidth]

/-! ## A cycle -/

theorem holds_antecedent {I : Interpretation} {r : Rule} {inp : Inputs} {c : Cpu} {d : BitVec 8}
    (h : Gives I inp c d) :
    I.Holds (match r.guard with
      | none => .eq (inp .state) (.word 7 (microStates.idxOf r.state))
      | some g => .all [.eq (inp .state) (.word 7 (microStates.idxOf r.state)), g inp]) ↔
      Applies I r inp c := by
  have hstate : I.Holds (.eq (inp .state) (.word 7 (microStates.idxOf r.state))) ↔
      c.state = codeOf r.state :=
    Interpretation.holds_eq_bits (h .state) (I.denote_word 7 _)
  cases hguard : r.guard with
  | none => exact ⟨fun hs => ⟨hstate.1 hs, by simp [hguard]⟩, fun happ => hstate.2 happ.state⟩
  | some g =>
    simp only [Interpretation.holds_all, List.forall_mem_cons, hstate]
    constructor
    · rintro ⟨hs, hg, -⟩
      exact ⟨hs, by simpa [hguard] using hg⟩
    · exact fun happ => ⟨happ.state, happ.guard g hguard, by simp⟩

/-- The implication of a rule: where the rule applies there is a transition, and its outputs are
those after the cycle. -/
def IsImplication (before after : Variable → Term) (r : Rule) (cmd : Command) : Prop :=
  ∃ t, cmd = .assert t ∧ ∀ (I : Interpretation) (c : Cpu) (d : BitVec 8), Gives I before c d →
    (I.Holds t ↔ (Applies I r before c → ∃ c', c.next? d = some c' ∧
      ∀ v ∈ Variable.outputs, I.denote (after v) = signal c' d v))

theorem exists_ruleAssertion {r : Rule} (hr : Performs r) (before after : Variable → Term) :
    ∃ cmd, Processor.standard.ruleAssertion before after r = .ok cmd ∧
      IsImplication before after r cmd := by
  obtain ⟨t, ht, hperforms⟩ := hr.effect before
  -- the draft of the effect, with the micro-state that the rule goes to
  have hfinal : ∃ t', Processor.standard.ruleAssertion before after r = .ok (.assert (.implies
      (match r.guard with
        | none => .eq (before .state) (.word 7 (microStates.idxOf r.state))
        | some g => .all [.eq (before .state) (.word 7 (microStates.idxOf r.state)), g before])
      (.all (Variable.outputs.map fun v => .eq (after v) (t' v))))) ∧
      ∀ (I : Interpretation) (c : Cpu) (d : BitVec 8), Gives I t c d →
        Gives I t' (c.arrive r.next) d := by
    unfold ruleAssertion
    rw [literal_eq hr.state, ht]
    cases hnext : r.next with
    | none => exact ⟨t, rfl, fun I c d h => h⟩
    | some m =>
      simp only [literal_eq (hr.next m hnext)]
      exact ⟨_, rfl, fun I c d h => h.set_state m⟩
  obtain ⟨t', hassert, hgives⟩ := hfinal
  refine ⟨_, hassert, _, rfl, fun I c d h => ?_⟩
  rw [Term.implies, I.holds_implies, holds_antecedent h, Interpretation.holds_all]
  refine forall_congr' fun happ => ?_
  obtain ⟨c', hc', hnext⟩ := hperforms I c d h happ
  have hdraft := hgives I c' d hc'
  simp only [List.forall_mem_map, Term.eq, I.holds_eq, hdraft _, hnext, Option.some.injEq,
    exists_eq_left']

theorem mem_inputs (v : Variable) : v ∈ Variable.inputs := by
  cases v <;> decide

/-- The rules together: the outputs after the cycle are those of the transition, if there is one. -/
theorem rules_iff {I : Interpretation} {inp : Inputs} {c : Cpu} {d : BitVec 8} (h : Gives I inp c d)
    (after : Variable → Term) :
    (∀ r ∈ Processor.standard.rules, Applies I r inp c → ∃ c', c.next? d = some c' ∧
      ∀ v ∈ Variable.outputs, I.denote (after v) = signal c' d v) ↔
    ∀ c', c.next? d = some c' → ∀ v ∈ Variable.outputs, I.denote (after v) = signal c' d v := by
  constructor
  · intro hrules c' hc'
    obtain ⟨r, hr, happ⟩ := exists_applies h hc'
    obtain ⟨c'', hc'', houtputs⟩ := hrules r hr happ
    cases hc'.symm.trans hc''
    exact houtputs
  · intro hnext r hr happ
    obtain ⟨t, -, hperforms⟩ := (performs_of_mem hr).effect inp
    obtain ⟨c', -, hc'⟩ := hperforms I c d h happ
    exact ⟨_, hc', hnext _ hc'⟩

theorem satisfies_declareOutputs {I : Interpretation} (mc : Processor) (out : Binding) :
    I.Satisfies (mc.declareOutputs out) := by
  intro t ht
  simp [declareOutputs] at ht

theorem eq_of_signals {c c' : Cpu} (d d' : BitVec 8)
    (h : ∀ v ∈ Variable.outputs, signal c d v = signal c' d' v) : c = c' := by
  simp only [Variable.outputs, List.forall_mem_cons, signal, Meaning.bits.injEq, heq_eq_eq,
    true_and] at h
  cases c
  cases c'
  simp_all

theorem exists_ruleAssertions (before after : Variable → Term) :
    ∃ rules, Processor.standard.rules.mapM (Processor.standard.ruleAssertion before after) =
      .ok rules ∧ ∀ (I : Interpretation) (c : Cpu) (d : BitVec 8), Gives I before c d →
        (I.Satisfies rules ↔ ∀ c', c.next? d = some c' →
          ∀ v ∈ Variable.outputs, I.denote (after v) = signal c' d v) := by
  obtain ⟨rules, hrules, hforall⟩ := exists_mapM fun r (hr : r ∈ Processor.standard.rules) =>
    exists_ruleAssertion (performs_of_mem hr) before after
  refine ⟨rules, hrules, fun I c d h => ?_⟩
  rw [← rules_iff h]
  refine Interpretation.satisfies_of_forall₂ (hforall.imp fun r cmd hcmd => ?_)
  obtain ⟨t, ht, hmeans⟩ := hcmd
  exact ⟨t, ht, hmeans I c d h⟩

theorem denote_of_reads {I : Interpretation} {ρ : String → Symbol} (v : Variable) :
    I.denote ((Binding.of (Variable.inputs.map Variable.name) ρ).term v.name) =
      I (ρ v.name).name := by
  rw [Binding.term_of (List.mem_map_of_mem (mem_inputs v))]
  rfl

theorem symbol_of_writes {ω : String → Symbol} {v : Variable} (hv : v ∈ Variable.outputs) :
    (Binding.of (Variable.outputs.map Variable.name) ω).symbol v.name = ω v.name :=
  Binding.symbol_of (List.mem_map_of_mem hv)

/-- A cycle leaves the outputs of the transition, or any outputs if there is none. -/
theorem cycle_means : Processor.standard.cycle.Says
    (fun (s : Cpu × BitVec 8) e => ∀ v : Variable, e v.name = signal s.1 s.2 v)
    (fun s _ e' => ∃ c', ShowsCpu e' c' ∧ ∀ c'', s.1.next? s.2 = some c'' → c' = c'') := by
  refine ⟨fun _ _ => rfl, fun ρ ω => ?_⟩
  obtain ⟨rules, hrules, hmeans⟩ := exists_ruleAssertions
    (fun v => (Binding.of (Variable.inputs.map Variable.name) ρ).term v.name)
    (fun v => (Binding.of (Variable.outputs.map Variable.name) ω).term v.name)
  refine ⟨.note "cpu cycle" :: Processor.standard.declareOutputs
    (.of (Variable.outputs.map Variable.name) ω) ++ rules, ?_, fun s I fits hs => ?_⟩
  · simp only [cycle]
    rw [hrules]
    rfl
  · have hgives : Gives I (fun v => (Binding.of (Variable.inputs.map Variable.name) ρ).term v.name)
        s.1 s.2 := fun v => (denote_of_reads v).trans (hs v)
    have hdeclared : ∃ c', ShowsCpu (fun x => I (ω x).name) c' :=
      exists_cpu_of_fits (fun v hv => by rw [symbol_of_writes hv])
        (fun c hc => List.mem_cons_of_mem _ (List.mem_append_left _ hc)) fits
    have hout : ∀ v ∈ Variable.outputs, I.denote
        ((Binding.of (Variable.outputs.map Variable.name) ω).term v.name) = I (ω v.name).name :=
      fun v hv => by rw [Binding.term, symbol_of_writes hv]; rfl
    obtain ⟨c', hc'⟩ := hdeclared
    have hsat : I.Satisfies (.note "cpu cycle" :: Processor.standard.declareOutputs
        (.of (Variable.outputs.map Variable.name) ω) ++ rules) ↔
        ∀ c'', s.1.next? s.2 = some c'' → c' = c'' := by
      rw [List.cons_append, Interpretation.satisfies_note, Interpretation.satisfies_append,
        hmeans I s.1 s.2 hgives, and_iff_right (satisfies_declareOutputs _ _)]
      refine forall₂_congr fun c'' _ => ⟨fun h => ?_, fun h v hv => ?_⟩
      · refine eq_of_signals 0 s.2 fun v hv => ?_
        rw [← hc' v hv, ← h v hv, hout v hv]
      · rw [hout v hv, ← h, signal_of_output hv c' s.2 0]
        exact hc' v hv
    rw [hsat]
    constructor
    · exact fun h => ⟨c', hc', h⟩
    · rintro ⟨c₁, hc₁, h⟩
      obtain rfl : c' = c₁ := eq_of_signals 0 0 fun v hv => (hc' v hv).symm.trans (hc₁ v hv)
      exact h

/-! ## Power on -/

theorem holds_fix {I : Interpretation} {ω : String → Symbol} {c : Cpu}
    (hc : ShowsCpu (fun x => I (ω x).name) c) (v : Variable) (hv : v ∈ Variable.outputs) {w : Nat}
    {x : BitVec w} (hw : Processor.standard.width v = w) (hx : signal c 0 v = .bits w x) (n : Nat) :
    I.Holds (.eq ((Binding.of (Variable.outputs.map Variable.name) ω).term v.name)
      (.word (Processor.standard.width v) n)) ↔ x = .ofNat w n := by
  rw [Binding.term_of (List.mem_map_of_mem hv), hw]
  exact Interpretation.holds_eq_bits ((hc v hv).trans hx) (I.denote_word w n)

theorem holds_fix_byte {I : Interpretation} {ω : String → Symbol} {c : Cpu}
    (hc : ShowsCpu (fun x => I (ω x).name) c) (v : Variable) (hv : v ∈ Variable.outputs)
    {x : BitVec 8} (hw : Processor.standard.width v = 8) (hx : signal c 0 v = .bits 8 x)
    (n : UInt8) : I.Holds (.eq ((Binding.of (Variable.outputs.map Variable.name) ω).term v.name)
      (.word (Processor.standard.width v) n.toNat)) ↔ x = n.toBitVec := by
  rw [holds_fix hc v hv hw hx, BitVec.ofNat_uInt8ToNat]

theorem codeOf_resetting : codeOf .resetting = 0 := by decide +kernel

/-- Power on leaves the outputs of power on. -/
theorem powerOn_means (registers : Option Registers) : (Processor.standard.powerOn registers).Says
    (fun (_ : Unit) _ => True) (fun _ _ e' => ∃ c, ShowsCpu e' c ∧ c.PoweredOn registers) := by
  refine ⟨fun _ _ => rfl, fun ρ ω => ?_⟩
  have hwrites : (Processor.standard.powerOn registers).writes =
      Variable.outputs.map Variable.name := rfl
  rw [hwrites]
  refine ⟨_, rfl, fun s I fits _ => ?_⟩
  have hdeclared : ∃ c, ShowsCpu (fun x => I (ω x).name) c :=
    exists_cpu_of_fits (fun v hv => by rw [symbol_of_writes hv])
      (fun c hc => List.mem_append_left _ (List.mem_append_left _ (List.mem_cons_of_mem _ hc))) fits
  obtain ⟨c, hc⟩ := hdeclared
  have hunique : (∃ c, ShowsCpu (fun x => I (ω x).name) c ∧ c.PoweredOn registers) ↔
      c.PoweredOn registers := by
    refine ⟨?_, fun h => ⟨c, hc, h⟩⟩
    rintro ⟨c₁, hc₁, h⟩
    rwa [eq_of_signals 0 0 fun v hv => (hc v hv).symm.trans (hc₁ v hv)]
  refine Iff.trans ?_ hunique.symm
  have hstate := holds_fix hc .state (by decide) width_states rfl 0
  simp only [Interpretation.satisfies_append, List.cons_append, Interpretation.satisfies_note,
    satisfies_declareOutputs, true_and, Interpretation.satisfies_assert,
    Interpretation.satisfies_nil, and_true, hstate,
    holds_fix hc .resetSequence (by decide) rfl rfl 0,
    holds_fix hc .addressBus (by decide) rfl rfl 0,
    holds_fix hc .writeEnable (by decide) rfl rfl 0, holds_fix hc .dataOut (by decide) rfl rfl 0]
  cases registers with
  | none =>
    simp only [Interpretation.satisfies_nil, and_true]
    constructor
    · rintro ⟨hstate, hreset, haddress, hwrite, hdata⟩
      exact ⟨hstate.trans codeOf_resetting.symm, hreset, haddress, hwrite, hdata, by simp⟩
    · intro h
      exact ⟨h.state.trans codeOf_resetting, h.resetSequence, h.addressBus, h.writeEnable,
        h.dataOut⟩
  | some r =>
    simp only [Interpretation.satisfies_assert, Interpretation.satisfies_nil, and_true,
      holds_fix_byte hc .a (by decide) rfl rfl, holds_fix_byte hc .x (by decide) rfl rfl,
      holds_fix_byte hc .y (by decide) rfl rfl, holds_fix_byte hc .sp (by decide) rfl rfl,
      holds_fix_byte hc .p (by decide) rfl rfl, holds_fix hc .pc (by decide) rfl rfl,
      holds_fix hc .tempAddress (by decide) rfl rfl, holds_fix hc .tempPointer (by decide) rfl rfl]
    constructor
    · rintro ⟨⟨hstate, hreset, haddress, hwrite, hdata⟩, ha, hx, hy, hsp, hp, hpc, htemp, hptr⟩
      refine ⟨hstate.trans codeOf_resetting.symm, hreset, haddress, hwrite, hdata, ?_⟩
      rintro _ ⟨⟩
      exact ⟨ha, hx, hy, hsp, hp, hpc.trans (BitVec.ofNat_uInt16ToNat _), htemp, hptr⟩
    · intro h
      have hr := h.registers r rfl
      exact ⟨⟨h.state.trans codeOf_resetting, h.resetSequence, h.addressBus, h.writeEnable,
        h.dataOut⟩, hr.a, hr.x, hr.y, hr.sp, hr.p, hr.pc.trans (BitVec.ofNat_uInt16ToNat _).symm,
        hr.tempAddress, hr.tempPointer⟩

end CycleCheck.Cycle

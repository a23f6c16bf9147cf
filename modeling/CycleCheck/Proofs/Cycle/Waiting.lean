import CycleCheck.Proofs.Cycle.Determined
import CycleCheck.Proofs.Propagation.Stalling

/-!
Blocks that wait. After a cycle without a transition the outputs of the processor are open, and so
are the signals of the pages, the answers of the pages with memory and the byte on the data bus.
What a block asserts is then left pending, whatever is known of registers and RAM. Only the pages
without memory still give their answers, which are constants.
-/

namespace CycleCheck.Cycle

open Processor Memory Propagation

/-- The variables of the registers. -/
def registerVariables : List Variable := [.a, .x, .y, .sp, .p, .pc]

/-- The wires that assertions wait for: the words that nothing but a transition gives values to. -/
def Wire.Open : Wire → Prop
  | .cpu v => v ∉ registerVariables
  | .select _ | .address _ | .write _ | .data _ => True
  | .answer page => page.val < 2 ∨ 8 ≤ page.val
  | .ram | .prg => False

/-- The wires that are constant: the answers of the pages without memory. -/
def Wire.Constant : Wire → Prop
  | .answer page => 2 ≤ page.val ∧ page.val < 8
  | _ => False

theorem Wire.Open.not_constant {w : Wire} (h : w.Open) : ¬ w.Constant := by
  cases w with
  | answer page =>
    rintro ⟨hle, hlt⟩
    rcases h with h | h <;> omega
  | _ => exact id

theorem Wire.Open.count_eq {w : Wire} (h : w.Open) (k : Nat) : w.count k true 16 true = k + 1 := by
  cases w with
  | cpu v => cases v <;> rfl
  | answer page => exact if_pos page.isLt
  | ram | prg => exact h.elim
  | _ => rfl

/-- A block among open words: all it reads and writes is declared, and its open words have no
value. -/
structure Waiting (bits : Nat) (sig : Signature) (H : String → Prop) (ρ ω : String → Symbol)
    (rs ws : List Wire) : Prop where
  read : ∀ w ∈ rs, ((ρ w.name).name, w.kind bits) ∈ sig
  written : ∀ w ∈ ws, ((ω w.name).name, w.kind bits) ∈ sig
  reading : ∀ w ∈ rs, w.Open → H (ρ w.name).name
  writing : ∀ w ∈ ws, w.Open → H (ω w.name).name

/-- A block on wires whose assertions wait for its open words. -/
structure Waits (bits : Nat) (b : Block) (rs ws : List Wire) : Prop where
  reads : b.reads = rs.map Wire.name
  writes : b.writes = ws.map Wire.name
  keeps : b.Keeps
  varies : ∀ w ∈ ws, ¬ w.Constant
  stuck : ∀ {sig : Signature} {H : String → Prop} {ρ ω : String → Symbol} {f : Formula},
    Waiting bits sig H ρ ω rs ws →
    b.generate (.of (rs.map Wire.name) ρ) (.of (ws.map Wire.name) ω) = .ok f →
    ∀ t ∈ assertedTerms f, Stuck sig H t

section Waiting

variable {bits : Nat} {sig : Signature} {H : String → Prop} {ρ ω : String → Symbol}
  {rs ws : List Wire} {f : Formula}

/-- An open word that a block reads. -/
theorem Waiting.veiled (h : Waiting bits sig H ρ ω rs ws) {w : Wire} {n : Nat} (hw : w ∈ rs)
    (hopen : w.Open) (hkind : w.kind bits = .bits n) :
    Veiled sig H ((Binding.of (rs.map Wire.name) ρ).term w.name) := by
  rw [Binding.term_of (List.mem_map_of_mem hw)]
  exact .symbol (hkind ▸ h.read w hw) (h.reading w hw hopen)

/-- A copy of an open word waits for it. -/
theorem Waiting.stuck_copy (h : Waiting bits sig H ρ ω rs ws) {w u : Wire} {m n : Nat} (hw : w ∈ rs)
    (hopen : w.Open) (hkind : w.kind bits = .bits m) (hu : u ∈ ws) (hopen' : u.Open)
    (hkind' : u.kind bits = .bits n) : Stuck sig H
      (.eq (.symbol (ω u.name)) ((Binding.of (rs.map Wire.name) ρ).term w.name)) := by
  rw [Binding.term_of (List.mem_map_of_mem hw)]
  exact stuck_eq_symbol (hkind' ▸ h.written u hu) (h.writing u hu hopen') (hkind ▸ h.read w hw)
    (h.reading w hw hopen)

/-! ## The processor -/

/-- Inputs whose open words have no value. -/
structure VeiledInputs (sig : Signature) (H : String → Prop) (inp : Inputs) : Prop where
  hidden : ∀ v ∉ registerVariables, Veiled sig H (inp v)
  shown : ∀ v, ∃ x : Symbol, inp v = .symbol x ∧ (x.name, .bits (bitsOf v)) ∈ sig

theorem veiled_carry {inp : Inputs} (h : VeiledInputs sig H inp) (mode : AddressingMode) :
    Veiled sig H (carry (lowByte (inp .tempAddress)) (inp (indexRegister mode))) := by
  obtain ⟨x, hx, hdeclared⟩ := h.shown (indexRegister mode)
  have hwidth : bitsOf (indexRegister mode) = 8 := by cases mode <;> rfl
  rw [hwidth] at hdeclared
  rw [hx]
  exact .uge (.add (.zeroExtend 1 (.extract 7 0 (h.hidden .tempAddress (by decide))))
    (.extended (by decide) hdeclared)) (.constant (by decide) _)

/-- A guard waits for a word that is not a register. -/
def GuardWaits (r : Rule) : Prop :=
  ∀ g, r.guard = some g → ∀ {sig : Signature} {H : String → Prop} {inp : Inputs},
    VeiledInputs sig H inp → Veiled sig H (g inp)

theorem GuardWaits.of_none {r : Rule} (h : r.guard = none) : GuardWaits r := by
  intro g hg
  cases h.symm.trans hg

theorem guardWaits_of_mem_resetRules {r : Rule} (hr : r ∈ resetRules) : GuardWaits r := by
  have hreset : ∀ phase next effect, GuardWaits (resetRule phase next effect) := by
    intro phase next effect g hg sig H inp h
    cases hg
    exact .eq (h.hidden .resetSequence (by decide)) (.constant (by decide) _)
  simp only [resetRules, List.mem_cons, List.not_mem_nil, or_false] at hr
  rcases hr with rfl | rfl | rfl | rfl | rfl | rfl | rfl | rfl <;> exact hreset _ _ _

theorem guardWaits_decodeRule (i : Instruction) : GuardWaits (decodeRule i) := by
  intro g hg sig H inp h
  cases hg
  exact .eq (h.hidden .dataIn (by decide)) (.constant (by decide) _)

theorem guardWaits_of_mem_indexedRules {i : Instruction} {fetch next fixup : MicroState} {r : Rule}
    (hr : r ∈ indexedRules i fetch next fixup) : GuardWaits r := by
  unfold indexedRules at hr
  rcases List.mem_append.1 hr with hr | hr
  · split_ifs at hr
    · simp only [List.mem_cons, List.not_mem_nil, or_false] at hr
      rcases hr with rfl | rfl
      · intro g hg sig H inp h
        cases hg
        exact .not (veiled_carry h i.mode)
      · intro g hg sig H inp h
        cases hg
        exact veiled_carry h i.mode
    · rw [List.mem_singleton.1 hr]
      exact GuardWaits.of_none rfl
  · rw [List.mem_singleton.1 hr]
    exact GuardWaits.of_none rfl

theorem guardWaits_of_mem_instructionRules {i : Instruction} {r : Rule}
    (hr : r ∈ instructionRules i) : GuardWaits r := by
  cases ruleForm_of_mem hr with
  | indexed hr => exact guardWaits_of_mem_indexedRules hr
  | _ => exact GuardWaits.of_none rfl

theorem guardWaits_of_mem {r : Rule} (hr : r ∈ Processor.standard.rules) : GuardWaits r := by
  change r ∈ allRules Instruction.table at hr
  rw [allRules, List.mem_append, List.mem_append, List.mem_map, List.mem_flatMap] at hr
  rcases hr with (hr | ⟨i, -, rfl⟩) | ⟨i, -, hr⟩
  · exact guardWaits_of_mem_resetRules hr
  · exact guardWaits_decodeRule i
  · exact guardWaits_of_mem_instructionRules hr

/-- The condition of a rule waits for the micro-state. -/
theorem veiled_antecedent {inp : Inputs} (h : VeiledInputs sig H inp) {r : Rule}
    (hr : r ∈ Processor.standard.rules) : Veiled sig H (antecedent inp r) := by
  have hstate : Veiled sig H (.eq (inp .state) (.word 7 (microStates.idxOf r.state))) :=
    .eq (h.hidden .state (by decide)) (.constant (by decide) _)
  unfold antecedent
  cases hguard : r.guard with
  | none => exact hstate
  | some g =>
    refine .all (by simp) ?_
    simp only [List.forall_mem_cons]
    exact ⟨hstate, guardWaits_of_mem hr g hguard h, by simp⟩

theorem Waiting.veiledInputs
    (h : Waiting bits sig H ρ ω (Variable.inputs.map .cpu) ws) : VeiledInputs sig H fun v =>
      Binding.term (.of ((Variable.inputs.map Wire.cpu).map Wire.name) ρ) v.name := by
  have hmem : ∀ v, Wire.cpu v ∈ Variable.inputs.map Wire.cpu := fun v =>
    List.mem_map_of_mem (mem_inputs v)
  refine ⟨fun v hv => h.veiled (hmem v) hv rfl, fun v => ⟨ρ v.name, ?_, h.read _ (hmem v)⟩⟩
  exact Binding.term_of (x := (Wire.cpu v).name) (List.mem_map_of_mem (hmem v))

theorem waits_cycle (bits : Nat) : Waits bits Processor.standard.cycle
    (Variable.inputs.map .cpu) (Variable.outputs.map .cpu) := by
  refine ⟨rfl, rfl, fun _ _ => rfl, ?_, fun {sig H ρ ω f} h hf t ht => ?_⟩
  · rw [List.forall_mem_map]
    exact fun _ _ => id
  · obtain ⟨rules, rfl, hrules⟩ := exists_of_cycle hf (@typed_inputs bits ρ ω [])
    rw [assertedTerms_append, assertedTerms_of_silent not_assert_of_note_declareOutputs,
      List.nil_append] at ht
    obtain ⟨r, hr, e, heq, -⟩ := hrules.each _ (mem_assertedTerms.1 ht)
    cases heq
    exact stuck_implies (veiled_antecedent h.veiledInputs hr) _

/-- A cycle whose inputs are known and that has no transition says nothing. -/
theorem determines_cycle_stop {I : Interpretation} {Γ : Scope}
    (h : Placed bits sig I Γ ρ ω (Variable.inputs.map .cpu) (Variable.outputs.map .cpu))
    (hf : Processor.standard.cycle.generate
      (.of ((Variable.inputs.map Wire.cpu).map Wire.name) ρ)
      (.of ((Variable.outputs.map Wire.cpu).map Wire.name) ω) = .ok f) {c : Cpu} {d : BitVec 8}
    (hvalues : ∀ v : Variable, I (ρ v.name).name = signal c d v) (hstop : c.next? d = none) :
    Determines sig I Γ (assertedTerms f) Γ := by
  obtain ⟨rules, rfl, hrules⟩ := exists_of_cycle hf (@typed_inputs bits ρ ω [])
  have hbefore : Gives I (fun v => Binding.term
      (.of ((Variable.inputs.map Wire.cpu).map Wire.name) ρ) v.name) c d := fun v =>
    (denote_read _ (.cpu v) (List.mem_map_of_mem (mem_inputs v))).trans (hvalues v)
  rw [assertedTerms_append, assertedTerms_of_silent not_assert_of_note_declareOutputs,
    List.nil_append]
  refine .idle fun t ht => ?_
  obtain ⟨r, hr, e, heq, -⟩ := hrules.each _ (mem_assertedTerms.1 ht)
  cases heq
  refine .vacuous h.fits _ ((evaluable_antecedent hr typed_inputs).mono h.sub) fun hante => ?_
  -- a rule that applies would give a transition
  obtain ⟨_, -, heffect⟩ := (performs_of_mem hr).effect (fun v => Binding.term
    (.of ((Variable.inputs.map Wire.cpu).map Wire.name) ρ) v.name)
  obtain ⟨c', -, hnext⟩ := heffect I c d hbefore ((holds_antecedent hbefore).1 hante)
  cases hstop.symm.trans hnext

/-! ## Handlers of pages -/

theorem waits_ramHandler (bits : Nat) (r : Ram) (page : Fin 16) (hpage : page.val < 2) :
    Waits bits (r.handler page.val).block
      [.select page, .address page, .write page, .data page, .ram] [.ram, .answer page] := by
  refine ⟨rfl, rfl, fun _ _ => rfl, ?_, fun {sig H ρ ω f} h hf t ht => ?_⟩
  · simp only [List.forall_mem_cons]
    exact ⟨id, fun hconst => by have := hconst.1; omega, by simp⟩
  · cases hf
    have hselect := h.veiled (w := .select page) (by simp) trivial rfl
    have hwrite := h.veiled (w := .write page) (by simp) trivial rfl
    have hselected := Veiled.eq hselect (Plain.bit true)
    have hwriting := Veiled.eq hwrite (Plain.bit true)
    have hraw : t ∈ ramTerms r _ _ _ _ _ _ _ := ht
    simp only [ramTerms, List.mem_cons, List.not_mem_nil, or_false] at hraw
    rcases hraw with rfl | rfl | rfl
    · exact stuck_implies (.not hselected) _
    · exact stuck_implies (.all (by simp) (by simpa using ⟨hselected, hwriting.not⟩)) _
    · exact stuck_implies (.all (by simp) (by simpa using ⟨hselected, hwriting⟩)) _

theorem waits_romHandler {m : Cartridge.Mapper} (page : Fin 16) (hpage : 8 ≤ page.val)
    {h : PageHandler} (hh : m.handler? page.val = some h) :
    Waits m.addressBits h.block [.address page, .prg] [.answer page] := by
  unfold Cartridge.Mapper.handler? at hh
  split_ifs at hh
  cases hh
  refine ⟨rfl, rfl, fun _ _ => rfl, ?_, fun {sig H ρ ω f} h hf t ht => ?_⟩
  · rw [List.forall_mem_singleton]
    exact fun hconst => by have := hconst.2; omega
  · have hanswer : Binding.symbol (.of ([Wire.answer page].map Wire.name) ω)
        (Wire.answer page).name = ω (Wire.answer page).name := symbol_write _ _ (by simp)
    have hprg : Binding.term (.of ([Wire.address page, .prg].map Wire.name) ρ)
        Cartridge.Mapper.prg = .symbol (ρ Wire.prg.name) :=
      Binding.term_of (x := Wire.prg.name) (by simp)
    have hterms : assertedTerms f = [.eq (.symbol (ω (Wire.answer page).name))
        (.select (.symbol (ρ Wire.prg.name)) (.extract (m.addressBits - 1) 0 (Binding.term
          (.of ([Wire.address page, .prg].map Wire.name) ρ) (Wire.address page).name)))] := by
      rw [← hanswer, ← hprg]
      cases hf
      rfl
    rw [hterms, List.mem_singleton] at ht
    rw [ht]
    exact stuck_eq_select (h.written (.answer page) (by simp))
      (h.writing (.answer page) (by simp) (.inr hpage)) (h.read .prg (by simp))
      (.extract _ _ (h.veiled (w := .address page) (by simp) trivial rfl))

/-- The handler of a page waits for the signals of the page, or its answer is constant. -/
theorem waits_handlerOf {r : Ram} {m : Cartridge.Mapper} {page : Fin 16} {h : PageHandler}
    (hh : Machine.handlerOf r m page = .ok h) :
    (∃ rs ws, Waits m.addressBits h.block rs ws ∧ ∀ w ∈ rs, w.Open → w ∈ frontWires) ∨
      ∃ page, (Wire.answer page).Constant ∧
        Forward m.addressBits h.block [] [.answer page] (fun _ => True) := by
  obtain ⟨hram, rfl⟩ | ⟨hram, hnull, rfl⟩ | ⟨hcartridge, hmapped⟩ := handlerOf_cases hh
  · refine .inl ⟨_, _, waits_ramHandler _ r page hram, fun w hw hopen => ?_⟩
    have hsplit : w ∈ Wire.inputs page ++ [.ram] := hw
    rcases List.mem_append.1 hsplit with hw | hw
    · exact mem_frontWires hw
    · rw [List.mem_singleton.1 hw] at hopen
      exact hopen.elim
  · exact .inr ⟨page, ⟨hram, hnull⟩, forward_nullHandler _ page⟩
  · refine .inl ⟨_, _, waits_romHandler page hcartridge hmapped, fun w hw hopen => ?_⟩
    simp only [List.mem_cons, List.not_mem_nil, or_false] at hw
    rcases hw with rfl | rfl
    · exact (mem_frontWires_iff _).2 ⟨page, by simp [Wire.inputs]⟩
    · exact hopen.elim

/-! ## The halves of the bus -/

/-- The front half waits for the outputs of the processor. -/
theorem waits_frontHalf (bits : Nat) : Waits bits (frontHalf pageSlots)
    [.cpu .addressBus, .cpu .writeEnable, .cpu .dataOut] frontWires := by
  refine ⟨rfl, writes_frontHalf, fun _ _ => rfl, fun w hw => ?_, fun {sig H ρ ω f} h hf t ht => ?_⟩
  · obtain ⟨page, hw⟩ := (mem_frontWires_iff w).1 hw
    simp only [Wire.inputs, List.mem_cons, List.not_mem_nil, or_false] at hw
    rcases hw with rfl | rfl | rfl | rfl <;> exact id
  · rw [assertedTerms_frontHalf hf] at ht
    obtain ⟨w, hw, rfl⟩ := List.mem_map.1 ht
    have hopen : ∀ v ∈ [Variable.addressBus, .writeEnable, .dataOut], v ∉ registerVariables := by
      decide
    obtain ⟨page, hpage⟩ := (mem_frontWires_iff w).1 hw
    simp only [Wire.inputs, List.mem_cons, List.not_mem_nil, or_false] at hpage
    rcases hpage with rfl | rfl | rfl | rfl
    · have haddress := h.veiled (w := .cpu .addressBus) (by simp) (hopen _ (by simp)) rfl
      exact stuck_eq_ite (h.written _ hw) (h.writing _ hw trivial)
        (.eq (.extract 15 12 haddress) (.constant (by decide) _))
    · exact h.stuck_copy (w := .cpu .addressBus) (by simp) (hopen _ (by simp)) rfl hw trivial rfl
    · exact h.stuck_copy (w := .cpu .writeEnable) (by simp) (hopen _ (by simp)) rfl hw trivial rfl
    · exact h.stuck_copy (w := .cpu .dataOut) (by simp) (hopen _ (by simp)) rfl hw trivial rfl

/-- The back half waits for the pages to be selected. -/
theorem waits_backHalf (bits : Nat) :
    Waits bits (backHalf pageSlots) backWires [.cpu .dataIn] := by
  refine ⟨reads_backHalf, rfl, fun _ _ => rfl, ?_, fun {sig H ρ ω f} h hf t ht => ?_⟩
  · rw [List.forall_mem_singleton]
    exact id
  · rw [assertedTerms_backHalf hf] at ht
    obtain ⟨page, -, rfl⟩ := List.mem_map.1 ht
    exact stuck_implies (.eq (h.veiled (select_mem_backWires page) trivial rfl) (.bit true)) _

end Waiting

end CycleCheck.Cycle

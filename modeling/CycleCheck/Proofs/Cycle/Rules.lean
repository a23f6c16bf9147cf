import CycleCheck.Proofs.Cycle.Draft

/-!
Rules perform transitions. Where a rule applies, the outputs it gives are those of the transition
of the micro-state.
-/

namespace CycleCheck.Cycle

open Processor

/-- Outputs with the micro-state a rule goes to, which may be the one it is in. -/
def Cpu.arrive (c : Cpu) : Option MicroState → Cpu
  | none => c
  | some m => c.goto m

/-- A rule applies in the micro-state and under the guard it has. -/
structure Applies (I : Interpretation) (r : Rule) (inp : Inputs) (c : Cpu) : Prop where
  state : c.state = codeOf r.state
  guard : ∀ g, r.guard = some g → I.Holds (g inp)

/-- A rule gives the outputs of the transition wherever it applies. -/
structure Performs (r : Rule) : Prop where
  state : r.state ∈ microStates
  next : ∀ m, r.next = some m → m ∈ microStates
  effect : ∀ inp, ∃ t, r.effect inp = .ok t ∧ ∀ (I : Interpretation) (c : Cpu) (d : BitVec 8),
    Gives I inp c d → Applies I r inp c →
      ∃ c', Gives I t c' d ∧ c.next? d = some (c'.arrive r.next)

/-! ## Reset -/

theorem performs_resetRule {phase : Nat} (hphase : phase < 8) {next : Option MicroState}
    {effect : Inputs → Draft → Draft} (hnext : ∀ m, next = some m → m ∈ microStates)
    (heffect : ∀ (I : Interpretation) (inp t : Draft) (c b : Cpu) (d : BitVec 8),
      Gives I inp c d → Gives I t b d → b = { c with resetSequence := c.resetSequence + 1 } →
      c.resetSequence = .ofNat 3 phase →
      ∃ c', Gives I (effect inp t) c' d ∧ c.reset d = c'.arrive next) :
    Performs (resetRule phase next effect) := by
  refine ⟨resetting_mem, hnext, fun inp => ⟨_, rfl, fun I c d h happ => ?_⟩⟩
  have hguard := happ.guard _ rfl
  rw [Interpretation.holds_eq_bits (h .resetSequence) (I.denote_word 3 phase)] at hguard
  have hcount : BitVec.ofNat 3 ((phase + 1) % resetPhases) = c.resetSequence + 1 := by
    rw [hguard]
    interval_cases phase <;> rfl
  have hset : Gives I (Draft.set inp .resetSequence (.word 3 ((phase + 1) % resetPhases)))
      { c with resetSequence := c.resetSequence + 1 } d :=
    h.set_resetSequence (by rw [I.denote_word, hcount])
  obtain ⟨c', hgives, hreset⟩ := heffect I inp _ c _ d h hset rfl hguard
  exact ⟨c', hgives, by rw [Cpu.next?_resetting happ.state, hreset]; rfl⟩

theorem gives_stackRead {I : Interpretation} {inp t : Draft} {c b : Cpu} {d : BitVec 8}
    (h : Gives I inp c d) (ht : Gives I t b d) :
    Gives I (stackRead inp t) { b.read (1#8 ++ c.sp) with sp := c.sp - 1 } d :=
  (ht.read (Interpretation.denote_concat (I.denote_word 8 1) (h .sp))).set_sp
    (Interpretation.denote_sub (h .sp) (I.denote_word 8 1))

theorem performs_of_mem_resetRules {r : Rule} (hr : r ∈ resetRules) : Performs r := by
  have hnone : ∀ m : MicroState, none = some m → m ∈ microStates := by simp
  simp only [resetRules, List.mem_cons, List.not_mem_nil, or_false] at hr
  rcases hr with rfl | rfl | rfl | rfl | rfl | rfl | rfl | rfl
  · refine performs_resetRule (by decide) hnone fun I inp t c b d h ht hb hphase => ?_
    exact ⟨_, ht.fetch h, by simp [Cpu.reset, hphase, hb, Cpu.arrive]⟩
  · refine performs_resetRule (by decide) hnone fun I inp t c b d h ht hb hphase => ?_
    exact ⟨_, ht.fetch h, by simp [Cpu.reset, hphase, hb, Cpu.arrive]⟩
  · refine performs_resetRule (by decide) hnone fun I inp t c b d h ht hb hphase => ?_
    exact ⟨_, gives_stackRead h ht, by simp [Cpu.reset, hphase, hb, Cpu.arrive]⟩
  · refine performs_resetRule (by decide) hnone fun I inp t c b d h ht hb hphase => ?_
    exact ⟨_, gives_stackRead h ht, by simp [Cpu.reset, hphase, hb, Cpu.arrive]⟩
  · refine performs_resetRule (by decide) hnone fun I inp t c b d h ht hb hphase => ?_
    exact ⟨_, gives_stackRead h ht, by simp [Cpu.reset, hphase, hb, Cpu.arrive]⟩
  · refine performs_resetRule (by decide) hnone fun I inp t c b d h ht hb hphase => ?_
    have hp := denote_withBit .interruptDisable (h .p) (I.denote_bit true)
    exact ⟨_, (ht.read (I.denote_word 16 resetVectorLow)).set_p hp,
      by simp [Cpu.reset, hphase, hb, Cpu.arrive, resetVectorLow]⟩
  · refine performs_resetRule (by decide) hnone fun I inp t c b d h ht hb hphase => ?_
    exact ⟨_, (ht.read (I.denote_word 16 resetVectorHigh)).set_tempAddress
      (denote_zeroPage (h .dataIn)), by simp [Cpu.reset, hphase, hb, Cpu.arrive, resetVectorHigh]⟩
  · refine performs_resetRule (by decide) (by simp [instructionFetch_mem])
      fun I inp t c b d h ht hb hphase => ?_
    have hvector := Interpretation.denote_concat (h .dataIn) (denote_lowByte (h .tempAddress))
    exact ⟨_, (ht.read hvector).set_pc (Interpretation.denote_add hvector (I.denote_word 16 1)),
      by simp [Cpu.reset, hphase, hb, Cpu.arrive, Cpu.low]⟩

/-! ## Instructions -/

/-- The variable of a register. -/
def Register.variable : Register → Variable
  | .a => .a
  | .x => .x
  | .y => .y

theorem register_eq {i : Instruction} (hi : i ∈ Instruction.table)
    (h : i.effect = .read ∨ i.effect = .write) :
    register i = .ok (registerOf i.mnemonic).variable := by
  have hall : ∀ i ∈ Instruction.table, (i.effect = .read ∨ i.effect = .write) →
      i.mnemonic ∈ ["LDA", "LDX", "LDY", "STA", "STX", "STY"] := by decide +kernel
  have hmem := hall i hi h
  simp only [List.mem_cons, List.not_mem_nil, or_false] at hmem
  unfold register registerOf
  rcases hmem with h | h | h | h | h | h <;> simp [h, Register.variable]

theorem flagOperation?_eq (mnemonic : String) : flagOperation? mnemonic = flagOf mnemonic := by
  have hne : ∀ s : String, ¬ mnemonic = s → (mnemonic == s) = false := fun s =>
    beq_eq_false_iff_ne.2
  unfold flagOperation? flagOf
  split_ifs <;> simp [List.lookup_cons, *]

namespace Gives

variable {I : Interpretation} {inp t : Draft} {c b : Cpu} {d : BitVec 8} {i : Instruction}

theorem register (h : Gives I inp c d) (r : Register) :
    I.denote (inp r.variable) = .bits 8 (c.get r) := by
  cases r <;> exact h _

theorem index (h : Gives I inp c d) (mode : AddressingMode) :
    I.denote (inp (indexRegister mode)) = .bits 8 (c.index mode) := by
  cases mode <;> exact h _

theorem low (h : Gives I inp c d) : I.denote (lowByte (inp .tempAddress)) = .bits 8 c.low :=
  denote_lowByte (h .tempAddress)

theorem load (h : Gives I inp c d) (r : Register) :
    Gives I ((Draft.set inp r.variable (inp .dataIn)).set .p (loadFlags (inp .p) (inp .dataIn)))
      (c.load r d) d := by
  have hp := denote_loadFlags (h .p) (h .dataIn)
  have hset : Gives I (Draft.set inp r.variable (inp .dataIn)) { c.load r d with p := c.p } d := by
    cases r <;>
      exact h.set _ (h .dataIn) fun w hw => by cases w <;> first | rfl | exact absurd rfl hw
  have hboth := hset.set_p hp
  cases r <;> exact hboth

end Gives

/-- The access of the operand succeeds and gives what the access of the transition gives. -/
theorem exists_access {i : Instruction} (hi : i ∈ Instruction.table) (inp t : Draft) (u : Term) :
    ∃ t', access i inp t u = .ok t' ∧
      ∀ {I : Interpretation} {c b : Cpu} {d : BitVec 8} {address : BitVec 16}, Gives I inp c d →
        Gives I t b d → (∀ r, b.get r = c.get r) → I.denote u = .bits 16 address →
        Gives I t' (b.access i address) d := by
  unfold access Cpu.access
  cases heffect : i.effect with
  | read => exact ⟨_, rfl, fun _ ht _ hu => ht.read hu⟩
  | write =>
    rw [register_eq hi (.inr heffect)]
    exact ⟨_, rfl, fun h ht hget hu => ht.write hu (by rw [h.register, hget])⟩
  | internal => exact ⟨_, rfl, fun _ ht _ _ => ht⟩
  | other => exact ⟨_, rfl, fun _ ht _ _ => ht⟩

theorem exists_finish {i : Instruction} (hi : i ∈ Instruction.table) (inp : Draft) :
    ∃ t, finish i inp = .ok t ∧ ∀ {I : Interpretation} {c : Cpu} {d : BitVec 8}, Gives I inp c d →
      ∃ c', Gives I t c' d ∧ c.finish i d = c'.goto .instructionFetch := by
  unfold finish Cpu.finish
  split_ifs with heffect
  · rw [register_eq hi (.inl heffect)]
    refine ⟨_, rfl, fun {I c d} h => ⟨_, ((h.load _).fetch h).incrementPC h, ?_⟩⟩
    cases registerOf i.mnemonic <;> rfl
  · exact ⟨_, rfl, fun h => ⟨_, (h.fetch h).incrementPC h, rfl⟩⟩

/-! ## Cycles of instructions -/

theorem performs_plainRule {i : Instruction} {n : Nat} {next : MicroState}
    {effect : Inputs → Except ProcessorError Draft} (hi : i ∈ Instruction.table)
    (hn : MicroState.cycle i.label n ∈ microStates) (hnext : next ∈ microStates)
    (heffect : ∀ inp, ∃ t, effect inp = .ok t ∧ ∀ {I : Interpretation} {c : Cpu} {d : BitVec 8},
      Gives I inp c d → ∃ c', Gives I t c' d ∧ c.cycle? i n d = some (c'.goto next)) :
    Performs (plainRule (.cycle i.label n) next effect) := by
  refine ⟨hn, by simp [plainRule, hnext], fun inp => ?_⟩
  obtain ⟨t, ht, hgives⟩ := heffect inp
  refine ⟨t, ht, fun I c d h happ => ?_⟩
  obtain ⟨c', hc', hcycle⟩ := hgives h
  exact ⟨c', hc', by rw [Cpu.next?_cycle hi hn happ.state, hcycle]; rfl⟩

/-- The last cycle of an instruction. -/
theorem performs_last {i : Instruction} {n : Nat} (hi : i ∈ Instruction.table)
    (hn : MicroState.cycle i.label n ∈ microStates)
    (hcycle : ∀ (c : Cpu) (d : BitVec 8), c.cycle? i n d = some (c.finish i d)) :
    Performs (plainRule (.cycle i.label n) .instructionFetch (finish i)) := by
  refine performs_plainRule hi hn instructionFetch_mem fun inp => ?_
  obtain ⟨t, ht, hgives⟩ := exists_finish hi inp
  refine ⟨t, ht, fun h => ?_⟩
  obtain ⟨c', hc', hfinish⟩ := hgives h
  exact ⟨c', hc', by rw [hcycle, hfinish]⟩

/-- A cycle that accesses the operand. -/
theorem performs_access {i : Instruction} {n : Nat} {next : MicroState} {u : Inputs → Term}
    (address : Cpu → BitVec 8 → BitVec 16) (hi : i ∈ Instruction.table)
    (hn : MicroState.cycle i.label n ∈ microStates) (hnext : next ∈ microStates)
    (hu : ∀ {I : Interpretation} {inp : Inputs} {c : Cpu} {d : BitVec 8}, Gives I inp c d →
      I.denote (u inp) = .bits 16 (address c d))
    (hcycle : ∀ (c : Cpu) (d : BitVec 8),
      c.cycle? i n d = some ((c.access i (address c d)).goto next)) :
    Performs (plainRule (.cycle i.label n) next fun inp => access i inp inp (u inp)) := by
  refine performs_plainRule hi hn hnext fun inp => ?_
  obtain ⟨t, ht, hgives⟩ := exists_access hi inp inp (u inp)
  exact ⟨t, ht, fun h => ⟨_, hgives h h (fun _ => rfl) (hu h), hcycle _ _⟩⟩

/-- A cycle that prepares an address. -/
theorem performs_draft {i : Instruction} {n : Nat} {next : MicroState} {draft : Inputs → Draft}
    (outputs : Cpu → BitVec 8 → Cpu) (hi : i ∈ Instruction.table)
    (hn : MicroState.cycle i.label n ∈ microStates) (hnext : next ∈ microStates)
    (hgives : ∀ {I : Interpretation} {inp : Inputs} {c : Cpu} {d : BitVec 8}, Gives I inp c d →
      Gives I (draft inp) (outputs c d) d)
    (hcycle : ∀ (c : Cpu) (d : BitVec 8), c.cycle? i n d = some ((outputs c d).goto next)) :
    Performs (plainRule (.cycle i.label n) next fun inp => .ok (draft inp)) :=
  performs_plainRule hi hn hnext fun _ => ⟨_, rfl, fun h => ⟨_, hgives h, hcycle _ _⟩⟩

theorem performs_lowAddressRule {i : Instruction} (hi : i ∈ Instruction.table)
    (hn : MicroState.cycle i.label 1 ∈ microStates)
    (hnext : MicroState.cycle i.label 2 ∈ microStates)
    (hcycle : ∀ (c : Cpu) (d : BitVec 8), c.cycle? i 1 d =
      some ({ c.fetch with tempAddress := 0#8 ++ d }.goto (.cycle i.label 2))) :
    Performs (lowAddressRule i) :=
  performs_draft _ hi hn hnext (fun h => ((h.set_tempAddress
    (denote_zeroPage (h .dataIn))).fetch h).incrementPC h) hcycle

theorem performs_pointerRule {i : Instruction} (hi : i ∈ Instruction.table)
    (hn : MicroState.cycle i.label 1 ∈ microStates)
    (hnext : MicroState.cycle i.label 2 ∈ microStates)
    (hcycle : ∀ (c : Cpu) (d : BitVec 8), c.cycle? i 1 d =
      some ({ c.read (0#8 ++ d) with tempPointer := d }.goto (.cycle i.label 2))) :
    Performs (pointerRule i) :=
  performs_draft _ hi hn hnext (fun h => (h.read (denote_zeroPage (h .dataIn))).set_tempPointer
    (h .dataIn)) hcycle

theorem performs_pointerHighRule {i : Instruction} {n : Nat} (hi : i ∈ Instruction.table)
    (hn : MicroState.cycle i.label n ∈ microStates)
    (hnext : MicroState.cycle i.label (n + 1) ∈ microStates)
    (hcycle : ∀ (c : Cpu) (d : BitVec 8), c.cycle? i n d =
      some ({ c.read (0#8 ++ (c.tempPointer + 1)) with tempAddress := 0#8 ++ d }.goto
        (.cycle i.label (n + 1)))) :
    Performs (pointerHighRule i n) :=
  performs_draft _ hi hn hnext (fun {I _ _ _} h => (h.set_tempAddress
    (denote_zeroPage (h .dataIn))).read (denote_zeroPage
      (Interpretation.denote_add (h .tempPointer) (I.denote_word 8 1)))) hcycle

theorem performs_absoluteAccessRule {i : Instruction} {n : Nat} (hi : i ∈ Instruction.table)
    (hn : MicroState.cycle i.label n ∈ microStates)
    (hnext : MicroState.cycle i.label (n + 1) ∈ microStates)
    (hcycle : ∀ (c : Cpu) (d : BitVec 8),
      c.cycle? i n d = some ((c.access i (d ++ c.low)).goto (.cycle i.label (n + 1)))) :
    Performs (absoluteAccessRule i n) :=
  performs_access _ hi hn hnext (fun h => Interpretation.denote_concat (h .dataIn) h.low) hcycle

/-- The cycles that add an index: without a carry, with a carry, and the correction. -/
theorem performs_indexedRules {i : Instruction} {n k : Nat} (hi : i ∈ Instruction.table)
    (hn : MicroState.cycle i.label n ∈ microStates)
    (hnext : MicroState.cycle i.label k ∈ microStates)
    (hfixup : MicroState.fixup i.label n ∈ microStates)
    (hcycle : ∀ (c : Cpu) (d : BitVec 8),
      c.cycle? i n d = some (c.addIndex i d (.cycle i.label k) (.fixup i.label n)))
    (hcorrect : ∀ c : Cpu, c.fixup? i n = some
      ((c.access i (c.tempAddress + (c.index i.mode).setWidth 16)).goto (.cycle i.label k)))
    {r : Rule} (hr : r ∈ indexedRules i (.cycle i.label n) (.cycle i.label k) (.fixup i.label n)) :
    Performs r := by
  have huncorrected : ∀ {I : Interpretation} {inp : Inputs} {c : Cpu} {d : BitVec 8},
      Gives I inp c d → I.denote (.concat (inp .dataIn) (.add (lowByte (inp .tempAddress))
        (inp (indexRegister i.mode)))) = .bits 16 (d ++ (c.low + c.index i.mode)) := fun h =>
    Interpretation.denote_concat (h .dataIn) (Interpretation.denote_add h.low (h.index i.mode))
  have hbased : ∀ {I : Interpretation} {inp : Inputs} {c : Cpu} {d : BitVec 8}, Gives I inp c d →
      Gives I (Draft.set inp .tempAddress (.concat (inp .dataIn) (lowByte (inp .tempAddress))))
        { c with tempAddress := d ++ c.low } d := fun h =>
    h.set_tempAddress (Interpretation.denote_concat (h .dataIn) h.low)
  unfold indexedRules at hr
  simp only [List.mem_append, List.mem_singleton] at hr
  rcases hr with hr | rfl
  · split_ifs at hr with hsensitive
    · simp only [List.mem_cons, List.not_mem_nil, or_false] at hr
      rcases hr with rfl | rfl
      · refine ⟨hn, by simp [hnext], fun inp => ?_⟩
        obtain ⟨t, ht, hgives⟩ := exists_access hi inp _ _
        refine ⟨t, ht, fun I c d h happ => ⟨_, hgives h (hbased h) (fun r => by cases r <;> rfl)
          (huncorrected h), ?_⟩⟩
        have hcarry : ¬ 0x100 ≤ c.low.toNat + (c.index i.mode).toNat := by
          rw [← holds_carry h.low (h.index i.mode), ← I.holds_not]
          exact happ.guard _ rfl
        rw [Cpu.next?_cycle hi hn happ.state, hcycle, Cpu.addIndex,
          if_pos ⟨hsensitive, by omega⟩]
        rfl
      · refine ⟨hn, by simp [hfixup], fun inp => ⟨_, rfl, fun I c d h happ =>
          ⟨_, (hbased h).read (huncorrected h), ?_⟩⟩⟩
        have hcarry : 0x100 ≤ c.low.toNat + (c.index i.mode).toNat := by
          rw [← holds_carry h.low (h.index i.mode)]
          exact happ.guard _ rfl
        rw [Cpu.next?_cycle hi hn happ.state, hcycle, Cpu.addIndex, if_neg (by omega)]
        rfl
    · rw [List.mem_singleton] at hr
      subst hr
      refine performs_plainRule hi hn hfixup fun inp => ⟨_, rfl, fun {I c d} h =>
        ⟨_, (hbased h).read (huncorrected h), ?_⟩⟩
      rw [hcycle, Cpu.addIndex, if_neg (by simp [hsensitive])]
  · refine ⟨hfixup, by simp [plainRule, hnext], fun inp => ?_⟩
    obtain ⟨t, ht, hgives⟩ := exists_access hi inp inp
      (.add (inp .tempAddress) (.zeroExtend 8 (inp (indexRegister i.mode))))
    refine ⟨t, ht, fun I c d h happ => ⟨_, hgives h h (fun _ => rfl)
      (Interpretation.denote_add (h .tempAddress)
        (Interpretation.denote_zeroExtend (by decide) (h.index i.mode))), ?_⟩⟩
    rw [Cpu.next?_fixup hi hfixup happ.state, hcorrect]
    rfl

theorem performs_of_mem_instructionRules {i : Instruction} (hi : i ∈ Instruction.table) {r : Rule}
    (hr : r ∈ instructionRules i) : Performs r := by
  have hmem : ∀ m ∈ (schedule? i).getD [], m ∈ microStates := fun m => mem_of_schedule hi
  unfold instructionRules at hr
  unfold schedule? at hmem
  cases hmode : i.mode with
  | implied =>
    simp only [hmode, List.mem_singleton] at hr
    subst hr
    refine performs_draft (fun c _ => (c.setFlag i).fetch) hi (first_cycle_mem hi)
      instructionFetch_mem (fun {I inp c d} h => ?_) (fun c d => Cpu.cycle?_implied hmode d)
    rw [flagOperation?_eq]
    unfold Cpu.setFlag
    cases flagOf i.mnemonic with
    | none => exact (h.fetch h).incrementPC h
    | some f =>
      have hset := h.set_p (denote_withBit f.1 (h .p) (I.denote_bit f.2))
      have hgives := (hset.fetch h).incrementPC h
      exact hgives
  | immediate =>
    simp only [hmode, List.mem_singleton] at hr
    subst hr
    exact performs_last hi (first_cycle_mem hi) fun c d => Cpu.cycle?_immediate hmode d
  | zeroPage =>
    simp only [hmode, List.mem_cons, List.not_mem_nil, or_false] at hr
    simp only [hmode, Option.getD_some] at hmem
    have hcycle := fun (c : Cpu) d => c.cycle?_zeroPage hmode d
    rcases hr with rfl | rfl
    · exact performs_access (fun _ d => 0#8 ++ d) hi (hmem _ (by simp)) (hmem _ (by simp))
        (fun h => denote_zeroPage (h .dataIn)) fun c d => (hcycle c d).1
    · exact performs_last hi (hmem _ (by simp)) fun c d => (hcycle c d).2
  | absolute =>
    simp only [hmode, List.mem_cons, List.not_mem_nil, or_false] at hr
    simp only [hmode, Option.getD_some] at hmem
    have hcycle := fun (c : Cpu) d => c.cycle?_absolute hmode d
    rcases hr with rfl | rfl | rfl
    · exact performs_lowAddressRule hi (hmem _ (by simp)) (hmem _ (by simp))
        fun c d => (hcycle c d).1
    · exact performs_absoluteAccessRule hi (hmem _ (by simp)) (hmem _ (by simp))
        fun c d => (hcycle c d).2.1
    · exact performs_last hi (hmem _ (by simp)) fun c d => (hcycle c d).2.2
  | zeroPageIndexedX | zeroPageIndexedY =>
    simp only [hmode, List.mem_cons, List.not_mem_nil, or_false] at hr
    simp only [hmode, Option.getD_some] at hmem
    have hindexed : i.mode = .zeroPageIndexedX ∨ i.mode = .zeroPageIndexedY := by simp [hmode]
    have hcycle := fun (c : Cpu) d => c.cycle?_zeroPageIndexed hindexed d
    rcases hr with rfl | rfl | rfl
    · exact performs_draft (fun c d => { c.read (0#8 ++ d) with tempAddress := 0#8 ++ d }) hi
        (hmem _ (by simp)) (hmem _ (by simp))
        (fun h => (h.read (denote_zeroPage (h .dataIn))).set_tempAddress
          (denote_zeroPage (h .dataIn))) fun c d => (hcycle c d).1
    · exact performs_access (fun c _ => 0#8 ++ (c.low + c.index i.mode)) hi (hmem _ (by simp))
        (hmem _ (by simp)) (fun h => denote_zeroPage (Interpretation.denote_add h.low
          (hmode ▸ h.index i.mode))) fun c d => (hcycle c d).2.1
    · exact performs_last hi (hmem _ (by simp)) fun c d => (hcycle c d).2.2
  | absoluteIndexedX | absoluteIndexedY =>
    simp only [hmode, List.mem_cons, List.mem_append, List.not_mem_nil, or_false] at hr
    simp only [hmode, Option.getD_some] at hmem
    have hindexed : i.mode = .absoluteIndexedX ∨ i.mode = .absoluteIndexedY := by simp [hmode]
    have hcycle := fun (c : Cpu) d => c.cycle?_absoluteIndexed hindexed d
    rcases hr with (rfl | hr) | rfl
    · exact performs_lowAddressRule hi (hmem _ (by simp)) (hmem _ (by simp))
        fun c d => (hcycle c d).1
    · exact performs_indexedRules hi (hmem _ (by simp)) (hmem _ (by simp)) (hmem _ (by simp))
        (fun c d => (hcycle c d).2.1) (fun c => (hcycle c 0).2.2.1) hr
    · exact performs_last hi (hmem _ (by simp)) fun c d => (hcycle c d).2.2.2
  | indexedIndirect =>
    simp only [hmode, List.mem_cons, List.not_mem_nil, or_false] at hr
    simp only [hmode, Option.getD_some] at hmem
    have hcycle := fun (c : Cpu) d => c.cycle?_indexedIndirect hmode d
    rcases hr with rfl | rfl | rfl | rfl | rfl
    · exact performs_pointerRule hi (hmem _ (by simp)) (hmem _ (by simp)) fun c d => (hcycle c d).1
    · refine performs_draft (fun c _ => { c.read (0#8 ++ (c.tempPointer + c.x)) with
          tempPointer := c.tempPointer + c.x }) hi (hmem _ (by simp)) (hmem _ (by simp))
        (fun h => ?_) fun c d => (hcycle c d).2.1
      have hpointer := Interpretation.denote_add (h .tempPointer) (h .x)
      exact (h.set_tempPointer hpointer).read (denote_zeroPage hpointer)
    · exact performs_pointerHighRule hi (hmem _ (by simp)) (hmem _ (by simp))
        fun c d => (hcycle c d).2.2.1
    · exact performs_absoluteAccessRule hi (hmem _ (by simp)) (hmem _ (by simp))
        fun c d => (hcycle c d).2.2.2.1
    · exact performs_last hi (hmem _ (by simp)) fun c d => (hcycle c d).2.2.2.2
  | indirectIndexed =>
    simp only [hmode, List.mem_cons, List.mem_append, List.not_mem_nil, or_false] at hr
    simp only [hmode, Option.getD_some] at hmem
    have hcycle := fun (c : Cpu) d => c.cycle?_indirectIndexed hmode d
    rcases hr with (rfl | rfl | hr) | rfl
    · exact performs_pointerRule hi (hmem _ (by simp)) (hmem _ (by simp)) fun c d => (hcycle c d).1
    · exact performs_pointerHighRule hi (hmem _ (by simp)) (hmem _ (by simp))
        fun c d => (hcycle c d).2.1
    · exact performs_indexedRules hi (hmem _ (by simp)) (hmem _ (by simp)) (hmem _ (by simp))
        (fun c d => (hcycle c d).2.2.1) (fun c => (hcycle c 0).2.2.2.1) hr
    · exact performs_last hi (hmem _ (by simp)) fun c d => (hcycle c d).2.2.2.2
  | other => simp [hmode] at hr

/-! ## Decoding -/

theorem holds_opcode {I : Interpretation} {inp : Inputs} {c : Cpu} {d : BitVec 8}
    (h : Gives I inp c d) (i : Instruction) :
    I.Holds (.eq (inp .dataIn) (.word 8 i.opcode.toNat)) ↔ i.opcode = ⟨d⟩ := by
  rw [Interpretation.holds_eq_bits (h .dataIn) (I.denote_word 8 i.opcode.toNat),
    BitVec.ofNat_uInt8ToNat]
  constructor
  · rintro rfl
    rfl
  · intro heq
    rw [heq]

theorem performs_decodeRule {i : Instruction} (hi : i ∈ Instruction.table) :
    Performs (decodeRule i) := by
  refine ⟨instructionFetch_mem, by simp [decodeRule, first_cycle_mem hi], fun inp => ⟨_, rfl, ?_⟩⟩
  intro I c d h happ
  have hopcode : i.opcode = ⟨d⟩ := (holds_opcode h i).1 (happ.guard _ rfl)
  have hlookup : Instruction.lookup? ⟨d⟩ = some i := by
    rw [← hopcode]
    exact find?_table nodup_opcodes hi
  rw [Cpu.next?_instructionFetch happ.state, hlookup, Option.map_some, Cpu.decode]
  split_ifs with hmode
  · exact ⟨_, h.fetch h, rfl⟩
  · exact ⟨_, (h.fetch h).incrementPC h, rfl⟩

theorem performs_of_mem {r : Rule} (hr : r ∈ Processor.standard.rules) : Performs r := by
  change r ∈ allRules Instruction.table at hr
  simp only [allRules, List.mem_append, List.mem_map, List.mem_flatMap] at hr
  rcases hr with (hr | ⟨i, hi, rfl⟩) | ⟨i, hi, hr⟩
  · exact performs_of_mem_resetRules hr
  · exact performs_decodeRule hi
  · exact performs_of_mem_instructionRules hi hr

end CycleCheck.Cycle

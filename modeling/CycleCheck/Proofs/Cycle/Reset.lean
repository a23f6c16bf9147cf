import CycleCheck.Proofs.Cycle.Completeness
import CycleCheck.Proofs.Cycle.Execution

/-!
The reset. A byte is on the data bus one cycle after its address, so the vector is put together two
cycles after its first byte is addressed. Eight cycles after power on the first opcode is on the
bus, whatever the registers, RAM and the temporaries were.
-/

namespace CycleCheck.Cycle

open Processor Memory

/-! ## Phases -/

namespace Cpu

variable {c : Cpu} (d : BitVec 8)

/-- The outputs before the effect of a phase. -/
def nextPhase (c : Cpu) : Cpu := { c with resetSequence := c.resetSequence + 1 }

theorem reset_idle (h : c.resetSequence.toNat = 0 ∨ c.resetSequence.toNat = 1) :
    c.reset d = c.nextPhase.read c.pc := by
  rw [reset]
  rcases h with h | h <;> rw [h] <;> rfl

theorem reset_stack (h : 2 ≤ c.resetSequence.toNat ∧ c.resetSequence.toNat ≤ 4) :
    c.reset d = { c.nextPhase.read (1#8 ++ c.sp) with sp := c.sp - 1 } := by
  have hcases : c.resetSequence.toNat = 2 ∨ c.resetSequence.toNat = 3 ∨
      c.resetSequence.toNat = 4 := by omega
  rw [reset]
  rcases hcases with h | h | h <;> rw [h] <;> rfl

theorem reset_low (h : c.resetSequence.toNat = 5) :
    c.reset d = { c.nextPhase.read 0xfffc with
      p := setBit c.p Flag.interruptDisable.bit true } := by
  rw [reset, h]
  rfl

theorem reset_high (h : c.resetSequence.toNat = 6) :
    c.reset d = { c.nextPhase.read 0xfffd with tempAddress := 0#8 ++ d } := by
  rw [reset, h]
  rfl

theorem reset_last (h : c.resetSequence.toNat = 7) :
    c.reset d = goto { c.nextPhase.read (d ++ c.low) with pc := d ++ c.low + 1 }
      .instructionFetch := by
  rw [reset, h]
  rfl

theorem reset_writeEnable (c : Cpu) : (c.reset d).writeEnable = 0 := by
  unfold reset
  split <;> rfl

end Cpu

/-- A cycle of the reset reads. -/
theorem Step.eq_reset {rom : Cartridge.Rom} {s s' : State} (h : Step rom s s')
    (hs : s.cpu.state = codeOf .resetting) :
    s' = ⟨s.cpu.reset s.dataIn, peek rom s.ram (s.cpu.reset s.dataIn).addressBus, s.ram⟩ := by
  rw [h.eq_after (Cpu.next?_resetting hs s.dataIn), after_of_read (Cpu.reset_writeEnable _ _)]

/-! ## The sequence -/

/-- The state after the first `k` cycles of a reset from `s₀`. -/
structure Resetting (rom : Cartridge.Rom) (s₀ : State) (k : Nat) (s : State) : Prop where
  state : s.cpu.state = codeOf .resetting
  phase : s.cpu.resetSequence = .ofNat 3 k
  a : s.cpu.a = s₀.cpu.a
  x : s.cpu.x = s₀.cpu.x
  y : s.cpu.y = s₀.cpu.y
  /-- the third to fifth cycle read the stack -/
  sp : s.cpu.sp = s₀.cpu.sp - .ofNat 8 (min k 5 - 2)
  p : s.cpu.p = if k < 6 then s₀.cpu.p else setBit s₀.cpu.p Flag.interruptDisable.bit true
  ram : s.ram = s₀.ram
  low : k = 6 → s.dataIn = peek rom s₀.ram 0xfffc
  high : k = 7 → s.dataIn = peek rom s₀.ram 0xfffd ∧ s.cpu.low = peek rom s₀.ram 0xfffc

theorem resetting_of_poweredOn {rom : Cartridge.Rom} {registers : Option Registers} {s : State}
    (h : s.cpu.PoweredOn registers) : Resetting rom s 0 s where
  state := h.state
  phase := h.resetSequence
  a := rfl
  x := rfl
  y := rfl
  sp := by simp
  p := rfl
  ram := rfl
  low hk := absurd hk (by decide)
  high hk := absurd hk (by decide)

theorem Resetting.toNat_phase {rom : Cartridge.Rom} {s₀ s : State} {k : Nat}
    (h : Resetting rom s₀ k s) (hk : k < 8) : s.cpu.resetSequence.toNat = k := by
  rw [h.phase, BitVec.toNat_ofNat, Nat.mod_eq_of_lt hk]

/-- The phase decides what a cycle does. All cycles but the last stay in the reset. -/
theorem Resetting.step {rom : Cartridge.Rom} {s₀ s s' : State} {k : Nat}
    (h : Resetting rom s₀ k s) (hk : k < 7) (hstep : Step rom s s') :
    Resetting rom s₀ (k + 1) s' := by
  have hphase : s.cpu.resetSequence.toNat = k := h.toNat_phase (by omega)
  have hnext : s.cpu.nextPhase.resetSequence = .ofNat 3 (k + 1) := by
    rw [BitVec.ofNat_add, ← h.phase]
    rfl
  have hsp := h.sp
  have hp := h.p
  have hcases : (k = 0 ∨ k = 1) ∨ (2 ≤ k ∧ k ≤ 4) ∨ k = 5 ∨ k = 6 := by omega
  rw [hstep.eq_reset h.state]
  rcases hcases with hidle | hstack | rfl | rfl
  · rw [Cpu.reset_idle _ (by rwa [hphase])]
    rw [if_pos (by omega)] at hp
    rw [show min k 5 - 2 = min (k + 1) 5 - 2 by omega] at hsp
    exact ⟨h.state, hnext, h.a, h.x, h.y, hsp, by rw [if_pos (by omega)]; exact hp, h.ram,
      by omega, by omega⟩
  · rw [Cpu.reset_stack _ (by rwa [hphase])]
    rw [if_pos (by omega)] at hp
    refine ⟨h.state, hnext, h.a, h.x, h.y, ?_, by rw [if_pos (by omega)]; exact hp, h.ram,
      by omega, by omega⟩
    change s.cpu.sp - 1 = _
    rw [hsp, show min (k + 1) 5 - 2 = min k 5 - 2 + 1 by omega, BitVec.ofNat_add]
    exact BitVec.sub_sub ..
  · rw [Cpu.reset_low _ hphase]
    refine ⟨h.state, hnext, h.a, h.x, h.y, hsp, congrArg (setBit · _ true) hp, h.ram,
      fun _ => ?_, by omega⟩
    rw [h.ram]
    rfl
  · rw [Cpu.reset_high _ hphase]
    refine ⟨h.state, hnext, h.a, h.x, h.y, hsp, hp, h.ram, by omega, fun _ => ⟨?_, ?_⟩⟩
    · rw [h.ram]
      rfl
    · rw [Cpu.low, setWidth_append_byte, h.low rfl]

/-- The state after a reset from `s₀`: the opcode at the vector is on the data bus. -/
structure ResetFrom (rom : Cartridge.Rom) (s₀ s : State) : Prop where
  state : s.cpu.state = codeOf .instructionFetch
  resetSequence : s.cpu.resetSequence = 0
  writeEnable : s.cpu.writeEnable = 0
  addressBus : s.cpu.addressBus = peek rom s₀.ram 0xfffd ++ peek rom s₀.ram 0xfffc
  pc : s.cpu.pc = s.cpu.addressBus + 1
  dataIn : s.dataIn = peek rom s₀.ram s.cpu.addressBus
  sp : s.cpu.sp = s₀.cpu.sp - 3
  p : ∀ b < 8, s.cpu.p.getLsbD b = if b = 2 then true else s₀.cpu.p.getLsbD b
  a : s.cpu.a = s₀.cpu.a
  x : s.cpu.x = s₀.cpu.x
  y : s.cpu.y = s₀.cpu.y
  ram : s.ram = s₀.ram

theorem Resetting.last {rom : Cartridge.Rom} {s₀ s s' : State} (h : Resetting rom s₀ 7 s)
    (hstep : Step rom s s') : ResetFrom rom s₀ s' := by
  obtain ⟨hhigh, hlow⟩ := h.high rfl
  have hp : s.cpu.p = setBit s₀.cpu.p Flag.interruptDisable.bit true := h.p
  have hphase : s.cpu.nextPhase.resetSequence = 0 := by
    rw [Cpu.nextPhase, h.phase]
    rfl
  rw [hstep.eq_reset h.state, Cpu.reset_last _ (h.toNat_phase (by decide)), hhigh, hlow]
  refine ⟨rfl, hphase, rfl, rfl, rfl, ?_, h.sp, fun b _ => ?_, h.a, h.x, h.y, h.ram⟩
  · rw [h.ram]
  · change s.cpu.p.getLsbD b = _
    rw [hp]
    exact getLsbD_setBit _ (by decide) true b

/-- The first eight cycles of any trace are a reset, by induction on the phase. -/
theorem IsTrace.resetting {rom : Cartridge.Rom} {options : MachineOptions} {n : Nat}
    {trace : Nat → State} (h : IsTrace rom options n trace) {k : Nat} (hk : k ≤ 7) (hn : k ≤ n) :
    Resetting rom (trace 0) k (trace k) := by
  induction k with
  | zero => exact resetting_of_poweredOn h.start.cpu
  | succ k ih => exact (ih (by omega) (by omega)).step (by omega) (h.step k (by omega))

/-! ## Models of the reset -/

/-- The current versions of a machine have the values of a state. -/
structure Current (sys : Machine) (s : State) (I : Interpretation) : Prop where
  values : ∀ v : Variable, I (sys.timeline.latest v.name).name = signal s.cpu s.dataIn v
  ram : I (sys.timeline.latest Ram.memory).name = .array 11 8 s.ram

theorem Running.current {rom : Cartridge.Rom} {k : Nat} {sys : Machine} (h : Running rom k sys)
    {m : Cells} {s : State} {I : Interpretation} (hs : Shows rom k m s I) : Current sys s I where
  values v := by
    have hcount : (Wire.cpu v).count k true 16 true = k + 1 := by cases v <;> simp [Wire.count]
    have hlatest := h.timeline.latest I (.cpu v)
    rw [hcount] at hlatest
    exact hlatest.trans (hs.values v)
  ram := (h.timeline.latest I .ram).trans hs.ram

/-- The reset is right from any state. In every model of the formula of power on and a reset, the
state of the machine is the reset of the state after power on, and the processor was resetting in
all cycles before. -/
theorem reset_of_satisfies {rom : Cartridge.Rom} {options : MachineOptions} {log : Log}
    {sys : Machine} (hsys : Machine.ofRom rom options log = .ok sys)
    (hsize : ∀ data, options.ram = some data → data.size ≤ ramSize) :
    ∃ sys₀ sys₈, sys.powerOn = (sys₀, .ok ()) ∧ sys₀.reset = (sys₈, .ok ()) ∧
      ∀ I : Interpretation, I.Fits sys₈.formula.signature → I.Satisfies sys₈.formula →
        ∃ s₀ s₈, Current sys₀ s₀ I ∧ Current sys₈ s₈ I ∧ ResetFrom rom s₀ s₈ ∧
          ∀ k < 8, version I k Variable.state.name = .bits 7 (codeOf .resetting) := by
  obtain ⟨sys₀, hpower, hrunning₀, -⟩ := exists_powerOn (assembled_of_ofRom hsys) hsize
  obtain ⟨sys₈, hreset, hrunning₈, -⟩ := exists_run 8 hrunning₀
  obtain ⟨sys₀', sys₈', hpower', hreset', hiff⟩ := satisfies_formula_iff_trace hsys hsize 8
  cases hpower.symm.trans hpower'
  cases hreset.symm.trans hreset'
  refine ⟨sys₀, sys₈, hpower, hreset, fun I fits hsat => ?_⟩
  obtain ⟨trace, htrace, hshows⟩ := (hiff I fits).1 hsat
  have hseven := htrace.resetting (Nat.le_refl 7) (by decide)
  refine ⟨trace 0, trace 8, hrunning₀.current (hshows.shown 0 (by decide)),
    hrunning₈.current (hshows.shown 8 (by decide)), hseven.last (htrace.step 7 (by decide)),
    fun k hk => ?_⟩
  have hstate := (htrace.resetting (k := k) (by omega) (by omega)).state
  rw [(hshows.shown k (by omega)).values .state, signal, hstate]

/-- A bank of zeros has the vector zero. -/
theorem reset_of_satisfies_zeros : ∃ sys sys₀ sys₈,
    Machine.ofRom ⟨"", 0, Bytes.zeros 16384⟩
      { registers := some { sp := 0xfd }, ram := some (Bytes.zeros 2048) } = .ok sys ∧
    sys.powerOn = (sys₀, .ok ()) ∧ sys₀.reset = (sys₈, .ok ()) ∧
      (∃ I : Interpretation, I.Fits sys₈.formula.signature ∧ I.Satisfies sys₈.formula) ∧
      ∀ I : Interpretation, I.Fits sys₈.formula.signature → I.Satisfies sys₈.formula →
        I (sys₈.timeline.latest Variable.addressBus.name).name = .bits 16 0 ∧
        I (sys₈.timeline.latest Variable.pc.name).name = .bits 16 1 ∧
        ∃ sp, I (sys₀.timeline.latest Variable.sp.name).name = .bits 8 sp ∧
          I (sys₈.timeline.latest Variable.sp.name).name = .bits 8 (sp - 3) := by
  have hsize : (Bytes.zeros 2048).size = ramSize := Array.size_replicate
  have hle : ∀ data : ByteArray, some (Bytes.zeros 2048) = some data → data.size ≤ ramSize :=
    fun data hdata => Option.some.inj hdata ▸ Nat.le_of_eq hsize
  obtain ⟨sys, hsys⟩ := exists_ofRom_bank
    { registers := some { sp := 0xfd }, ram := some (Bytes.zeros 2048) } .central
  obtain ⟨sys₀, sys₈, hpower, hreset, hall⟩ := reset_of_satisfies hsys hle
  obtain ⟨sys₀', sys₈', hpower', hreset', helapsed⟩ := exists_elapsed hsys hle 8
  cases hpower.symm.trans hpower'
  cases hreset.symm.trans hreset'
  refine ⟨sys, sys₀, sys₈, hsys, hpower, hreset, ⟨_, helapsed.fits _, (helapsed.describes _
    (helapsed.fits _)).2 ⟨_, isTrace_run rfl rfl (Nat.le_of_eq hsize) 8,
      showsTrace_interpretation .., trivial⟩⟩, fun I fits hsat => ?_⟩
  obtain ⟨s₀, s₈, hs₀, hs₈, hdone, -⟩ := hall I fits hsat
  have hzero : ∀ (m : Cells) (address : BitVec 16), 0x8000 ≤ address.toNat →
      peek ⟨"", 0, Bytes.zeros 16384⟩ m address = 0 := by
    intro m address hge
    rw [peek, if_neg (by omega), if_neg (by omega), get_zeros]
    rfl
  have haddress : s₈.cpu.addressBus = 0 := by
    rw [hdone.addressBus, hzero _ _ (by decide), hzero _ _ (by decide)]
    rfl
  have hpc : s₈.cpu.pc = 1 := by
    rw [hdone.pc, haddress]
    rfl
  refine ⟨(hs₈.values .addressBus).trans ?_, (hs₈.values .pc).trans ?_, s₀.cpu.sp,
    hs₀.values .sp, (hs₈.values .sp).trans ?_⟩
  · rw [signal, haddress]
  · rw [signal, hpc]
  · rw [signal, hdone.sp]

end CycleCheck.Cycle

import CycleCheck.Proofs.Cycle.Exactness
import CycleCheck.Proofs.Cycle.Modes

/-!
The cycles of the compiler refine the instructions. From a fetch boundary, the formula of the
cycles of an instruction has only one run, and the run ends at the next boundary with the effect of
the instruction.
-/

namespace CycleCheck.Cycle

open Processor Memory

/-- The run of an instruction: it is at a boundary again after all its cycles and not before. -/
structure Realizes (rom : Cartridge.Rom) (i : Instruction) (s : State) (trace : Nat → State) :
    Prop where
  inside : ∀ j, 0 < j → j < s.duration rom i → (trace j).cpu.state ≠ codeOf .instructionFetch
  boundary : Boundary rom (trace (s.duration rom i))
  pc : (trace (s.duration rom i)).cpu.pc = s.cpu.pc + .ofInt 16 i.bytes
  executes : Executes rom i (s.effectiveAddress rom i.mode) s.cpu s.ram (trace (s.duration rom i))

section Runs

variable {rom : Cartridge.Rom} {i : Instruction} {s : State} {trace : Nat → State}

theorem Fetches.realizes (h : Fetches rom i s) (hstart : trace 0 = s)
    (hstep : ∀ j < s.duration rom i, Step rom (trace j) (trace (j + 1))) :
    Realizes rom i s trace ∧ ∀ j < s.duration rom i, trace (j + 1) = (trace j).next rom := by
  obtain ⟨n, hduration, s₁, c, hinside, hnext, hboundary, hpc, hexecutes⟩ := completes_of_fetches h
  rw [hduration] at hstep
  obtain ⟨rfl, hcycles⟩ := hinside.trace hstart fun j hj => hstep j (by omega)
  have hlast : trace (n + 1) = after rom (trace n).ram c := (hstep n (by omega)).eq_after hnext
  rw [← hlast] at hboundary hexecutes
  constructor
  · refine ⟨fun j hpos hj => ?_, ?_, ?_, ?_⟩
    · obtain ⟨l, rfl⟩ := Nat.exists_eq_add_one_of_ne_zero (Nat.ne_of_gt hpos)
      exact (hcycles l (by omega)).2
    all_goals rw [hduration]
    · exact hboundary
    · rw [hlast]
      exact hpc
    · exact hexecutes
  · intro j hj
    by_cases hn : j = n
    · rw [hn, hlast, State.next_eq hnext]
    · exact (hcycles j (by omega)).1

/-- The run of an instruction is determined by its start. -/
theorem Fetches.trace_eq (h : Fetches rom i s) (hstart : trace 0 = s)
    (hstep : ∀ j < s.duration rom i, Step rom (trace j) (trace (j + 1))) :
    ∀ j ≤ s.duration rom i, trace j = (State.next rom)^[j] s := by
  intro j hj
  induction j with
  | zero => exact hstart
  | succ j ih =>
    rw [(h.realizes hstart hstep).2 j hj, ih (Nat.le_of_succ_le hj),
      Function.iterate_succ_apply']

end Runs

/-- An interpretation that shows a fetch boundary after `k` cycles satisfies the formula of the
cycles of the instruction if and only if it shows the run that realizes it. -/
theorem satisfies_cycles_iff_shows_instruction {rom : Cartridge.Rom} {options : MachineOptions}
    {log : Log} {sys : Machine} (hsys : Machine.ofRom rom options log = .ok sys)
    (hsize : ∀ data, options.ram = some data → data.size ≤ ramSize) (k : Nat) :
    ∃ sys₀ sysₖ, sys.powerOn = (sys₀, .ok ()) ∧ sys₀.run k = (sysₖ, .ok ()) ∧
      ∀ i s, Fetches rom i s → ∃ trace : Nat → State, trace 0 = s ∧ Realizes rom i s trace ∧
        (∀ j < s.duration rom i, Step rom (trace j) (trace (j + 1))) ∧
        ∃ sys' f, sysₖ.run (s.duration rom i) = (sys', .ok ()) ∧
          sys'.formula = sysₖ.formula ++ f ∧
          ∀ I : Interpretation, I.Fits f.signature → StepStart rom k s I →
            (I.Satisfies f ↔ ∀ j < s.duration rom i,
              Shows rom (k + j + 1) (trace j).ram (trace (j + 1)) I) := by
  obtain ⟨sys₀, hpower, hon, -⟩ := exists_powerOn (assembled_of_ofRom hsys) hsize
  obtain ⟨sysₖ, hrun, hrunning, -⟩ := exists_run k hon
  rw [Nat.zero_add] at hrunning
  refine ⟨sys₀, sysₖ, hpower, hrun, fun i s h => ?_⟩
  let trace (j : Nat) : State := (State.next rom)^[j] s
  have hstep : ∀ j < s.duration rom i, Step rom (trace j) (trace (j + 1)) := by
    intro j _
    have hsucc : trace (j + 1) = (trace j).next rom := Function.iterate_succ_apply' ..
    rw [hsucc]
    exact State.step_next rom (trace j)
  obtain ⟨sys', hcycles, -, f, hformula, hf⟩ := exists_run (s.duration rom i) hrunning
  refine ⟨trace, rfl, (h.realizes rfl hstep).1, hstep, sys', f, hcycles, hformula,
    fun I fits hstart => (hf s I fits hstart).trans ⟨?_, fun hshown => ⟨trace, rfl, hstep, hshown⟩⟩⟩
  -- another run with the same start is the same run up to the boundary
  rintro ⟨other, hother, hisRun⟩ j hj
  have heq := h.trace_eq hother hisRun.step
  have hshown := hisRun.shown j hj
  rwa [heq j (Nat.le_of_lt hj), heq (j + 1) hj] at hshown

/-- A load from `0x00ff` indexed by one, which leaves the page. -/
def crossing : State where
  cpu := { a := 0, x := 1, y := 0, sp := 0xfd, p := 0, pc := 1, state := codeOf .instructionFetch,
           resetSequence := 0, addressBus := 0, writeEnable := 0, dataOut := 0, tempAddress := 0,
           tempPointer := 0 }
  dataIn := 0xbd
  ram := fun j => if j = 0 then 0xbd else if j = 1 then 0xff else if j = 0x100 then 0x80 else 0

theorem satisfies_cycles_iff_shows_crossing : ∃ sys sys₀ sys₈ sys' f, ∃ trace : Nat → State,
    Machine.ofRom ⟨"", 0, Bytes.zeros 16384⟩ {} = .ok sys ∧ sys.powerOn = (sys₀, .ok ()) ∧
    sys₀.run 8 = (sys₈, .ok ()) ∧ sys₈.run 5 = (sys', .ok ()) ∧
    sys'.formula = sys₈.formula ++ f ∧ trace 0 = crossing ∧ (trace 5).cpu.a = 0x80 ∧
    (trace 5).cpu.pc = 4 ∧
      ∀ I : Interpretation, I.Fits f.signature →
        StepStart ⟨"", 0, Bytes.zeros 16384⟩ 8 crossing I →
          (I.Satisfies f ↔ ∀ j < 5,
            Shows ⟨"", 0, Bytes.zeros 16384⟩ (8 + j + 1) (trace j).ram (trace (j + 1)) I) := by
  have hsize : (Bytes.zeros 16384).size = Cartridge.bankSize := Array.size_replicate
  have hm : Cartridge.Mapper.ofRom ⟨"", 0, Bytes.zeros 16384⟩ =
      .ok ⟨⟨"", 0, Bytes.zeros 16384⟩, 14⟩ := by
    rw [Cartridge.Mapper.ofRom, if_neg (by simp), if_pos hsize]
  obtain ⟨sys, hsys, -⟩ := exists_ofRom hm {} .central
  obtain ⟨sys₀, sys₈, hpower, hrun, hall⟩ :=
    satisfies_cycles_iff_shows_instruction hsys (by rintro _ ⟨⟩) 8
  obtain ⟨trace, hstart, hrealizes, -, sys', f, hcycles, hformula, hiff⟩ :=
    hall ⟨0xbd, "LDA", 3, 4, .absoluteIndexedX, true, .read⟩ crossing
      ⟨⟨rfl, rfl, rfl, rfl⟩, by simp [Instruction.table], rfl⟩
  exact ⟨sys, sys₀, sys₈, sys', f, trace, hsys, hpower, hrun, hcycles, hformula, hstart,
    (hrealizes.executes.load rfl).1.register, hrealizes.pc, hiff⟩

end CycleCheck.Cycle

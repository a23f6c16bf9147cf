import CycleCheck.Proofs.Cycle.Reference
import Mathlib.Data.List.Nodup

/-!
Transitions of the reference machine by name. Micro-states have different codes, instructions have
different labels and opcodes, so the transition of a micro-state is the one that its instruction
and its addressing mode have for it.
-/

namespace CycleCheck.Cycle

open Processor

/-! ## Micro-states -/

theorem length_microStates : microStates.length = 105 := by decide +kernel

theorem nodup_names : (microStates.map MicroState.name).Nodup := by decide +kernel

theorem nodup_microStates : microStates.Nodup := List.Nodup.of_map _ nodup_names

theorem microState?_codeOf {m : MicroState} (h : m ∈ microStates) :
    microState? (codeOf m) = some m := by
  have hlt := List.idxOf_lt_length_of_mem h
  have hcode : (codeOf m).toNat = microStates.idxOf m := by
    rw [codeOf, BitVec.toNat_ofNat, Nat.mod_eq_of_lt]
    rw [length_microStates] at hlt
    omega
  rw [microState?, hcode, List.getElem?_eq_getElem hlt, List.getElem_idxOf hlt]

theorem codeOf_of_microState? {code : BitVec 7} {m : MicroState} (h : microState? code = some m) :
    code = codeOf m := by
  obtain ⟨hlt, hm⟩ := List.getElem?_eq_some_iff.1 h
  have hidx : microStates.idxOf m = code.toNat := by
    rw [← hm]
    exact nodup_microStates.idxOf_getElem _ hlt
  rw [codeOf, hidx, BitVec.ofNat_toNat, BitVec.setWidth_eq]

theorem resetting_mem : MicroState.resetting ∈ microStates := by decide +kernel

theorem instructionFetch_mem : MicroState.instructionFetch ∈ microStates := by decide +kernel

/-! ## The table of instructions -/

theorem nodup_labels : (Instruction.table.map Instruction.label).Nodup := by decide +kernel

theorem nodup_opcodes : (Instruction.table.map Instruction.opcode).Nodup := by decide +kernel

/-- An instruction is found by what sets it apart. -/
theorem find?_table {κ : Type} [BEq κ] [LawfulBEq κ] {key : Instruction → κ}
    (nodup : (Instruction.table.map key).Nodup) {i : Instruction} (hi : i ∈ Instruction.table) :
    Instruction.table.find? (fun j => key j == key i) = some i := by
  have hsome : (Instruction.table.find? fun j => key j == key i).isSome :=
    List.find?_isSome.2 ⟨i, hi, beq_self_eq_true _⟩
  obtain ⟨j, hj⟩ := Option.isSome_iff_exists.1 hsome
  have hkey : key j = key i := by simpa using List.find?_some hj
  rw [hj, List.inj_on_of_nodup_map nodup (List.mem_of_find?_eq_some hj) hi hkey]

theorem labelled?_label {i : Instruction} (hi : i ∈ Instruction.table) :
    labelled? i.label = some i := find?_table nodup_labels hi

theorem mem_of_schedule {i : Instruction} {m : MicroState} (hi : i ∈ Instruction.table)
    (hm : m ∈ (schedule? i).getD []) : m ∈ microStates := by
  rw [microStates, Processor.microStates, List.mem_cons, List.mem_cons, List.mem_flatMap]
  exact .inr (.inr ⟨i, hi, hm⟩)

theorem first_cycle_mem {i : Instruction} (hi : i ∈ Instruction.table) :
    MicroState.cycle i.label 1 ∈ microStates := by
  have hall : ∀ i ∈ Instruction.table, MicroState.cycle i.label 1 ∈ microStates := by
    decide +kernel
  exact hall i hi

/-! ## Transitions of the micro-states -/

theorem Cpu.next?_resetting {c : Cpu} (h : c.state = codeOf .resetting) (d : BitVec 8) :
    c.next? d = some (c.reset d) := by
  rw [Cpu.next?, h, microState?_codeOf resetting_mem]

theorem Cpu.next?_instructionFetch {c : Cpu} (h : c.state = codeOf .instructionFetch)
    (d : BitVec 8) : c.next? d = (Instruction.lookup? ⟨d⟩).map c.decode := by
  rw [Cpu.next?, h, microState?_codeOf instructionFetch_mem]

theorem Cpu.next?_cycle {c : Cpu} {i : Instruction} {n : Nat} (hi : i ∈ Instruction.table)
    (hn : MicroState.cycle i.label n ∈ microStates) (h : c.state = codeOf (.cycle i.label n))
    (d : BitVec 8) : c.next? d = c.cycle? i n d := by
  rw [Cpu.next?, h, microState?_codeOf hn]
  simp [labelled?_label hi]

theorem Cpu.next?_fixup {c : Cpu} {i : Instruction} {n : Nat} (hi : i ∈ Instruction.table)
    (hn : MicroState.fixup i.label n ∈ microStates) (h : c.state = codeOf (.fixup i.label n))
    (d : BitVec 8) : c.next? d = c.fixup? i n := by
  rw [Cpu.next?, h, microState?_codeOf hn]
  simp [labelled?_label hi]

namespace Cpu

variable {c : Cpu} {i : Instruction}

theorem cycle?_implied (hmode : i.mode = .implied) (d : BitVec 8) :
    c.cycle? i 1 d = some ((c.setFlag i).fetch.goto .instructionFetch) := by
  cases i
  cases hmode
  rfl

theorem cycle?_immediate (hmode : i.mode = .immediate) (d : BitVec 8) :
    c.cycle? i 1 d = some (c.finish i d) := by
  cases i
  cases hmode
  rfl

theorem cycle?_zeroPage (hmode : i.mode = .zeroPage) (d : BitVec 8) :
    c.cycle? i 1 d = some ((c.access i (0#8 ++ d)).goto (.cycle i.label 2)) ∧
      c.cycle? i 2 d = some (c.finish i d) := by
  cases i
  cases hmode
  exact ⟨rfl, rfl⟩

theorem cycle?_zeroPageIndexed (hmode : i.mode = .zeroPageIndexedX ∨ i.mode = .zeroPageIndexedY)
    (d : BitVec 8) :
    c.cycle? i 1 d = some (goto { c.read (0#8 ++ d) with tempAddress := 0#8 ++ d }
        (.cycle i.label 2)) ∧
      c.cycle? i 2 d = some ((c.access i (0#8 ++ (c.low + c.index i.mode))).goto
        (.cycle i.label 3)) ∧
      c.cycle? i 3 d = some (c.finish i d) := by
  cases i
  rcases hmode with hmode | hmode <;> cases hmode <;> exact ⟨rfl, rfl, rfl⟩

theorem cycle?_absolute (hmode : i.mode = .absolute) (d : BitVec 8) :
    c.cycle? i 1 d = some (goto { c.fetch with tempAddress := 0#8 ++ d } (.cycle i.label 2)) ∧
      c.cycle? i 2 d = some ((c.access i (d ++ c.low)).goto (.cycle i.label 3)) ∧
      c.cycle? i 3 d = some (c.finish i d) := by
  cases i
  cases hmode
  exact ⟨rfl, rfl, rfl⟩

theorem cycle?_absoluteIndexed (hmode : i.mode = .absoluteIndexedX ∨ i.mode = .absoluteIndexedY)
    (d : BitVec 8) :
    c.cycle? i 1 d = some (goto { c.fetch with tempAddress := 0#8 ++ d } (.cycle i.label 2)) ∧
      c.cycle? i 2 d = some (c.addIndex i d (.cycle i.label 3) (.fixup i.label 2)) ∧
      c.fixup? i 2 = some ((c.access i (c.tempAddress + (c.index i.mode).setWidth 16)).goto
        (.cycle i.label 3)) ∧
      c.cycle? i 3 d = some (c.finish i d) := by
  cases i
  rcases hmode with hmode | hmode <;> cases hmode <;> exact ⟨rfl, rfl, rfl, rfl⟩

theorem cycle?_indexedIndirect (hmode : i.mode = .indexedIndirect) (d : BitVec 8) :
    c.cycle? i 1 d = some (goto { c.read (0#8 ++ d) with tempPointer := d } (.cycle i.label 2)) ∧
      c.cycle? i 2 d = some (goto { c.read (0#8 ++ (c.tempPointer + c.x)) with
        tempPointer := c.tempPointer + c.x } (.cycle i.label 3)) ∧
      c.cycle? i 3 d = some (goto { c.read (0#8 ++ (c.tempPointer + 1)) with
        tempAddress := 0#8 ++ d } (.cycle i.label 4)) ∧
      c.cycle? i 4 d = some ((c.access i (d ++ c.low)).goto (.cycle i.label 5)) ∧
      c.cycle? i 5 d = some (c.finish i d) := by
  cases i
  cases hmode
  exact ⟨rfl, rfl, rfl, rfl, rfl⟩

theorem cycle?_indirectIndexed (hmode : i.mode = .indirectIndexed) (d : BitVec 8) :
    c.cycle? i 1 d = some (goto { c.read (0#8 ++ d) with tempPointer := d } (.cycle i.label 2)) ∧
      c.cycle? i 2 d = some (goto { c.read (0#8 ++ (c.tempPointer + 1)) with
        tempAddress := 0#8 ++ d } (.cycle i.label 3)) ∧
      c.cycle? i 3 d = some (c.addIndex i d (.cycle i.label 4) (.fixup i.label 3)) ∧
      c.fixup? i 3 = some ((c.access i (c.tempAddress + (c.index i.mode).setWidth 16)).goto
        (.cycle i.label 4)) ∧
      c.cycle? i 4 d = some (c.finish i d) := by
  cases i
  cases hmode
  exact ⟨rfl, rfl, rfl, rfl, rfl⟩

end Cpu

/-! ## Flags -/

theorem getLsbD_setBit (v : BitVec 8) {i : Nat} (hi : i < 8) (b : Bool) (j : Nat) :
    (setBit v i b).getLsbD j = if j = i then b else v.getLsbD j := by
  have hbit : (1#8 <<< i).getLsbD j = decide (j = i) := by
    rw [BitVec.getLsbD_shiftLeft, BitVec.getLsbD_one]
    by_cases hj : j = i
    · simp [hj, hi]
    · have hne : ¬ (i ≤ j ∧ j - i = 0) := by omega
      simp [hj]
      omega
  unfold setBit
  by_cases hj : j = i
  · cases b <;> simp [hj, hi]
  · cases b <;> simp [hbit, hj] <;> exact BitVec.lt_of_getLsbD

end CycleCheck.Cycle

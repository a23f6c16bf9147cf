import CycleCheck.Proofs.Cycle.Completeness
import CycleCheck.Proofs.Cycle.Refinement

/-!
Stores. The processor writes in one cycle of a store and in no other cycle: the one that accesses
the operand, when the address is right. So RAM changes in at most one cell for each store.
-/

namespace CycleCheck.Cycle

open Processor Memory

/-! ## Single cycles -/

/-- The micro-state whose cycle accesses the operand of a store. With an index that may carry it is
the one that corrects the address. -/
def storeCycle (i : Instruction) : MicroState :=
  match i.mode with
  | .zeroPage => .cycle i.label 1
  | .zeroPageIndexedX | .zeroPageIndexedY | .absolute => .cycle i.label 2
  | .absoluteIndexedX | .absoluteIndexedY => .fixup i.label 2
  | .indexedIndirect => .cycle i.label 4
  | .indirectIndexed => .fixup i.label 3
  | .implied | .immediate | .other _ => .instructionFetch

theorem table_stores : ∀ i ∈ Instruction.table,
    (i.mnemonic ∈ ["STA", "STX", "STY"] ↔ i.effect = .write) ∧
    (i.effect = .write → i.pageSensitive = false ∧ storeCycle i ∈ (schedule? i).getD []) := by
  decide +kernel

/-- The last cycle of an instruction comes next. -/
def Cpu.Ends (i : Instruction) (c : Cpu) : Prop :=
  ∃ k, c.state = codeOf (.cycle i.label k) ∧ .cycle i.label k ∈ microStates ∧
    ∀ (b : Cpu) (d : BitVec 8), b.cycle? i k d = some (b.finish i d)

/-- What a micro-state of an instruction does to the bus: it writes if it is the one in which a
store accesses its operand, and then only the last cycle is left. -/
structure Cpu.Drives (i : Instruction) (m : MicroState) (c : Cpu) : Prop where
  writes : c.writeEnable = 1 ↔ i.effect = .write ∧ m = storeCycle i
  ends : c.writeEnable = 1 → c.Ends i
  fetches : c.state = codeOf .instructionFetch → c.writeEnable = 0 ∧ c.addressBus = c.pc - 1

section Drives

variable {i : Instruction} {m next : MicroState} {b c : Cpu} {d : BitVec 8} {address : BitVec 16}

theorem Cpu.drives_fetch (hm : m ≠ storeCycle i) (b : Cpu) :
    (b.fetch.goto .instructionFetch).Drives i m where
  writes := by simp [Cpu.goto, Cpu.fetch, Cpu.read, hm]
  ends := by simp [Cpu.goto, Cpu.fetch, Cpu.read]
  fetches := fun _ => ⟨rfl, (BitVec.add_sub_cancel b.pc 1).symm⟩

theorem Cpu.drives_finish (hm : m ≠ storeCycle i) (b : Cpu) (d : BitVec 8) :
    (b.finish i d).Drives i m := Cpu.drives_fetch hm _

theorem Cpu.drives_read (hm : m ≠ storeCycle i) (hread : b.writeEnable = 0)
    (hnext : next ∈ microStates) (hne : next ≠ .instructionFetch) : (b.goto next).Drives i m where
  writes := by simp [Cpu.goto, hread, hm]
  ends := by simp [Cpu.goto, hread]
  fetches := fun h => absurd h (codeOf_ne hnext hne)

theorem Cpu.drives_access (heffect : i.effect = .read ∨ i.effect = .write)
    (hm : i.effect = .write → m = storeCycle i) {k : Nat} (hk : .cycle i.label k ∈ microStates)
    (hlast : ∀ (b : Cpu) (d : BitVec 8), b.cycle? i k d = some (b.finish i d)) (b : Cpu)
    (address : BitVec 16) : ((b.access i address).goto (.cycle i.label k)).Drives i m where
  writes := by
    rcases heffect with h | h
    · simp [Cpu.goto, Cpu.access, Cpu.read, h]
    · simp [Cpu.goto, Cpu.access, Cpu.write, h, hm h]
  ends := fun _ => ⟨k, rfl, hk, hlast⟩
  fetches := fun h => absurd h (codeOf_ne hk (by simp))

/-- An indexed store reads at the uncorrected address. -/
theorem Cpu.drives_addIndex (heffect : i.effect = .read ∨ i.effect = .write)
    (hstore : i.effect = .write → i.pageSensitive = false) (hm : m ≠ storeCycle i) {k l : Nat}
    (hk : .cycle i.label k ∈ microStates) (hl : .fixup i.label l ∈ microStates)
    (hlast : ∀ (b : Cpu) (d : BitVec 8), b.cycle? i k d = some (b.finish i d)) (b : Cpu)
    (d : BitVec 8) : (b.addIndex i d (.cycle i.label k) (.fixup i.label l)).Drives i m := by
  unfold Cpu.addIndex
  simp only
  split_ifs with hskip
  · refine Cpu.drives_access heffect (fun hwrite => ?_) hk hlast _ _
    rw [hstore hwrite] at hskip
    simp at hskip
  · exact Cpu.drives_read hm rfl hl (by simp)

theorem Cpu.drives_zeroPage (hi : i ∈ Instruction.table) (hmode : i.mode = .zeroPage) {n : Nat}
    (hn : .cycle i.label n ∈ (schedule? i).getD []) (h : b.cycle? i n d = some c) :
    c.Drives i (.cycle i.label n) := by
  have heffect := (table_effect i hi).2.2.2 (by simp [hmode])
  have hstore : storeCycle i = .cycle i.label 1 := by simp [storeCycle, hmode]
  have hmem : ∀ m ∈ (schedule? i).getD [], m ∈ microStates := fun m => mem_of_schedule hi
  simp only [schedule?, hmode, Option.getD_some] at hn hmem
  have hn' : n = 1 ∨ n = 2 := by simpa using hn
  rcases hn' with rfl | rfl
  · cases (Cpu.cycle?_zeroPage hmode d).1.symm.trans h
    exact Cpu.drives_access heffect (fun _ => hstore.symm) (hmem _ (by simp))
      (fun b d => (Cpu.cycle?_zeroPage hmode d).2) _ _
  · cases (Cpu.cycle?_zeroPage hmode d).2.symm.trans h
    exact Cpu.drives_finish (by simp [hstore]) _ _

theorem Cpu.drives_zeroPageIndexed (hi : i ∈ Instruction.table)
    (hmode : i.mode = .zeroPageIndexedX ∨ i.mode = .zeroPageIndexedY) {n : Nat}
    (hn : .cycle i.label n ∈ (schedule? i).getD []) (h : b.cycle? i n d = some c) :
    c.Drives i (.cycle i.label n) := by
  have heffect := (table_effect i hi).2.2.2 (by rcases hmode with hmode | hmode <;> simp [hmode])
  have hschedule : schedule? i =
      some [.cycle i.label 1, .cycle i.label 2, .cycle i.label 3] := by
    rcases hmode with hmode | hmode <;> simp [schedule?, hmode]
  have hstore : storeCycle i = .cycle i.label 2 := by
    rcases hmode with hmode | hmode <;> simp [storeCycle, hmode]
  have hmem : ∀ m ∈ (schedule? i).getD [], m ∈ microStates := fun m => mem_of_schedule hi
  simp only [hschedule, Option.getD_some] at hn hmem
  have hcycles := fun b d => Cpu.cycle?_zeroPageIndexed (c := b) hmode d
  have hn' : n = 1 ∨ n = 2 ∨ n = 3 := by simpa using hn
  rcases hn' with rfl | rfl | rfl
  · cases (hcycles b d).1.symm.trans h
    exact Cpu.drives_read (by simp [hstore]) rfl (hmem _ (by simp)) (by simp)
  · cases (hcycles b d).2.1.symm.trans h
    exact Cpu.drives_access heffect (fun _ => hstore.symm) (hmem _ (by simp))
      (fun b d => (hcycles b d).2.2) _ _
  · cases (hcycles b d).2.2.symm.trans h
    exact Cpu.drives_finish (by simp [hstore]) _ _

theorem Cpu.drives_absolute (hi : i ∈ Instruction.table) (hmode : i.mode = .absolute) {n : Nat}
    (hn : .cycle i.label n ∈ (schedule? i).getD []) (h : b.cycle? i n d = some c) :
    c.Drives i (.cycle i.label n) := by
  have heffect := (table_effect i hi).2.2.2 (by simp [hmode])
  have hstore : storeCycle i = .cycle i.label 2 := by simp [storeCycle, hmode]
  have hmem : ∀ m ∈ (schedule? i).getD [], m ∈ microStates := fun m => mem_of_schedule hi
  simp only [schedule?, hmode, Option.getD_some] at hn hmem
  have hn' : n = 1 ∨ n = 2 ∨ n = 3 := by simpa using hn
  rcases hn' with rfl | rfl | rfl
  · cases (Cpu.cycle?_absolute hmode d).1.symm.trans h
    exact Cpu.drives_read (by simp [hstore]) rfl (hmem _ (by simp)) (by simp)
  · cases (Cpu.cycle?_absolute hmode d).2.1.symm.trans h
    exact Cpu.drives_access heffect (fun _ => hstore.symm) (hmem _ (by simp))
      (fun b d => (Cpu.cycle?_absolute hmode d).2.2) _ _
  · cases (Cpu.cycle?_absolute hmode d).2.2.symm.trans h
    exact Cpu.drives_finish (by simp [hstore]) _ _

theorem Cpu.drives_absoluteIndexed (hi : i ∈ Instruction.table)
    (hmode : i.mode = .absoluteIndexedX ∨ i.mode = .absoluteIndexedY)
    (hm : m ∈ (schedule? i).getD [])
    (h : (∃ n, m = .cycle i.label n ∧ b.cycle? i n d = some c) ∨
      ∃ n, m = .fixup i.label n ∧ b.fixup? i n = some c) : c.Drives i m := by
  have heffect := (table_effect i hi).2.2.2 (by rcases hmode with hmode | hmode <;> simp [hmode])
  have hinsensitive := fun hwrite => (((table_stores i hi).2) hwrite).1
  have hschedule : schedule? i = some [.cycle i.label 1, .cycle i.label 2, .fixup i.label 2,
      .cycle i.label 3] := by
    rcases hmode with hmode | hmode <;> simp [schedule?, hmode]
  have hstore : storeCycle i = .fixup i.label 2 := by
    rcases hmode with hmode | hmode <;> simp [storeCycle, hmode]
  have hmem : ∀ m ∈ (schedule? i).getD [], m ∈ microStates := fun m => mem_of_schedule hi
  simp only [hschedule, Option.getD_some] at hm hmem
  have hcycles := fun b d => Cpu.cycle?_absoluteIndexed (c := b) hmode d
  have hlast := fun b d => (hcycles b d).2.2.2
  rcases h with ⟨n, rfl, h⟩ | ⟨n, rfl, h⟩
  · have hn : n = 1 ∨ n = 2 ∨ n = 3 := by simpa using hm
    rcases hn with rfl | rfl | rfl
    · cases (hcycles b d).1.symm.trans h
      exact Cpu.drives_read (by simp [hstore]) rfl (hmem _ (by simp)) (by simp)
    · cases (hcycles b d).2.1.symm.trans h
      exact Cpu.drives_addIndex heffect hinsensitive (by simp [hstore]) (hmem _ (by simp))
        (hmem _ (by simp)) hlast _ _
    · cases (hlast b d).symm.trans h
      exact Cpu.drives_finish (by simp [hstore]) _ _
  · obtain rfl : n = 2 := by simpa using hm
    cases (hcycles b 0).2.2.1.symm.trans h
    exact Cpu.drives_access heffect (fun _ => hstore.symm) (hmem _ (by simp)) hlast _ _

theorem Cpu.drives_indexedIndirect (hi : i ∈ Instruction.table)
    (hmode : i.mode = .indexedIndirect) {n : Nat}
    (hn : .cycle i.label n ∈ (schedule? i).getD []) (h : b.cycle? i n d = some c) :
    c.Drives i (.cycle i.label n) := by
  have heffect := (table_effect i hi).2.2.2 (by simp [hmode])
  have hstore : storeCycle i = .cycle i.label 4 := by simp [storeCycle, hmode]
  have hmem : ∀ m ∈ (schedule? i).getD [], m ∈ microStates := fun m => mem_of_schedule hi
  simp only [schedule?, hmode, Option.getD_some] at hn hmem
  have hcycles := fun b d => Cpu.cycle?_indexedIndirect (c := b) hmode d
  have hn' : n = 1 ∨ n = 2 ∨ n = 3 ∨ n = 4 ∨ n = 5 := by simpa using hn
  rcases hn' with rfl | rfl | rfl | rfl | rfl
  · cases (hcycles b d).1.symm.trans h
    exact Cpu.drives_read (by simp [hstore]) rfl (hmem _ (by simp)) (by simp)
  · cases (hcycles b d).2.1.symm.trans h
    exact Cpu.drives_read (by simp [hstore]) rfl (hmem _ (by simp)) (by simp)
  · cases (hcycles b d).2.2.1.symm.trans h
    exact Cpu.drives_read (by simp [hstore]) rfl (hmem _ (by simp)) (by simp)
  · cases (hcycles b d).2.2.2.1.symm.trans h
    exact Cpu.drives_access heffect (fun _ => hstore.symm) (hmem _ (by simp))
      (fun b d => (hcycles b d).2.2.2.2) _ _
  · cases (hcycles b d).2.2.2.2.symm.trans h
    exact Cpu.drives_finish (by simp [hstore]) _ _

theorem Cpu.drives_indirectIndexed (hi : i ∈ Instruction.table) (hmode : i.mode = .indirectIndexed)
    (hm : m ∈ (schedule? i).getD [])
    (h : (∃ n, m = .cycle i.label n ∧ b.cycle? i n d = some c) ∨
      ∃ n, m = .fixup i.label n ∧ b.fixup? i n = some c) : c.Drives i m := by
  have heffect := (table_effect i hi).2.2.2 (by simp [hmode])
  have hinsensitive := fun hwrite => (((table_stores i hi).2) hwrite).1
  have hstore : storeCycle i = .fixup i.label 3 := by simp [storeCycle, hmode]
  have hmem : ∀ m ∈ (schedule? i).getD [], m ∈ microStates := fun m => mem_of_schedule hi
  simp only [schedule?, hmode, Option.getD_some] at hm hmem
  have hcycles := fun b d => Cpu.cycle?_indirectIndexed (c := b) hmode d
  have hlast := fun b d => (hcycles b d).2.2.2.2
  rcases h with ⟨n, rfl, h⟩ | ⟨n, rfl, h⟩
  · have hn : n = 1 ∨ n = 2 ∨ n = 3 ∨ n = 4 := by simpa using hm
    rcases hn with rfl | rfl | rfl | rfl
    · cases (hcycles b d).1.symm.trans h
      exact Cpu.drives_read (by simp [hstore]) rfl (hmem _ (by simp)) (by simp)
    · cases (hcycles b d).2.1.symm.trans h
      exact Cpu.drives_read (by simp [hstore]) rfl (hmem _ (by simp)) (by simp)
    · cases (hcycles b d).2.2.1.symm.trans h
      exact Cpu.drives_addIndex heffect hinsensitive (by simp [hstore]) (hmem _ (by simp))
        (hmem _ (by simp)) hlast _ _
    · cases (hlast b d).symm.trans h
      exact Cpu.drives_finish (by simp [hstore]) _ _
  · obtain rfl : n = 3 := by simpa using hm
    cases (hcycles b 0).2.2.2.1.symm.trans h
    exact Cpu.drives_access heffect (fun _ => hstore.symm) (hmem _ (by simp)) hlast _ _

/-- The micro-states of an instruction are named for it. -/
theorem eq_of_mem_schedule (hm : m ∈ (schedule? i).getD []) :
    (∃ n, m = .cycle i.label n) ∨ ∃ n, m = .fixup i.label n := by
  unfold schedule? at hm
  cases hmode : i.mode <;> simp only [hmode, Option.getD_some, Option.getD_none, List.mem_cons,
    List.not_mem_nil, or_false] at hm <;> grind

/-- Every cycle of an instruction drives the bus as its micro-state says. -/
theorem Cpu.drives_of_next? (hi : i ∈ Instruction.table) (hm : m ∈ (schedule? i).getD [])
    (hb : b.state = codeOf m) (h : b.next? d = some c) : c.Drives i m := by
  have hmem := mem_of_schedule hi hm
  have hcases : (∃ n, m = .cycle i.label n ∧ b.cycle? i n d = some c) ∨
      ∃ n, m = .fixup i.label n ∧ b.fixup? i n = some c := by
    rcases eq_of_mem_schedule hm with ⟨n, rfl⟩ | ⟨n, rfl⟩
    · exact .inl ⟨n, rfl, (Cpu.next?_cycle hi hmem hb d).symm.trans h⟩
    · exact .inr ⟨n, rfl, (Cpu.next?_fixup hi hmem hb d).symm.trans h⟩
  -- most modes have no cycle that corrects an address
  have hplain : (∀ n, .fixup i.label n ∉ (schedule? i).getD []) →
      ∃ n, m = .cycle i.label n ∧ b.cycle? i n d = some c := by
    intro hnone
    refine hcases.resolve_right ?_
    rintro ⟨n, rfl, -⟩
    exact hnone n hm
  cases hmode : i.mode with
  | implied =>
    obtain ⟨n, rfl, hcycle⟩ := hplain (by simp [schedule?, hmode])
    obtain rfl : n = 1 := by simpa [schedule?, hmode] using hm
    cases (Cpu.cycle?_implied hmode d).symm.trans hcycle
    exact Cpu.drives_fetch (by simp [storeCycle, hmode]) _
  | immediate =>
    obtain ⟨n, rfl, hcycle⟩ := hplain (by simp [schedule?, hmode])
    obtain rfl : n = 1 := by simpa [schedule?, hmode] using hm
    cases (Cpu.cycle?_immediate hmode d).symm.trans hcycle
    exact Cpu.drives_finish (by simp [storeCycle, hmode]) _ _
  | zeroPage =>
    obtain ⟨n, rfl, hcycle⟩ := hplain (by simp [schedule?, hmode])
    exact Cpu.drives_zeroPage hi hmode hm hcycle
  | zeroPageIndexedX =>
    obtain ⟨n, rfl, hcycle⟩ := hplain (by simp [schedule?, hmode])
    exact Cpu.drives_zeroPageIndexed hi (.inl hmode) hm hcycle
  | zeroPageIndexedY =>
    obtain ⟨n, rfl, hcycle⟩ := hplain (by simp [schedule?, hmode])
    exact Cpu.drives_zeroPageIndexed hi (.inr hmode) hm hcycle
  | absolute =>
    obtain ⟨n, rfl, hcycle⟩ := hplain (by simp [schedule?, hmode])
    exact Cpu.drives_absolute hi hmode hm hcycle
  | indexedIndirect =>
    obtain ⟨n, rfl, hcycle⟩ := hplain (by simp [schedule?, hmode])
    exact Cpu.drives_indexedIndirect hi hmode hm hcycle
  | absoluteIndexedX => exact Cpu.drives_absoluteIndexed hi (.inl hmode) hm hcases
  | absoluteIndexedY => exact Cpu.drives_absoluteIndexed hi (.inr hmode) hm hcases
  | indirectIndexed => exact Cpu.drives_indirectIndexed hi hmode hm hcases
  | other => simp [schedule?, hmode] at hm

end Drives

/-! ## The bus after a transition -/

theorem Cpu.reset_fetches (c : Cpu) (d : BitVec 8) : (c.reset d).writeEnable = 0 ∧
    ((c.reset d).state = codeOf .instructionFetch → c.state = codeOf .resetting →
      (c.reset d).addressBus = (c.reset d).pc - 1) := by
  have hne : codeOf .resetting ≠ codeOf .instructionFetch := codeOf_ne resetting_mem (by simp)
  unfold Cpu.reset
  simp only
  split
  case _ | _ | _ | _ | _ | _ | _ =>
    refine ⟨rfl, fun hfetch hc => absurd (hc.symm.trans hfetch) hne⟩
  case _ =>
    exact ⟨rfl, fun _ _ => (BitVec.add_sub_cancel _ 1).symm⟩

theorem Cpu.decode_reads (c : Cpu) (i : Instruction) : (c.decode i).writeEnable = 0 := by
  unfold Cpu.decode
  split_ifs <;> rfl

theorem exists_of_mem_microStates {m : MicroState} (hm : m ∈ microStates) :
    m = .resetting ∨ m = .instructionFetch ∨
      ∃ i ∈ Instruction.table, m ∈ (schedule? i).getD [] := by
  rwa [microStates, Processor.microStates, List.mem_cons, List.mem_cons, List.mem_flatMap] at hm

theorem codeOf_inj {m m' : MicroState} (hm : m ∈ microStates) (hm' : m' ∈ microStates)
    (h : codeOf m = codeOf m') : m = m' :=
  Option.some.inj ((microState?_codeOf hm).symm.trans (h ▸ microState?_codeOf hm'))

/-- The labels of micro-states tell instructions apart. -/
theorem eq_of_mem_schedules {i j : Instruction} {m : MicroState} (hi : i ∈ Instruction.table)
    (hj : j ∈ Instruction.table) (hm : m ∈ (schedule? i).getD [])
    (hm' : m ∈ (schedule? j).getD []) : i = j := by
  have hlabel : i.label = j.label := by
    rcases eq_of_mem_schedule hm with ⟨n, rfl⟩ | ⟨n, rfl⟩ <;>
      rcases eq_of_mem_schedule hm' with ⟨k, hk⟩ | ⟨k, hk⟩ <;> simp at hk <;> exact hk.1
  exact List.inj_on_of_nodup_map nodup_labels hi hj hlabel

/-- The cycle that a state is in accesses the operand of a store. -/
def Cpu.Accesses (c : Cpu) : Prop :=
  ∃ i ∈ Instruction.table, i.mnemonic ∈ ["STA", "STX", "STY"] ∧ c.state = codeOf (storeCycle i)

theorem Cpu.accesses_iff {c : Cpu} {i : Instruction} {m : MicroState} (hi : i ∈ Instruction.table)
    (hm : m ∈ (schedule? i).getD []) (hc : c.state = codeOf m) :
    c.Accesses ↔ i.effect = .write ∧ m = storeCycle i := by
  constructor
  · rintro ⟨j, hj, hmnemonic, hstate⟩
    obtain ⟨hwrites, hstore⟩ := table_stores j hj
    obtain ⟨-, hmem⟩ := hstore (hwrites.1 hmnemonic)
    have hsame : m = storeCycle j := codeOf_inj (mem_of_schedule hi hm) (mem_of_schedule hj hmem)
      (hc.symm.trans hstate)
    obtain rfl := eq_of_mem_schedules hi hj hm (hsame ▸ hmem)
    exact ⟨hwrites.1 hmnemonic, hsame⟩
  · rintro ⟨hwrite, rfl⟩
    exact ⟨i, hi, (table_stores i hi).1.2 hwrite, hc⟩

theorem Cpu.not_accesses {c : Cpu} {m : MicroState} (hm : m = .resetting ∨ m = .instructionFetch)
    (hc : c.state = codeOf m) : ¬ c.Accesses := by
  rintro ⟨j, hj, hmnemonic, hstate⟩
  obtain ⟨hwrites, hstore⟩ := table_stores j hj
  obtain ⟨-, hmem⟩ := hstore (hwrites.1 hmnemonic)
  have hmicro : m ∈ microStates := by
    rcases hm with rfl | rfl
    · exact resetting_mem
    · exact instructionFetch_mem
  have hsame := codeOf_inj hmicro (mem_of_schedule hj hmem) (hc.symm.trans hstate)
  rcases eq_of_mem_schedule (hsame ▸ hmem) with ⟨n, rfl⟩ | ⟨n, rfl⟩ <;> simp at hm

/-- What one cycle does to the bus. -/
structure Cpu.Moves (c c' : Cpu) : Prop where
  writes : c'.writeEnable = 1 ↔ c.Accesses
  ends : c'.writeEnable = 1 → ∃ i ∈ Instruction.table, c'.Ends i
  fetches : c'.state = codeOf .instructionFetch → c'.writeEnable = 0 ∧ c'.addressBus = c'.pc - 1

theorem Cpu.moves_of_next? {c c' : Cpu} {d : BitVec 8} (h : c.next? d = some c') : c.Moves c' := by
  obtain ⟨m, hm⟩ : ∃ m, microState? c.state = some m := by
    cases hm : microState? c.state with
    | none => simp [Cpu.next?, hm] at h
    | some m => exact ⟨m, rfl⟩
  have hc := codeOf_of_microState? hm
  rcases exists_of_mem_microStates (List.mem_of_getElem? hm) with rfl | rfl | ⟨i, hi, hm⟩
  · cases (Cpu.next?_resetting hc d).symm.trans h
    obtain ⟨hread, hfetch⟩ := c.reset_fetches d
    exact ⟨by simp [hread, Cpu.not_accesses (.inl rfl) hc], by simp [hread],
      fun hstate => ⟨hread, hfetch hstate hc⟩⟩
  · rw [Cpu.next?_instructionFetch hc] at h
    obtain ⟨i, hi, rfl⟩ := Option.map_eq_some_iff.1 h
    have hread := c.decode_reads i
    have hne : (c.decode i).state ≠ codeOf .instructionFetch :=
      codeOf_ne (first_cycle_mem (List.mem_of_find?_eq_some hi)) (by simp)
    exact ⟨by simp [hread, Cpu.not_accesses (.inr rfl) hc], by simp [hread],
      fun hstate => absurd hstate hne⟩
  · have hdrives := Cpu.drives_of_next? hi hm hc h
    exact ⟨hdrives.writes.trans (Cpu.accesses_iff hi hm hc).symm,
      fun hwrite => ⟨i, hi, hdrives.ends hwrite⟩, hdrives.fetches⟩

/-! ## Runs -/

section Runs

variable {rom : Cartridge.Rom} {options : MachineOptions} {n : Nat} {trace : Nat → State}

/-- As long as implemented opcodes are decoded there are transitions. -/
theorem IsTrace.exists_next (h : IsTrace rom options n trace)
    (hdecodes : ∀ k < n, (trace k).Decodes) : ∀ k < n, ∃ c,
      (trace k).cpu.next? (trace k).dataIn = some c ∧
        trace (k + 1) = after rom (trace k).ram c := by
  have hvalid : ∀ k ≤ n, (trace k).cpu.Valid := by
    intro k hk
    induction k with
    | zero => exact ⟨_, resetting_mem, h.start.cpu.state⟩
    | succ k ih =>
      obtain ⟨c, hc⟩ := Option.isSome_iff_exists.1
        ((ih (Nat.le_of_succ_le hk)).next?_isSome (hdecodes k hk))
      rw [(h.step k hk).eq_after hc]
      exact Cpu.valid_of_next? hc
  intro k hk
  obtain ⟨c, hc⟩ := Option.isSome_iff_exists.1
    ((hvalid k (Nat.le_of_lt hk)).next?_isSome (hdecodes k hk))
  exact ⟨c, hc, (h.step k hk).eq_after hc⟩

/-- Wherever an opcode is to be decoded there is a boundary. -/
theorem IsTrace.boundary (h : IsTrace rom options n trace)
    (hdecodes : ∀ k < n, (trace k).Decodes) {k : Nat} (hk : k ≤ n)
    (hfetch : (trace k).cpu.state = codeOf .instructionFetch) : Boundary rom (trace k) := by
  cases k with
  | zero =>
    rw [h.start.cpu.state] at hfetch
    exact absurd hfetch (codeOf_ne resetting_mem (by simp))
  | succ k =>
    obtain ⟨c, hc, hafter⟩ := h.exists_next hdecodes k hk
    rw [hafter] at hfetch ⊢
    obtain ⟨hread, haddress⟩ := (Cpu.moves_of_next? hc).fetches hfetch
    rw [after_of_read hread]
    exact ⟨hfetch, hread, haddress, rfl⟩

/-- From any state on, a trace is the run of the machine. -/
theorem IsTrace.eq_iterate (h : IsTrace rom options n trace)
    (hdecodes : ∀ k < n, (trace k).Decodes) {k j : Nat} (hj : k + j ≤ n) :
    trace (k + j) = (State.next rom)^[j] (trace k) := by
  induction j with
  | zero => rfl
  | succ j ih =>
    obtain ⟨c, hc, hafter⟩ := h.exists_next hdecodes (k + j) hj
    rw [Function.iterate_succ_apply', ← ih (Nat.le_of_succ_le hj), State.next_eq hc]
    exact hafter

end Runs

section Instructions

variable {rom : Cartridge.Rom} {i : Instruction} {s : State}

/-- The bus in one cycle of an instruction. -/
structure BusCycle (rom : Cartridge.Rom) (i : Instruction) (s : State) (j : Nat) (c : Cpu) :
    Prop where
  writes : c.writeEnable = 1 ↔ i.mnemonic ∈ ["STA", "STX", "STY"] ∧ j + 1 = s.duration rom i
  address : c.writeEnable = 1 → c.addressBus = s.effectiveAddress rom i.mode
  data : c.writeEnable = 1 → c.dataOut = s.cpu.get (registerOf i.mnemonic)

theorem Cpu.Ends.next? {c : Cpu} (h : c.Ends i) (hi : i ∈ Instruction.table) (d : BitVec 8) :
    ∃ c', c.next? d = some c' ∧ c'.state = codeOf .instructionFetch := by
  obtain ⟨k, hc, hk, hlast⟩ := h
  exact ⟨_, (Cpu.next?_cycle hi hk hc d).trans (hlast c d), rfl⟩

/-- A cycle that does not write is one of an access at most if the access is a read. -/
theorem BusCycle.of_read {j : Nat} {c : Cpu} (hread : c.writeEnable = 0)
    (hnot : ¬ (i.mnemonic ∈ ["STA", "STX", "STY"] ∧ j + 1 = s.duration rom i)) :
    BusCycle rom i s j c := by
  constructor <;> simp only [hread]
  · exact ⟨fun h => absurd h (by decide), fun h => absurd h hnot⟩
  · exact fun h => absurd h (by decide)
  · exact fun h => absurd h (by decide)

theorem State.step_iterate (rom : Cartridge.Rom) (s : State) (l : Nat) :
    Step rom ((State.next rom)^[l] s) ((State.next rom)^[l + 1] s) := by
  rw [Function.iterate_succ_apply']
  exact State.step_next rom _

/-- The states of the cycles that follow a fetch realize the instruction. -/
theorem Fetches.realizes_iterate (h : Fetches rom i s) :
    Realizes rom i s fun j => (State.next rom)^[j] s :=
  (h.realizes rfl fun l _ => s.step_iterate rom l).1

/-- Before the last but one cycle of an instruction there is no write, since only the last cycle
can follow a write. -/
theorem Fetches.reads (h : Fetches rom i s) {j : Nat} (hpos : 0 < j)
    (hj : j + 1 < s.duration rom i)
    (hnext : ∀ l < j, ∃ c, ((State.next rom)^[l] s).cpu.next? ((State.next rom)^[l] s).dataIn =
      some c) : ((State.next rom)^[j] s).cpu.writeEnable = 0 := by
  have hrealizes := h.realizes_iterate
  obtain ⟨l, rfl⟩ := Nat.exists_eq_add_one_of_ne_zero (Nat.ne_of_gt hpos)
  obtain ⟨c, hc⟩ := hnext l (Nat.lt_succ_self l)
  have hstate : (State.next rom)^[l + 1] s = after rom ((State.next rom)^[l] s).ram c := by
    rw [Function.iterate_succ_apply', State.next_eq hc]
  have hinside := hrealizes.inside (l + 1 + 1) (by omega) (by omega)
  simp only [Function.iterate_succ_apply' _ (l + 1)] at hinside
  rw [hstate] at hinside ⊢
  by_contra hwrite
  have hwrites := (BitVec.eq_zero_or_eq_one _).resolve_left hwrite
  obtain ⟨i', hi', hends⟩ := (Cpu.moves_of_next? hc).ends hwrites
  obtain ⟨c', hc', hfetch⟩ := hends.next? hi' (after rom ((State.next rom)^[l] s).ram c).dataIn
  rw [State.next_eq hc'] at hinside
  exact hinside hfetch

/-- The bus along an instruction, from the boundary where it is fetched. -/
theorem Fetches.busCycle (h : Fetches rom i s) {j : Nat} (hpos : 0 < j)
    (hj : j ≤ s.duration rom i)
    (hnext : ∀ l < j, ∃ c, ((State.next rom)^[l] s).cpu.next? ((State.next rom)^[l] s).dataIn =
      some c) : BusCycle rom i s j ((State.next rom)^[j] s).cpu := by
  obtain hlast | rfl | hearly : j + 1 = s.duration rom i ∨ j = s.duration rom i ∨
    j + 1 < s.duration rom i := by omega
  · by_cases hmode : i.mode = .implied
    · have heffect := (table_effect i h.mem).2.1 hmode
      have hnot : i.mnemonic ∉ ["STA", "STX", "STY"] := by
        rw [(table_stores i h.mem).1, heffect]
        simp
      obtain rfl : j = 1 := by
        rw [duration_implied h.mem hmode] at hlast
        omega
      refine .of_read ?_ fun hstore => hnot hstore.1
      change (s.next rom).cpu.writeEnable = 0
      rw [State.next_eq h.next?_eq]
      exact s.cpu.decode_reads i
    · obtain ⟨n, pc, hduration, -, c, k, hkeeps, -, -, -, hinside⟩ := approaches_of_fetches h hmode
      obtain rfl : j = n := by omega
      obtain ⟨hend, -⟩ := @Inside.trace _ _ _ _ hinside (fun l => (State.next rom)^[l] s) rfl
        fun l _ => s.step_iterate rom l
      rw [hend]
      rcases (table_effect i h.mem).2.2.2 hmode with heffect | heffect
      · refine .of_read (by simp [after, Cpu.goto, Cpu.access, Cpu.read, heffect]) ?_
        rw [(table_stores i h.mem).1, heffect]
        simp
      · have hstore := (table_stores i h.mem).1.2 heffect
        refine ⟨?_, fun _ => ?_, fun _ => ?_⟩
        · simp only [hstore, hlast, and_self, iff_true]
          simp [after, Cpu.goto, Cpu.access, Cpu.write, heffect]
        · simp [after, Cpu.goto, Cpu.access, Cpu.write, heffect]
        · simp [after, Cpu.goto, Cpu.access, Cpu.write, heffect, hkeeps.get]
  · exact .of_read h.realizes_iterate.boundary.writeEnable (by omega)
  · exact .of_read (h.reads hpos hearly hnext) (by omega)

end Instructions

/-! ## RAM -/

/-- A cell that changes in one cycle. -/
structure Stored (s s' : State) (cell : BitVec 11) : Prop where
  accesses : s.cpu.Accesses
  below : s'.cpu.addressBus.toNat < 0x2000
  cell : cell = s'.cpu.addressBus.setWidth 11

theorem Step.stored {rom : Cartridge.Rom} {s s' : State} {c : Cpu} {cell : BitVec 11}
    (h : Step rom s s') (hc : s.cpu.next? s.dataIn = some c)
    (hchanged : s'.ram cell ≠ s.ram cell) : Stored s s' cell := by
  have hcpu := h.cpu c hc
  rw [h.ram, Cpu.store] at hchanged
  split_ifs at hchanged with hwrite
  · obtain ⟨hwrite, hbelow⟩ := hwrite
    refine ⟨(Cpu.moves_of_next? (hcpu ▸ hc)).writes.1 hwrite, hbelow, ?_⟩
    by_contra hne
    exact hchanged (Function.update_of_ne hne _ _)
  · exact absurd rfl hchanged

/-- The cycles of an instruction that is fetched after `k` cycles, as far as the run gets. A store
writes once, in its last but one cycle, and nothing else does. -/
structure StoresOnce (rom : Cartridge.Rom) (n : Nat) (trace : Nat → State) (k : Nat)
    (i : Instruction) : Prop where
  fetches : Fetches rom i (trace k)
  inside : ∀ j, 0 < j → j < (trace k).duration rom i → k + j ≤ n →
    (trace (k + j)).cpu.state ≠ codeOf .instructionFetch
  boundary : k + (trace k).duration rom i ≤ n → Boundary rom (trace (k + (trace k).duration rom i))
  bus : ∀ j, 0 < j → j ≤ (trace k).duration rom i → k + j ≤ n →
    BusCycle rom i (trace k) j (trace (k + j)).cpu
  ram : ∀ j ≤ (trace k).duration rom i, k + j ≤ n → ∀ cell,
    (trace (k + j)).ram cell ≠ (trace k).ram cell →
      i.mnemonic ∈ ["STA", "STX", "STY"] ∧ (trace k).duration rom i ≤ j + 1 ∧
        ((trace k).effectiveAddress rom i.mode).toNat < 0x2000 ∧
        cell = ((trace k).effectiveAddress rom i.mode).setWidth 11

/-- Stores write, and nothing else does. -/
structure WritesOnce (rom : Cartridge.Rom) (n : Nat) (trace : Nat → State) : Prop where
  start : (trace 0).cpu.writeEnable = 0
  writes : ∀ k < n, (trace (k + 1)).cpu.writeEnable = 1 ↔ (trace k).cpu.Accesses
  ram : ∀ k < n, ∀ cell, (trace (k + 1)).ram cell ≠ (trace k).ram cell →
    Stored (trace k) (trace (k + 1)) cell
  reset : ∀ k < n, (trace k).cpu.state = codeOf .resetting →
    (trace (k + 1)).cpu.writeEnable = 0 ∧ (trace (k + 1)).ram = (trace k).ram
  instruction : ∀ k < n, (trace k).cpu.state = codeOf .instructionFetch →
    ∃ i, StoresOnce rom n trace k i

section Traces

variable {rom : Cartridge.Rom} {options : MachineOptions} {n k : Nat} {trace : Nat → State}

/-- What an instruction has changed in RAM after some of its cycles. -/
theorem IsTrace.ram_of_bus (h : IsTrace rom options n trace)
    (hdecodes : ∀ k < n, (trace k).Decodes) {i : Instruction} {s : State}
    (hbus : ∀ j, 0 < j → j ≤ s.duration rom i → k + j ≤ n →
      BusCycle rom i s j (trace (k + j)).cpu) {j : Nat} (hj : j ≤ s.duration rom i)
    (hn : k + j ≤ n) {cell : BitVec 11} (hchanged : (trace (k + j)).ram cell ≠ (trace k).ram cell) :
    i.mnemonic ∈ ["STA", "STX", "STY"] ∧ s.duration rom i ≤ j + 1 ∧
      (s.effectiveAddress rom i.mode).toNat < 0x2000 ∧
      cell = (s.effectiveAddress rom i.mode).setWidth 11 := by
  induction j with
  | zero => exact absurd rfl hchanged
  | succ j ih =>
    by_cases hlast : (trace (k + j + 1)).ram cell = (trace (k + j)).ram cell
    · obtain ⟨hstore, hduration, hcell⟩ :=
        ih (Nat.le_of_succ_le hj) (Nat.le_of_succ_le hn) (hlast ▸ hchanged)
      exact ⟨hstore, Nat.le_succ_of_le hduration, hcell⟩
    · obtain ⟨c, hc, -⟩ := h.exists_next hdecodes (k + j) hn
      obtain ⟨haccesses, hbelow, hcell⟩ := (h.step (k + j) hn).stored hc hlast
      have hcycle := hbus (j + 1) (Nat.succ_pos j) hj hn
      have hwrite : (trace (k + j + 1)).cpu.writeEnable = 1 := by
        rw [(h.step (k + j) hn).cpu c hc]
        exact (Cpu.moves_of_next? hc).writes.2 haccesses
      obtain ⟨hstore, hduration⟩ := hcycle.writes.1 hwrite
      have haddress : (trace (k + j + 1)).cpu.addressBus = _ := hcycle.address hwrite
      rw [haddress] at hbelow hcell
      exact ⟨hstore, Nat.le_of_eq hduration.symm, hbelow, hcell⟩

/-- The instruction at a fetch. -/
theorem IsTrace.exists_storesOnce (h : IsTrace rom options n trace)
    (hdecodes : ∀ k < n, (trace k).Decodes) (hk : k < n)
    (hfetch : (trace k).cpu.state = codeOf .instructionFetch) :
    ∃ i, StoresOnce rom n trace k i := by
  have hboundary := h.boundary hdecodes (Nat.le_of_lt hk) hfetch
  obtain ⟨i, hi⟩ := Option.isSome_iff_exists.1 (hdecodes k hk hfetch)
  have hopcode := List.find?_some (p := fun j : Instruction => j.opcode == ⟨(trace k).dataIn⟩) hi
  have hfetches : Fetches rom i (trace k) :=
    ⟨hboundary, List.mem_of_find?_eq_some hi, by rw [beq_iff_eq.1 hopcode]⟩
  have hiterate : ∀ j, k + j ≤ n → (State.next rom)^[j] (trace k) = trace (k + j) :=
    fun j hj => (h.eq_iterate hdecodes hj).symm
  have hrealizes := hfetches.realizes_iterate
  have hbus : ∀ j, 0 < j → j ≤ (trace k).duration rom i → k + j ≤ n →
      BusCycle rom i (trace k) j (trace (k + j)).cpu := by
    intro j hpos hj hn
    rw [← hiterate j hn]
    refine hfetches.busCycle hpos hj fun l hl => ?_
    rw [hiterate l (by omega)]
    obtain ⟨c, hc, -⟩ := h.exists_next hdecodes (k + l) (by omega)
    exact ⟨c, hc⟩
  refine ⟨i, hfetches, fun j hpos hj hn => ?_, fun hn => ?_, hbus, fun j hj hn cell =>
    h.ram_of_bus hdecodes hbus hj hn⟩
  · rw [← hiterate j hn]
    exact hrealizes.inside j hpos hj
  · rw [← hiterate _ hn]
    exact hrealizes.boundary

theorem IsTrace.writesOnce (h : IsTrace rom options n trace)
    (hdecodes : ∀ k < n, (trace k).Decodes) : WritesOnce rom n trace := by
  have hwrites : ∀ k < n, (trace (k + 1)).cpu.writeEnable = 1 ↔ (trace k).cpu.Accesses := by
    intro k hk
    obtain ⟨c, hc, -⟩ := h.exists_next hdecodes k hk
    rw [(h.step k hk).cpu c hc]
    exact (Cpu.moves_of_next? hc).writes
  have hram : ∀ k < n, ∀ cell, (trace (k + 1)).ram cell ≠ (trace k).ram cell →
      Stored (trace k) (trace (k + 1)) cell := by
    intro k hk cell
    obtain ⟨c, hc, -⟩ := h.exists_next hdecodes k hk
    exact (h.step k hk).stored hc
  refine ⟨h.start.cpu.writeEnable, hwrites, hram, fun k hk hreset => ?_,
    fun k hk => h.exists_storesOnce hdecodes hk⟩
  have hidle := Cpu.not_accesses (.inl rfl) hreset
  refine ⟨(BitVec.eq_zero_or_eq_one _).resolve_right fun hwrite => hidle ((hwrites k hk).1 hwrite),
    funext fun cell => ?_⟩
  by_contra hchanged
  exact hidle (hram k hk cell hchanged).accesses

end Traces

/-- In every run from power on that decodes implemented opcodes only, the processor writes in the
cycle in which a store accesses its operand, at the effective address and with the register of the
store, and in no other cycle; RAM changes by these writes only. -/
theorem writesOnce_of_satisfies {rom : Cartridge.Rom} {options : MachineOptions} {log : Log}
    {sys : Machine} (hsys : Machine.ofRom rom options log = .ok sys)
    (hsize : ∀ data, options.ram = some data → data.size ≤ ramSize) (n : Nat) :
    ∃ sys₀ sysₙ, sys.powerOn = (sys₀, .ok ()) ∧ sys₀.run n = (sysₙ, .ok ()) ∧
      ∀ I : Interpretation, I.Fits sysₙ.formula.signature → I.Satisfies sysₙ.formula →
        ∃ trace, IsTrace rom options n trace ∧ ShowsTrace rom n trace I ∧
          ((∀ k < n, (trace k).Decodes) → WritesOnce rom n trace) := by
  obtain ⟨sys₀, sysₙ, hpower, hrun, helapsed⟩ := exists_elapsed hsys hsize n
  refine ⟨sys₀, sysₙ, hpower, hrun, fun I fits hsat => ?_⟩
  obtain ⟨trace, htrace, hshows, -⟩ := (helapsed.describes I fits).1 hsat
  exact ⟨trace, htrace, hshows, htrace.writesOnce⟩

/-- A RAM of stores to `0x85`: the accumulator is written in the tenth cycle, after eight cycles of
the reset. -/
theorem writesOnce_of_satisfies_stores : ∃ sys sys₀ sys₁₁,
    Machine.ofRom ⟨"", 0, Bytes.zeros 16384⟩
      { registers := some { a := 0x42 }, ram := some ⟨Array.replicate 2048 0x85⟩ } = .ok sys ∧
    sys.powerOn = (sys₀, .ok ()) ∧ sys₀.run 11 = (sys₁₁, .ok ()) ∧
      (∃ I : Interpretation, I.Fits sys₁₁.formula.signature ∧ I.Satisfies sys₁₁.formula) ∧
      ∀ I : Interpretation, I.Fits sys₁₁.formula.signature → I.Satisfies sys₁₁.formula →
        ∃ trace, ShowsTrace ⟨"", 0, Bytes.zeros 16384⟩ 11 trace I ∧
          WritesOnce ⟨"", 0, Bytes.zeros 16384⟩ 11 trace ∧
          (trace 9).cpu.writeEnable = 0 ∧ (trace 10).cpu.writeEnable = 1 ∧
          (trace 11).cpu.writeEnable = 0 ∧ (trace 11).ram 0x85 = 0x42 := by
  have hbank : (Bytes.zeros 16384).size = Cartridge.bankSize := Array.size_replicate
  have hsize : ByteArray.size ⟨Array.replicate 2048 0x85⟩ = ramSize := Array.size_replicate
  have hm : Cartridge.Mapper.ofRom ⟨"", 0, Bytes.zeros 16384⟩ =
      .ok ⟨⟨"", 0, Bytes.zeros 16384⟩, 14⟩ := by
    rw [Cartridge.Mapper.ofRom, if_neg (by simp), if_pos hbank]
  obtain ⟨sys, hsys, -⟩ := exists_ofRom hm
    { registers := some { a := 0x42 }, ram := some ⟨Array.replicate 2048 0x85⟩ } .central
  have hle : ∀ data : ByteArray, some ⟨Array.replicate 2048 0x85⟩ = some data →
      data.size ≤ ramSize := fun data hdata => Option.some.inj hdata ▸ Nat.le_of_eq hsize
  have himplemented : Implemented ⟨"", 0, Bytes.zeros 16384⟩ { a := 0x42 }
      ⟨Array.replicate 2048 0x85⟩ 11 := by
    simp only [Implemented, run_zeros]
    decide +kernel
  obtain ⟨sys₀, sys₁₁, hpower, hruns, hall⟩ := writesOnce_of_satisfies hsys hle 11
  obtain ⟨_, _, hpower', hruns', helapsed⟩ := exists_elapsed hsys hle 11
  cases hpower.symm.trans hpower'
  cases hruns.symm.trans hruns'
  refine ⟨sys, sys₀, sys₁₁, hsys, hpower, hruns, ⟨_, helapsed.fits _, (helapsed.describes _
    (helapsed.fits _)).2 ⟨_, isTrace_run rfl rfl (Nat.le_of_eq hsize) 11,
      showsTrace_interpretation .., trivial⟩⟩, fun I fits hsat => ?_⟩
  obtain ⟨trace, htrace, hshows, honce⟩ := hall I fits hsat
  have heq : ∀ k ≤ 11, trace k = run ⟨"", 0, Bytes.zeros 16384⟩ { a := 0x42 }
      ⟨Array.replicate 2048 0x85⟩ k :=
    fun k hk => eq_run_of_isTrace rfl rfl hsize htrace hk fun j hj =>
      run_next?_isSome himplemented j (Nat.lt_of_lt_of_le hj hk)
  refine ⟨trace, hshows, honce fun k hk => ?_, ?_⟩
  · rw [heq k (Nat.le_of_lt hk)]
    exact himplemented k hk
  · rw [heq 9 (by decide), heq 10 (by decide), heq 11 (by decide), run_zeros]
    decide +kernel

end CycleCheck.Cycle

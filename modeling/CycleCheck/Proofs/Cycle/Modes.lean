import CycleCheck.Proofs.Cycle.Execution

/-!
The cycles of the addressing modes. Each mode gets to the access of the operand at its effective
address, in the cycles of the instruction but the last one.
-/

namespace CycleCheck.Cycle

open Processor

variable {rom : Cartridge.Rom} {i : Instruction} {s : State}

/-- The instruction that is decoded next. -/
structure Fetches (rom : Cartridge.Rom) (i : Instruction) (s : State) : Prop
    extends Boundary rom s where
  mem : i ∈ Instruction.table
  opcode : s.dataIn = i.opcode.toBitVec

theorem Fetches.next?_eq (h : Fetches rom i s) : s.cpu.next? s.dataIn = some (s.cpu.decode i) := by
  have hlookup : Instruction.lookup? i.opcode = some i := find?_table nodup_opcodes h.mem
  rw [Cpu.next?_instructionFetch h.state, h.opcode, hlookup]
  rfl

/-- The first cycle reads the operand. -/
theorem Fetches.inside (h : Fetches rom i s) (hmode : i.mode ≠ .implied) :
    Inside rom s 1 ⟨s.cpu.fetch.goto (.cycle i.label 1), s.operand rom, s.ram⟩ := by
  have hdecode := h.next?_eq
  rw [Cpu.decode, if_neg hmode] at hdecode
  exact (Inside.snoc .refl hdecode (codeOf_ne (first_cycle_mem h.mem) (by simp))).of_read rfl rfl

/-! ## Modes without a carry -/

theorem approaches_immediate (h : Fetches rom i s) (hmode : i.mode = .immediate)
    (heffect : i.effect = .read) : Approaches rom i s 1 s.cpu.pc (s.cpu.pc + 1) := by
  have hinside := h.inside (by simp [hmode])
  refine ⟨{ s.cpu with pc := s.cpu.pc + 1 }, 1, (Keeps.refl _).of_eq rfl rfl rfl rfl rfl, rfl,
    first_cycle_mem h.mem, fun b d => Cpu.cycle?_immediate hmode d, ?_⟩
  rw [Cpu.access, heffect, after_of_read rfl]
  exact hinside

theorem approaches_zeroPage (h : Fetches rom i s) (hmode : i.mode = .zeroPage) :
    Approaches rom i s 2 (0#8 ++ s.operand rom) (s.cpu.pc + 1) := by
  have hsecond : .cycle i.label 2 ∈ microStates :=
    mem_of_schedule h.mem (by simp [schedule?, hmode])
  have hinside := (h.inside (by simp [hmode])).cycle h.mem (first_cycle_mem h.mem) rfl
    (Cpu.cycle?_zeroPage hmode _).1 hsecond (by simp)
  exact ⟨_, 2, (Keeps.refl _).fetch.goto _, rfl, hsecond,
    fun b d => (Cpu.cycle?_zeroPage hmode d).2, hinside⟩

theorem approaches_zeroPageIndexed (h : Fetches rom i s)
    (hmode : i.mode = .zeroPageIndexedX ∨ i.mode = .zeroPageIndexedY) :
    Approaches rom i s 3 (0#8 ++ (s.operand rom + s.cpu.index i.mode)) (s.cpu.pc + 1) := by
  have hsecond : .cycle i.label 2 ∈ microStates := by
    rcases hmode with hmode | hmode <;> exact mem_of_schedule h.mem (by simp [schedule?, hmode])
  have hthird : .cycle i.label 3 ∈ microStates := by
    rcases hmode with hmode | hmode <;> exact mem_of_schedule h.mem (by simp [schedule?, hmode])
  have hne : i.mode ≠ .implied := by rcases hmode with hmode | hmode <;> simp [hmode]
  let c := s.cpu.fetch.goto (.cycle i.label 1)
  let based := Cpu.goto { c.read (0#8 ++ s.operand rom) with tempAddress := 0#8 ++ s.operand rom }
    (.cycle i.label 2)
  have hlow : based.low = s.operand rom := setWidth_append_byte _ _
  have hkeeps : Keeps s.cpu based :=
    ((((Keeps.refl _).fetch.goto _).read _).set_tempAddress _).goto _
  have hbased : Inside rom s 2 (after rom s.ram based) := (h.inside hne).cycle h.mem
    (first_cycle_mem h.mem) rfl (Cpu.cycle?_zeroPageIndexed hmode _).1 hsecond (by simp)
  have hinside := (hbased.of_read rfl rfl).cycle h.mem hsecond rfl
    (Cpu.cycle?_zeroPageIndexed hmode _).2.1 hthird (by simp)
  rw [hlow, hkeeps.index] at hinside
  exact ⟨based, 3, hkeeps, rfl, hthird,
    fun b d => (Cpu.cycle?_zeroPageIndexed hmode d).2.2, hinside⟩

theorem approaches_absolute (h : Fetches rom i s) (hmode : i.mode = .absolute) :
    Approaches rom i s 3 (s.operandWord rom) (s.cpu.pc + 1 + 1) := by
  have hsecond : .cycle i.label 2 ∈ microStates :=
    mem_of_schedule h.mem (by simp [schedule?, hmode])
  have hthird : .cycle i.label 3 ∈ microStates :=
    mem_of_schedule h.mem (by simp [schedule?, hmode])
  let c := s.cpu.fetch.goto (.cycle i.label 1)
  let based := Cpu.goto { c.fetch with tempAddress := 0#8 ++ s.operand rom } (.cycle i.label 2)
  have hlow : based.low = s.operand rom := setWidth_append_byte _ _
  have haddress : based.addressBus = s.cpu.pc + 1 := rfl
  have hbased : Inside rom s 2 (after rom s.ram based) := (h.inside (by simp [hmode])).cycle h.mem
    (first_cycle_mem h.mem) rfl (Cpu.cycle?_absolute hmode _).1 hsecond (by simp)
  have hinside := (hbased.of_read rfl haddress).cycle h.mem hsecond rfl
    (Cpu.cycle?_absolute hmode _).2.1 hthird (by simp)
  rw [hlow] at hinside
  exact ⟨based, 3, ((((Keeps.refl _).fetch.goto _).fetch).set_tempAddress _).goto _, rfl, hthird,
    fun b d => (Cpu.cycle?_absolute hmode d).2.2, hinside⟩

theorem approaches_indexedIndirect (h : Fetches rom i s) (hmode : i.mode = .indexedIndirect) :
    Approaches rom i s 5 (s.pointer rom (s.operand rom + s.cpu.x)) (s.cpu.pc + 1) := by
  have hmem : ∀ k ∈ [2, 3, 4, 5], .cycle i.label k ∈ microStates := by
    intro k hk
    refine mem_of_schedule h.mem ?_
    simp only [List.mem_cons, List.not_mem_nil, or_false] at hk
    rcases hk with rfl | rfl | rfl | rfl <;> simp [schedule?, hmode]
  let c₁ := s.cpu.fetch.goto (.cycle i.label 1)
  let c₂ := Cpu.goto { c₁.read (0#8 ++ s.operand rom) with tempPointer := s.operand rom }
    (.cycle i.label 2)
  let p := s.operand rom + s.cpu.x
  let c₃ := Cpu.goto { c₂.read (0#8 ++ p) with tempPointer := p } (.cycle i.label 3)
  let c₄ := Cpu.goto { c₃.read (0#8 ++ (p + 1)) with
    tempAddress := 0#8 ++ peek rom s.ram (0#8 ++ p) } (.cycle i.label 4)
  have hlow : c₄.low = peek rom s.ram (0#8 ++ p) := setWidth_append_byte _ _
  have h₂ : Inside rom s 2 (after rom s.ram c₂) := (h.inside (by simp [hmode])).cycle h.mem
    (first_cycle_mem h.mem) rfl (Cpu.cycle?_indexedIndirect hmode _).1 (hmem 2 (by simp)) (by simp)
  have h₃ : Inside rom s 3 (after rom s.ram c₃) := (h₂.of_read rfl rfl).cycle h.mem
    (hmem 2 (by simp)) rfl (Cpu.cycle?_indexedIndirect hmode _).2.1 (hmem 3 (by simp)) (by simp)
  have h₄ : Inside rom s 4 (after rom s.ram c₄) := (h₃.of_read rfl rfl).cycle h.mem
    (hmem 3 (by simp)) rfl (Cpu.cycle?_indexedIndirect hmode _).2.2.1 (hmem 4 (by simp)) (by simp)
  have h₅ := (h₄.of_read rfl rfl).cycle h.mem (hmem 4 (by simp)) rfl
    (Cpu.cycle?_indexedIndirect hmode _).2.2.2.1 (hmem 5 (by simp)) (by simp)
  have k₂ : Keeps s.cpu c₂ := ((((Keeps.refl _).fetch.goto _).read _).set_tempPointer _).goto _
  have k₃ : Keeps s.cpu c₃ := ((k₂.read _).set_tempPointer _).goto _
  rw [hlow] at h₅
  exact ⟨c₄, 5, ((k₃.read _).set_tempAddress _).goto _, rfl, hmem 5 (by simp),
    fun b d => (Cpu.cycle?_indexedIndirect hmode d).2.2.2.2, h₅⟩

/-! ## Modes with a carry -/

/-- The cycle that adds the index, and the cycle that corrects the address unless it is left out. -/
theorem approaches_addIndex (hi : i ∈ Instruction.table) {n k l : Nat} {c : Cpu} {d low : BitVec 8}
    (hinside : Inside rom s n ⟨c, d, s.ram⟩) (hkeeps : Keeps s.cpu c) (hlow : c.low = low)
    (hk : .cycle i.label k ∈ microStates) (hc : c.state = codeOf (.cycle i.label k))
    (hfixup : .fixup i.label k ∈ microStates) (hl : .cycle i.label l ∈ microStates)
    (hadd : c.cycle? i k d = some (c.addIndex i d (.cycle i.label l) (.fixup i.label k)))
    (hcorrect : ∀ b : Cpu, b.fixup? i k =
      some ((b.access i (b.tempAddress + (b.index i.mode).setWidth 16)).goto (.cycle i.label l)))
    (hlast : ∀ (b : Cpu) (d : BitVec 8), b.cycle? i l d = some (b.finish i d)) :
    Approaches rom i s
      (if i.pageSensitive ∧ low.toNat + (s.cpu.index i.mode).toNat < 0x100 then n + 1 else n + 2)
      ((d ++ low) + (s.cpu.index i.mode).setWidth 16) c.pc := by
  subst hlow
  let based := { c with tempAddress := d ++ c.low }
  have hbased : Keeps s.cpu based := hkeeps.set_tempAddress _
  rw [Cpu.addIndex, hkeeps.index] at hadd
  by_cases hskip : i.pageSensitive ∧ c.low.toNat + (s.cpu.index i.mode).toNat < 0x100
  · rw [if_pos hskip] at hadd ⊢
    rw [← append_add_byte _ _ _ hskip.2]
    exact ⟨based, l, hbased, rfl, hl, hlast, hinside.cycle hi hk hc hadd hl (by simp)⟩
  · rw [if_neg hskip] at hadd ⊢
    let wrong := (based.read (d ++ (c.low + s.cpu.index i.mode))).goto (.fixup i.label k)
    have hwrong : Keeps s.cpu wrong := (hbased.read _).goto _
    have hread : Inside rom s (n + 1) (after rom s.ram wrong) :=
      hinside.cycle hi hk hc hadd hfixup (by simp)
    have hfixed := (hread.of_read rfl rfl).fixup hi hfixup rfl (hcorrect wrong) hl (by simp)
    rw [hwrong.index] at hfixed
    exact ⟨wrong, l, hwrong, rfl, hl, hlast, hfixed⟩

theorem approaches_absoluteIndexed (h : Fetches rom i s)
    (hmode : i.mode = .absoluteIndexedX ∨ i.mode = .absoluteIndexedY) :
    Approaches rom i s
      (if i.pageSensitive ∧
          (s.operand rom).toNat + (s.cpu.index i.mode).toNat < 0x100 then 3 else 4)
      (s.operandWord rom + (s.cpu.index i.mode).setWidth 16) (s.cpu.pc + 1 + 1) := by
  have hmem : ∀ m ∈ [.cycle i.label 2, .fixup i.label 2, .cycle i.label 3], m ∈ microStates := by
    intro m hm
    refine mem_of_schedule h.mem ?_
    rcases hmode with hmode | hmode <;> simp only [schedule?, hmode, Option.getD_some] <;>
      exact List.mem_cons_of_mem _ hm
  have hne : i.mode ≠ .implied := by rcases hmode with hmode | hmode <;> simp [hmode]
  have hsecond := hmem (.cycle i.label 2) (by simp)
  let c := s.cpu.fetch.goto (.cycle i.label 1)
  let based := Cpu.goto { c.fetch with tempAddress := 0#8 ++ s.operand rom } (.cycle i.label 2)
  have hkeeps : Keeps s.cpu based :=
    ((((Keeps.refl _).fetch.goto _).fetch).set_tempAddress _).goto _
  have haddress : based.addressBus = s.cpu.pc + 1 := rfl
  have hbased : Inside rom s 2 (after rom s.ram based) := (h.inside hne).cycle h.mem
    (first_cycle_mem h.mem) rfl (Cpu.cycle?_absoluteIndexed hmode _).1 hsecond (by simp)
  exact approaches_addIndex h.mem (hbased.of_read rfl haddress) hkeeps (setWidth_append_byte _ _)
    hsecond rfl (hmem _ (by simp)) (hmem _ (by simp)) (Cpu.cycle?_absoluteIndexed hmode _).2.1
    (fun b => (Cpu.cycle?_absoluteIndexed hmode 0).2.2.1)
    (fun b d => (Cpu.cycle?_absoluteIndexed hmode d).2.2.2)

theorem approaches_indirectIndexed (h : Fetches rom i s) (hmode : i.mode = .indirectIndexed) :
    Approaches rom i s
      (if i.pageSensitive ∧
          (peek rom s.ram (0#8 ++ s.operand rom)).toNat + s.cpu.y.toNat < 0x100 then 4 else 5)
      (s.pointer rom (s.operand rom) + s.cpu.y.setWidth 16) (s.cpu.pc + 1) := by
  have hmem : ∀ m ∈ [.cycle i.label 2, .cycle i.label 3, .fixup i.label 3, .cycle i.label 4],
      m ∈ microStates := by
    intro m hm
    refine mem_of_schedule h.mem ?_
    simp only [schedule?, hmode, Option.getD_some]
    exact List.mem_cons_of_mem _ hm
  have hsecond := hmem (.cycle i.label 2) (by simp)
  have hthird := hmem (.cycle i.label 3) (by simp)
  let c₁ := s.cpu.fetch.goto (.cycle i.label 1)
  let p := s.operand rom
  let c₂ := Cpu.goto { c₁.read (0#8 ++ p) with tempPointer := p } (.cycle i.label 2)
  let c₃ := Cpu.goto { c₂.read (0#8 ++ (p + 1)) with
    tempAddress := 0#8 ++ peek rom s.ram (0#8 ++ p) } (.cycle i.label 3)
  have k₂ : Keeps s.cpu c₂ := ((((Keeps.refl _).fetch.goto _).read _).set_tempPointer _).goto _
  have k₃ : Keeps s.cpu c₃ := ((k₂.read _).set_tempAddress _).goto _
  have h₂ : Inside rom s 2 (after rom s.ram c₂) := (h.inside (by simp [hmode])).cycle h.mem
    (first_cycle_mem h.mem) rfl (Cpu.cycle?_indirectIndexed hmode _).1 hsecond (by simp)
  have h₃ : Inside rom s 3 (after rom s.ram c₃) := (h₂.of_read rfl rfl).cycle h.mem hsecond rfl
    (Cpu.cycle?_indirectIndexed hmode _).2.1 hthird (by simp)
  have hindex : s.cpu.index i.mode = s.cpu.y := by rw [hmode]; rfl
  have happroaches := approaches_addIndex h.mem (h₃.of_read rfl rfl) k₃ (setWidth_append_byte _ _)
    hthird rfl (hmem _ (by simp)) (hmem _ (by simp)) (Cpu.cycle?_indirectIndexed hmode _).2.2.1
    (fun b => (Cpu.cycle?_indirectIndexed hmode 0).2.2.2.1)
    (fun b d => (Cpu.cycle?_indirectIndexed hmode d).2.2.2.2)
  rw [hindex] at happroaches
  exact happroaches

/-! ## Implied operands -/

theorem Cpu.keeps_setFlag (c : Cpu) (i : Instruction) :
    (∀ r, (c.setFlag i).get r = c.get r) ∧ (c.setFlag i).sp = c.sp ∧ (c.setFlag i).pc = c.pc := by
  unfold Cpu.setFlag
  cases flagOf i.mnemonic with
  | none => exact ⟨fun _ => rfl, rfl, rfl⟩
  | some operation => exact ⟨fun r => by cases r <;> rfl, rfl, rfl⟩

theorem Cpu.getLsbD_setFlag (c : Cpu) {i : Instruction} {flag : Flag} {on : Bool}
    (h : flagOf i.mnemonic = some (flag, on)) (b : Nat) :
    (c.setFlag i).p.getLsbD b = if b = flag.bit then on else c.p.getLsbD b := by
  have hbit : flag.bit < 8 := by cases flag <;> decide
  rw [Cpu.setFlag, h]
  exact getLsbD_setBit c.p hbit on b

theorem completes_implied (h : Fetches rom i s) (hmode : i.mode = .implied)
    (heffect : i.effect = .internal) (address : BitVec 16) :
    Completes rom i s 1 address (s.cpu.pc + 1) := by
  have hdecode := h.next?_eq
  rw [Cpu.decode, if_pos hmode] at hdecode
  let c := (s.cpu.read s.cpu.pc).goto (.cycle i.label 1)
  have hinside : Inside rom s 1 (after rom s.ram c) :=
    .snoc .refl hdecode (codeOf_ne (first_cycle_mem h.mem) (by simp))
  have hkeeps : Keeps s.cpu c := ((Keeps.refl _).read _).goto _
  obtain ⟨hget, hsp, hpc⟩ := c.keeps_setFlag i
  have hfetch := ((Keeps.refl (c.setFlag i)).fetch.goto .instructionFetch)
  refine ⟨_, (c.setFlag i).fetch.goto .instructionFetch, hinside.of_read rfl rfl, ?_,
    boundary_fetch .., congrArg (· + 1) hpc, ?_⟩
  · exact (Cpu.next?_cycle h.mem (first_cycle_mem h.mem) rfl _).trans (Cpu.cycle?_implied hmode _)
  · rw [after_of_read rfl]
    refine ⟨hsp, by simp [heffect], by simp [heffect], fun _ => ⟨fun r => ?_, rfl⟩,
      fun _ flag on hflag b => c.getLsbD_setFlag hflag b, fun _ hnone => ?_⟩
    · exact (hfetch.get r).trans ((hget r).trans (hkeeps.get r))
    · refine hfetch.p.trans ?_
      rw [Cpu.setFlag, hnone]
      exact hkeeps.p

/-! ## All instructions -/

theorem completes_of_access {n : Nat} {address pc : BitVec 16} (hi : i ∈ Instruction.table)
    (heffect : i.effect = .read ∨ i.effect = .write) (h : Approaches rom i s n address pc) :
    Completes rom i s n address (pc + 1) := by
  rcases heffect with heffect | heffect
  · exact completes_of_load hi heffect h
  · exact completes_of_store hi heffect h

/-- The bytes and cycles of an instruction. -/
theorem table_shape : ∀ i ∈ Instruction.table,
    (i.mode = .implied → i.bytes = 1 ∧ i.cycles = 2) ∧
    (i.mode = .immediate → i.bytes = 2 ∧ i.cycles = 2) ∧
    (i.mode = .zeroPage → i.bytes = 2 ∧ i.cycles = 3) ∧
    (i.mode = .zeroPageIndexedX ∨ i.mode = .zeroPageIndexedY → i.bytes = 2 ∧ i.cycles = 4) ∧
    (i.mode = .absolute → i.bytes = 3 ∧ i.cycles = 4) ∧
    (i.mode = .absoluteIndexedX ∨ i.mode = .absoluteIndexedY →
      i.bytes = 3 ∧ i.cycles = if i.pageSensitive then 4 else 5) ∧
    (i.mode = .indexedIndirect → i.bytes = 2 ∧ i.cycles = 6) ∧
    (i.mode = .indirectIndexed → i.bytes = 2 ∧ i.cycles = if i.pageSensitive then 5 else 6) := by
  decide +kernel

theorem table_effect : ∀ i ∈ Instruction.table, (schedule? i).isSome ∧
    (i.mode = .implied → i.effect = .internal) ∧ (i.mode = .immediate → i.effect = .read) ∧
    (i.mode ≠ .implied → i.effect = .read ∨ i.effect = .write) := by
  decide +kernel

theorem State.duration_eq {n : Nat} (hcycles : i.cycles = n + 1)
    (hcross : s.crosses rom i.mode = false) : s.duration rom i = n + 1 := by
  rw [State.duration, hcycles, hcross]
  simp

/-- The cycles of modes with a carry: the correction is left out only without a carry. -/
theorem State.duration_eq_of_carry {n : Nat} {low index : BitVec 8}
    (hcycles : i.cycles = if i.pageSensitive then (n + 1 : Int) else n + 2)
    (hcross : s.crosses rom i.mode = decide (0x100 ≤ low.toNat + index.toNat)) :
    s.duration rom i =
      (if i.pageSensitive ∧ low.toNat + index.toNat < 0x100 then n else n + 1) + 1 := by
  rw [State.duration, hcycles, hcross]
  cases i.pageSensitive
  · simp
    omega
  · by_cases hlt : low.toNat + index.toNat < 0x100
    · simp [hlt]
    · simp [hlt]

/-- An instruction with an operand gets to its access in all its cycles but one. -/
theorem approaches_of_fetches (h : Fetches rom i s) (hmode : i.mode ≠ .implied) :
    ∃ n pc, s.duration rom i = n + 1 ∧ pc + 1 = s.cpu.pc + .ofInt 16 i.bytes ∧
      Approaches rom i s n (s.effectiveAddress rom i.mode) pc := by
  obtain ⟨-, himmediate, hzero, hzeroIndexed, habsolute, habsoluteIndexed, hindexed,
    hindirect⟩ := table_shape i h.mem
  obtain ⟨hschedule, -, hread, -⟩ := table_effect i h.mem
  have htwo : s.cpu.pc + 1 + 1 = s.cpu.pc + .ofInt 16 2 := BitVec.add_assoc ..
  have hthree : s.cpu.pc + 1 + 1 + 1 = s.cpu.pc + .ofInt 16 3 := by
    rw [htwo]
    exact BitVec.add_assoc ..
  -- what an access says, with the address as the mode gives it
  have hassemble : ∀ {n : Nat} {address pc : BitVec 16}, Approaches rom i s n address pc →
      s.duration rom i = n + 1 → address = s.effectiveAddress rom i.mode →
      pc + 1 = s.cpu.pc + .ofInt 16 i.bytes → ∃ n pc, s.duration rom i = n + 1 ∧
        pc + 1 = s.cpu.pc + .ofInt 16 i.bytes ∧
          Approaches rom i s n (s.effectiveAddress rom i.mode) pc :=
    fun happroaches hduration haddress hpc => ⟨_, _, hduration, hpc, haddress ▸ happroaches⟩
  cases hcase : i.mode with
  | implied => exact absurd hcase hmode
  | immediate =>
    obtain ⟨hbytes, hcycles⟩ := himmediate hcase
    rw [← hcase]
    exact hassemble (approaches_immediate h hcase (hread hcase))
      (State.duration_eq hcycles (by rw [hcase]; rfl)) (by rw [hcase]; rfl) (by rw [hbytes, htwo])
  | zeroPage =>
    obtain ⟨hbytes, hcycles⟩ := hzero hcase
    rw [← hcase]
    exact hassemble (approaches_zeroPage h hcase)
      (State.duration_eq hcycles (by rw [hcase]; rfl)) (by rw [hcase]; rfl) (by rw [hbytes, htwo])
  | zeroPageIndexedX =>
    obtain ⟨hbytes, hcycles⟩ := hzeroIndexed (.inl hcase)
    rw [← hcase]
    exact hassemble (approaches_zeroPageIndexed h (.inl hcase))
      (State.duration_eq hcycles (by rw [hcase]; rfl)) (by rw [hcase]; rfl) (by rw [hbytes, htwo])
  | zeroPageIndexedY =>
    obtain ⟨hbytes, hcycles⟩ := hzeroIndexed (.inr hcase)
    rw [← hcase]
    exact hassemble (approaches_zeroPageIndexed h (.inr hcase))
      (State.duration_eq hcycles (by rw [hcase]; rfl)) (by rw [hcase]; rfl) (by rw [hbytes, htwo])
  | absolute =>
    obtain ⟨hbytes, hcycles⟩ := habsolute hcase
    rw [← hcase]
    exact hassemble (approaches_absolute h hcase)
      (State.duration_eq hcycles (by rw [hcase]; rfl)) (by rw [hcase]; rfl)
      (by rw [hbytes, hthree])
  | absoluteIndexedX =>
    obtain ⟨hbytes, hcycles⟩ := habsoluteIndexed (.inl hcase)
    rw [← hcase]
    exact hassemble (approaches_absoluteIndexed h (.inl hcase))
      (State.duration_eq_of_carry hcycles (by rw [hcase]; rfl)) (by rw [hcase]; rfl)
      (by rw [hbytes, hthree])
  | absoluteIndexedY =>
    obtain ⟨hbytes, hcycles⟩ := habsoluteIndexed (.inr hcase)
    rw [← hcase]
    exact hassemble (approaches_absoluteIndexed h (.inr hcase))
      (State.duration_eq_of_carry hcycles (by rw [hcase]; rfl)) (by rw [hcase]; rfl)
      (by rw [hbytes, hthree])
  | indexedIndirect =>
    obtain ⟨hbytes, hcycles⟩ := hindexed hcase
    rw [← hcase]
    exact hassemble (approaches_indexedIndirect h hcase)
      (State.duration_eq hcycles (by rw [hcase]; rfl)) (by rw [hcase]; rfl) (by rw [hbytes, htwo])
  | indirectIndexed =>
    obtain ⟨hbytes, hcycles⟩ := hindirect hcase
    rw [← hcase]
    exact hassemble (approaches_indirectIndexed h hcase)
      (State.duration_eq_of_carry hcycles (by rw [hcase]; rfl)) (by rw [hcase]; rfl)
      (by rw [hbytes, htwo])
  | other => simp [schedule?, hcase] at hschedule

theorem duration_implied (h : i ∈ Instruction.table) (hmode : i.mode = .implied) (s : State) :
    s.duration rom i = 2 :=
  State.duration_eq ((table_shape i h).1 hmode).2 (by rw [hmode]; rfl)

/-- An instruction completes in its cycles. -/
theorem completes_of_fetches (h : Fetches rom i s) : ∃ n, s.duration rom i = n + 1 ∧
    Completes rom i s n (s.effectiveAddress rom i.mode) (s.cpu.pc + .ofInt 16 i.bytes) := by
  obtain ⟨-, hinternal, -, heffect⟩ := table_effect i h.mem
  by_cases hmode : i.mode = .implied
  · obtain ⟨hbytes, -⟩ := (table_shape i h.mem).1 hmode
    refine ⟨1, duration_implied h.mem hmode s, ?_⟩
    rw [hbytes]
    exact completes_implied h hmode (hinternal hmode) _
  · obtain ⟨n, pc, hduration, hpc, happroaches⟩ := approaches_of_fetches h hmode
    rw [← hpc]
    exact ⟨n, hduration, completes_of_access h.mem (heffect hmode) happroaches⟩

end CycleCheck.Cycle

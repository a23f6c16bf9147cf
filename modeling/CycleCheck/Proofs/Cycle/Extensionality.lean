import CycleCheck.Proofs.Cycle.Stalled
import CycleCheck.Proofs.Propagation.Answers

/-!
Extensionality is a matter of encoding. RAM is compared as a whole or cell by cell, but the formula
has the same models. Propagation gets to know RAM as one array made of another or by its cells, but
with known registers and a full RAM it gives the same answer, also after further assertions about
registers and cells.
-/

namespace CycleCheck.Cycle

open Processor Memory Propagation

variable {rom : Cartridge.Rom} {options options' : MachineOptions} {log : Log} {k n : Nat}
  {sys sys' sys₀ sysₙ : Machine} {r : Registers} {image : ByteArray}

/-! ## Compilation -/

/-- The formula after power on and a number of cycles. -/
def formulaAfter (rom : Cartridge.Rom) (options : MachineOptions) (log : Log) (n : Nat) :
    Except MachineError Formula :=
  match Machine.ofRom rom options log with
  | .error e => .error e
  | .ok sys =>
      match sys.powerOn with
      | (_, .error e) => .error e
      | (sys₀, .ok ()) =>
          match sys₀.run n with
          | (_, .error e) => .error e
          | (sysₙ, .ok ()) => .ok sysₙ.formula

/-- A ROM that has a mapper and a content that fits into RAM. -/
structure Compilable (rom : Cartridge.Rom) (options : MachineOptions) : Prop where
  mapper : ∃ m, Cartridge.Mapper.ofRom rom = .ok m
  size : ∀ data, options.ram = some data → data.size ≤ ramSize

/-- The machine of a ROM that can be compiled. -/
theorem Compilable.exists_elapsed (h : Compilable rom options) (log : Log) (n : Nat) :
    ∃ sys sys₀ sysₙ, Machine.ofRom rom options log = .ok sys ∧ sys.powerOn = (sys₀, .ok ()) ∧
      sys₀.run n = (sysₙ, .ok ()) ∧ Elapsed rom options n sysₙ ∧
      formulaAfter rom options log n = .ok sysₙ.formula := by
  obtain ⟨m, hm⟩ := h.mapper
  obtain ⟨sys, hsys, -⟩ := exists_ofRom hm options log
  obtain ⟨sys₀, sysₙ, hpower, hrun, helapsed⟩ := Cycle.exists_elapsed hsys h.size n
  refine ⟨sys, sys₀, sysₙ, hsys, hpower, hrun, helapsed, ?_⟩
  simp only [formulaAfter, hsys, hpower, hrun]

/-- Without a mapper or with a content that does not fit there is an error, which does not depend on
the encoding. -/
theorem exists_error_of_not_compilable (h : ¬ Compilable rom options) (log : Log) (n : Nat) :
    ∃ e, ∀ b, formulaAfter rom { options with extensionality := b } log n = .error e := by
  cases hm : Cartridge.Mapper.ofRom rom with
  | error e =>
    refine ⟨.mapper e, fun b => ?_⟩
    rw [formulaAfter, Machine.ofRom, hm]
    rfl
  | ok m =>
    have hlarge : ∃ data, options.ram = some data ∧ ramSize < data.size := by
      by_contra hnone
      refine h ⟨⟨m, hm⟩, fun data hdata => ?_⟩
      by_contra hsize
      exact hnone ⟨data, hdata, Nat.lt_of_not_le hsize⟩
    obtain ⟨data, hdata, hsize⟩ := hlarge
    obtain ⟨e, he⟩ : ∃ e, Ram.contents 0 data = .error e := by
      unfold Ram.contents
      rw [if_pos (by omega)]
      exact ⟨_, rfl⟩
    refine ⟨.contents e, fun b => ?_⟩
    obtain ⟨sys, hsys, hassembled⟩ := exists_ofRom hm { options with extensionality := b } log
    have hblocks : sys.powerOnBlocks = .error (.contents e) := by
      rw [Machine.powerOnBlocks, hassembled.options]
      simp only [hdata, he]
      rfl
    have hpower : sys.powerOn = (sys, .error (.contents e)) := by
      rw [Machine.powerOn, hassembled.off, hblocks]
      rfl
    simp only [formulaAfter, hsys, hpower]

/-! ## Machines of the same ROM -/

/-- A machine declares all versions of its wires. -/
theorem Elapsed.mem_signature_iff (h : Elapsed rom options n sys) (y : String) (j : Kind) :
    (y, j) ∈ sys.formula.signature ↔
      shown sys.mapper.addressBits n sys.timeline y j := by
  have hscope := scope_eq_shown sys.mapper.addressBits h.timeline (Nat.le_refl n)
    fun y hy => Formula.not_mem_signature_truth _ y ((h.accounted.scope_iff _ _).1 hy)
  rw [← hscope, h.accounted.scope_iff]

theorem Elapsed.addressBits_eq (h : Elapsed rom options n sys) (h' : Elapsed rom options' n sys') :
    sys.mapper.addressBits = sys'.mapper.addressBits := by
  rw [h.mapper.addressBits, h'.mapper.addressBits]

/-- What is known depends on the ROM and on the number of cycles. -/
theorem Elapsed.shown_eq (h : Elapsed rom options n sys) (h' : Elapsed rom options' n sys')
    (k : Nat) : shown sys.mapper.addressBits k sys.timeline =
      shown sys'.mapper.addressBits k sys'.timeline := by
  rw [h.addressBits_eq h']
  exact shown_congr h.timeline h'.timeline

theorem Elapsed.signature_iff (h : Elapsed rom options n sys) (h' : Elapsed rom options' n sys')
    (y : String) (j : Kind) : (y, j) ∈ sys.formula.signature ↔ (y, j) ∈ sys'.formula.signature := by
  rw [h.mem_signature_iff, h'.mem_signature_iff, h.shown_eq h']

/-- Traces depend on the registers and on the RAM at power on. -/
theorem IsTrace.of_options {trace : Nat → State} (h : IsTrace rom options n trace)
    (hregisters : options'.registers = options.registers) (hram : options'.ram = options.ram) :
    IsTrace rom options' n trace :=
  ⟨⟨hregisters ▸ h.start.cpu, hram ▸ h.start.ram, h.start.dataIn⟩, h.step⟩

theorem Elapsed.satisfies_iff (h : Elapsed rom options n sys) (h' : Elapsed rom options' n sys')
    (hregisters : options'.registers = options.registers) (hram : options'.ram = options.ram)
    {I : Interpretation} (fits : I.Fits sys.formula.signature) :
    I.Satisfies sys.formula ↔ I.Satisfies sys'.formula := by
  have fits' : I.Fits sys'.formula.signature := fun y j hy =>
    fits y j ((h.signature_iff h' y j).2 hy)
  rw [h.describes I fits, h'.describes I fits']
  constructor
  · rintro ⟨trace, htrace, hshows⟩
    exact ⟨trace, htrace.of_options hregisters hram, hshows⟩
  · rintro ⟨trace, htrace, hshows⟩
    exact ⟨trace, htrace.of_options hregisters.symm hram.symm, hshows⟩

/-! ## Answers -/

/-- The versions of the registers and of RAM in `n` cycles. -/
def registersAndRam (n : Nat) : View where
  words x := ∃ v ∈ registerVariables, ∃ j ≤ n, x = Timeline.versionedName v.name j
  arrays x := ∃ j ≤ 2 * n + 2, x = Timeline.versionedName Ram.memory j
  bits := 11
  positive := by decide
  narrow := by decide

theorem Elapsed.declared (h : Elapsed rom options n sys) :
    (registersAndRam n).Declared sys.formula.signature := by
  constructor
  · rintro x ⟨v, -, j, hj, rfl⟩
    have hcount : (Wire.cpu v).count n true 16 true = n + 1 := by cases v <;> rfl
    refine ⟨bitsOf v, (h.mem_signature_iff _ _).2 ⟨.cpu v, j, ?_, .inl ?_, rfl, rfl⟩⟩
    · rw [h.timeline, hcount]
      omega
    · rw [hcount]
      omega
  · rintro x ⟨j, hj, rfl⟩
    have hcount : Wire.ram.count n true 16 true = 2 * n + 3 := rfl
    refine ⟨8, (h.mem_signature_iff _ _).2 ⟨.ram, j, ?_, .inl ?_, rfl, rfl⟩⟩
    · rw [h.timeline, hcount]
      omega
    · rw [hcount]
      omega

/-- Nothing waits for a register. -/
theorem not_words_of_opened {x : String} (h : opened k x) : ¬ (registersAndRam n).words x := by
  obtain ⟨w, hopen, v, -, rfl⟩ := h
  rintro ⟨u, hu, j, -, heq⟩
  obtain ⟨hname, -⟩ := Timeline.versionedName_injective heq
  obtain rfl : w = .cpu u := Wire.name_injective hname
  exact hopen hu

/-- The formula of a pinned machine is found to be satisfiable if and only if the run decodes
implemented opcodes only. -/
theorem Elapsed.sat_iff (h : Elapsed rom options n sys) (hregisters : options.registers = some r)
    (hram : options.ram = some image) (himage : image.size = ramSize) :
    (∃ m, solve sys.formula = .ok (.sat m)) ↔ Implemented rom r image n := by
  constructor
  · rintro ⟨m, hm⟩
    by_contra hfails
    obtain ⟨k, hk, hstop⟩ := exists_stop_of_isTrace hregisters hram himage hfails
    rcases undetermined_or_unsat_of_stop h.accounted.sorted_formula h.accounted.unique_formula
      h.describes h.fits (h.address_mem hk) (fun _ _ _ _ => trivial) hk hstop with
      ⟨count, text, hopen⟩ | ⟨⟨u, hnone⟩, -⟩
    · cases hm.symm.trans hopen
    · cases hm.symm.trans hnone
  · intro himplemented
    obtain ⟨q, hsolve, -⟩ := solve_of_determines h.accounted.unique_formula
      (h.determines_run hregisters hram himage himplemented)
    exact ⟨q.state, hsolve⟩

/-- Pinned machines of the same ROM that stall at the same cycle give the same answer. -/
theorem sameAnswer_of_halts (h : Elapsed rom options n sys) (h' : Elapsed rom options' n sys')
    (hregisters : options.registers = some r) (hram : options.ram = some image)
    (hregisters' : options'.registers = some r) (hram' : options'.ram = some image)
    (himage : image.size = ramSize)
    (hhalts : Halts sys.mapper.addressBits sys.formula.signature
      (interpretation rom (run rom r image)) k sys)
    (hhalts' : Halts sys'.mapper.addressBits sys'.formula.signature
      (interpretation rom (run rom r image)) k sys') {ts : List Term}
    (hts : ∀ t ∈ ts, t.Observes (registersAndRam n)) :
    SameAnswer (registersAndRam n) (solve (sys.formula ++ ts.map .assert))
      (solve (sys'.formula ++ ts.map .assert)) := by
  -- the micro-state at power on
  have hknown : ∃ y w, shown sys.mapper.addressBits k sys.timeline y (.bits w) := by
    refine ⟨_, _, .cpu .state, 0, ?_, .inl (Nat.succ_pos k), rfl, rfl⟩
    rw [h.timeline]
    exact Nat.succ_pos n
  unfold Halts at hhalts hhalts'
  rw [← h.shown_eq h' k] at hhalts'
  obtain ⟨p, hp⟩ := hhalts.exists_stalled h.accounted.unique_formula hknown
  obtain ⟨p', hp'⟩ := hhalts'.exists_stalled h'.accounted.unique_formula hknown
  refine sameAnswer_of_stalled hp hp' (fun _ => free_of_opened) (fun _ => not_words_of_opened)
    (h.fits _) (h.signature_iff h') h.declared ?_ hts
  rw [h.sat_iff hregisters hram himage, h'.sat_iff hregisters' hram' himage]

/-- Along a run with transitions nothing waits. -/
theorem Elapsed.halts_run (h : Elapsed rom options n sys) (hregisters : options.registers = some r)
    (hram : options.ram = some image) (himage : image.size = ramSize)
    (himplemented : Implemented rom r image n) :
    Halts sys.mapper.addressBits sys.formula.signature (interpretation rom (run rom r image)) n
      sys := by
  have hscope : (fun y j => (y, j) ∈ sys.formula.signature) =
      shown sys.mapper.addressBits n sys.timeline := by
    funext y j
    exact propext (h.mem_signature_iff y j)
  have hdetermines := h.determines_run hregisters hram himage himplemented
  rw [hscope] at hdetermines
  exact .of_determines hdetermines

/-- Two formulas with the same declarations and the same models on which propagation gives the same
answers, if the registers are known and RAM is full. -/
structure SameMeaning (options : MachineOptions) (n : Nat) (f f' : Formula) : Prop where
  signature : ∀ x k, (x, k) ∈ f.signature ↔ (x, k) ∈ f'.signature
  satisfies : ∀ I : Interpretation, I.Fits f.signature → (I.Satisfies f ↔ I.Satisfies f')
  answers : ∀ r image, options.registers = some r → options.ram = some image →
    image.size = ramSize → ∀ ts : List Term, (∀ t ∈ ts, t.Observes (registersAndRam n)) →
      SameAnswer (registersAndRam n) (solve (f ++ ts.map .assert)) (solve (f' ++ ts.map .assert))

/-- Whether RAM is compared cell by cell or as a whole, there is the same error, or the formulas
have the same meaning. -/
theorem sameMeaning_formulaAfter (rom : Cartridge.Rom) (options : MachineOptions) (log : Log)
    (n : Nat) :
    (Compilable rom options → ∃ f f',
      formulaAfter rom { options with extensionality := true } log n = .ok f ∧
      formulaAfter rom { options with extensionality := false } log n = .ok f' ∧
      SameMeaning options n f f') ∧
    (¬ Compilable rom options →
      ∃ e, ∀ b, formulaAfter rom { options with extensionality := b } log n = .error e) := by
  refine ⟨fun hcompilable => ?_, fun hnot => exists_error_of_not_compilable hnot log n⟩
  have hmode : ∀ b, Compilable rom { options with extensionality := b } := fun b =>
    ⟨hcompilable.mapper, hcompilable.size⟩
  obtain ⟨sys, sys₀, sysₙ, hsys, hpower, hrun, helapsed, hformula⟩ :=
    (hmode true).exists_elapsed log n
  obtain ⟨sys', sys₀', sysₙ', hsys', hpower', hrun', helapsed', hformula'⟩ :=
    (hmode false).exists_elapsed log n
  refine ⟨_, _, hformula, hformula', helapsed.signature_iff helapsed',
    fun I fits => helapsed.satisfies_iff helapsed' rfl rfl fits, ?_⟩
  intro r image hregisters hram himage ts hts
  by_cases himplemented : Implemented rom r image n
  · exact sameAnswer_of_halts helapsed helapsed' hregisters hram hregisters hram himage
      (helapsed.halts_run hregisters hram himage himplemented)
      (helapsed'.halts_run hregisters hram himage himplemented) hts
  · obtain ⟨k, -, hbefore, hstop⟩ := exists_stop himplemented
    exact sameAnswer_of_halts helapsed helapsed' hregisters hram hregisters hram himage
      (helapsed.halts hsys hpower hrun hregisters hram himage hbefore hstop)
      (helapsed'.halts hsys' hpower' hrun' hregisters hram himage hbefore hstop) hts

/-- A RAM of zeros stops at the first opcode, and a register is compared after it. -/
theorem sameMeaning_formulaAfter_zeros : ∃ f f',
    formulaAfter ⟨"", 0, Bytes.zeros 16384⟩
      { extensionality := true, registers := some {}, ram := some (Bytes.zeros 2048) }
      .central 9 = .ok f ∧
    formulaAfter ⟨"", 0, Bytes.zeros 16384⟩
      { extensionality := false, registers := some {}, ram := some (Bytes.zeros 2048) }
      .central 9 = .ok f' ∧
    (∀ I : Interpretation, I.Fits f.signature → (I.Satisfies f ↔ I.Satisfies f')) ∧
    SameAnswer (registersAndRam 9)
      (solve (f ++
        [.assert (.eq (.symbol ⟨Timeline.versionedName Variable.a.name 9⟩) (.word 8 5))]))
      (solve (f' ++
        [.assert (.eq (.symbol ⟨Timeline.versionedName Variable.a.name 9⟩) (.word 8 5))])) := by
  have hm : Cartridge.Mapper.ofRom ⟨"", 0, Bytes.zeros 16384⟩ =
      .ok ⟨⟨"", 0, Bytes.zeros 16384⟩, 14⟩ := by
    have hbank : (Bytes.zeros 16384).size = Cartridge.bankSize := Array.size_replicate
    rw [Cartridge.Mapper.ofRom, if_neg (by simp), if_pos hbank]
  have hsize : (Bytes.zeros 2048).size = ramSize := Array.size_replicate
  obtain ⟨f, f', hf, hf', hsame⟩ := (sameMeaning_formulaAfter ⟨"", 0, Bytes.zeros 16384⟩
    { registers := some {}, ram := some (Bytes.zeros 2048) } .central 9).1 ⟨⟨_, hm⟩, by
      rintro data ⟨⟩
      exact Nat.le_of_eq hsize⟩
  refine ⟨f, f', hf, hf', hsame.satisfies, hsame.answers {} (Bytes.zeros 2048) rfl rfl hsize [_] ?_⟩
  rw [List.forall_mem_singleton]
  refine Term.Observes.eq_word (.word ?_) 8 5
  exact ⟨.a, by decide, 9, Nat.le_refl 9, rfl⟩

end CycleCheck.Cycle

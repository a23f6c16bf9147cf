import CycleCheck.Proofs.Cycle.Probe
import CycleCheck.Proofs.Scenario.Cartridge
import CycleCheck.Proofs.Scenario.Verdict
import Mathlib.Data.List.MinMax

/-!
The memory that the processor of a scenario finds at power on. What was written last to an address
or to one of its mirrors is read there: single bytes in order of their addresses, before them the
program, before it the reset vector, and the given ROM at the bottom of all.
-/

namespace CycleCheck.Scenario

open Memory Cartridge CycleCheck.Cycle

/-! ## Bytes at addresses -/

namespace ByteMap

/-- The byte of the greatest address that is a mirror of `a`. -/
def greatest? (m : Option ByteMap) (size a : Nat) : Option UInt8 :=
  (((entriesOf m).filter fun e => e.1.toNat % size = a % size).argmax fun e => e.1.toNat).map
    Prod.snd

/-- The greatest of entries in order is the last one. -/
theorem argmax_eq_getLast? {es : List (UInt16 × UInt8)} (h : es.Pairwise fun e e' => e.1 < e'.1) :
    (es.argmax fun e => e.1.toNat) = es.getLast? := by
  induction es using List.reverseRecOn with
  | nil => rfl
  | append_singleton es e ih =>
    obtain ⟨hinit, -, hlast⟩ := List.pairwise_append.1 h
    rw [List.argmax_concat, ih hinit, List.getLast?_concat]
    cases hes : es.getLast? with
    | none => rfl
    | some c =>
      exact if_pos (hlast c (List.mem_of_getLast? hes) e (List.mem_singleton_self e))

theorem last?_written (m : Option ByteMap) (size a : Nat) :
    History.last? size a (written m) = greatest? m size a := by
  have hordered : (entriesOf m).Pairwise fun e e' => e.1 < e'.1 := by
    cases m with
    | none => exact List.Pairwise.nil
    | some m => exact m.ordered
  rw [History.last?, written, List.filter_map, List.getLast?_map, Option.map_map, greatest?,
    argmax_eq_getLast? (hordered.filter _)]
  rfl

end ByteMap

/-! ## What a scenario says -/

/-- The byte of the program at a place of RAM. -/
def programByte? (s : Scenario) (i : Nat) : Option UInt8 :=
  if areaOf s.origin = .ram ∧ s.origin.toNat ≤ i then s.program[i - s.origin.toNat]? else none

/-- The byte in RAM at an address. -/
def ramByte (s : Scenario) (a : Nat) : UInt8 :=
  ((ByteMap.greatest? s.ram ramSize a).or (s.programByte? (a % ramSize))).getD 0

/-- The last byte of the program at an address of the cartridge area or at a mirror of it. -/
def lastProgramByte? (s : Scenario) (size a : Nat) : Option UInt8 :=
  if areaOf s.origin = .cartridge then History.last? size a (addressed s.origin.toNat s.program)
  else none

/-- The byte of the reset vector at an address or at a mirror of it. -/
def vectorByte? (s : Scenario) (options : ScenarioOptions) (size a : Nat) : Option UInt8 :=
  (s.writtenVector? options).bind fun v =>
    if a % size = 0xfffc % size then some v.toUInt8
    else if a % size = 0xfffd % size then some (v >>> 8).toUInt8
    else none

/-- The byte of the given ROM at an address, and zero if none is given. -/
def givenByte (options : ScenarioOptions) (size a : Nat) : UInt8 :=
  options.rom.elim 0 fun rom => Bytes.get rom.prg ((a - originCartridge) % size)

/-- The byte in the cartridge at an address. -/
def prgByte (s : Scenario) (options : ScenarioOptions) (a : Nat) : UInt8 :=
  let size := prgSize options
  (((ByteMap.greatest? s.prg size a).or (s.lastProgramByte? size a)).or
    (s.vectorByte? options size a)).getD (givenByte options size a)

/-! ## RAM -/

variable {s : Scenario} {options : ScenarioOptions}

theorem get_placeBytes {i : Nat} {data : List UInt8} {image : ByteArray}
    (hsize : i + data.length ≤ image.size) (j : Nat) :
    Bytes.get (placeBytes i data image) j =
      (if i ≤ j then data[j - i]? else none).getD (Bytes.get image j) := by
  induction data generalizing i image with
  | nil => simp [placeBytes]
  | cons v rest ih =>
    rw [List.length_cons] at hsize
    rw [placeBytes, ih (by rw [Bytes.size_put]; omega), Bytes.get_put]
    obtain hlt | rfl | hgt := Nat.lt_trichotomy i j
    · rw [if_pos (Nat.succ_le_of_lt hlt), if_neg (by omega), if_pos (Nat.le_of_lt hlt),
        show j - i = j - (i + 1) + 1 by omega, List.getElem?_cons_succ]
    · rw [if_neg (by omega), if_pos ⟨rfl, by omega⟩, if_pos (Nat.le_refl i), Nat.sub_self]
      rfl
    · rw [if_neg (by omega), if_neg (by omega), if_neg (by omega)]

/-- Single bytes are found at all mirrors of their addresses; of several the last one stays. -/
theorem get_mappedBytes {es : List (UInt16 × UInt8)} {image : ByteArray}
    (hram : ∀ e ∈ es, areaOf e.1 = .ram) (hsize : image.size = ramSize) (a : Nat) :
    Bytes.get (es.foldl (fun m e => Bytes.put m (mapAddress e.1).1.toNat e.2) image)
        (a % ramSize) =
      (History.last? ramSize a (es.map fun e => (e.1.toNat, e.2))).getD
        (Bytes.get image (a % ramSize)) := by
  induction es generalizing image with
  | nil => rfl
  | cons e rest ih =>
    obtain ⟨he, hrest⟩ := List.forall_mem_cons.1 hram
    have hplace : (mapAddress e.1).1.toNat = e.1.toNat % ramSize := by
      rw [toNat_mapAddress he, BitVec.toNat_setWidth]
      rfl
    have hlt : e.1.toNat % ramSize < image.size := by
      rw [hsize]
      exact Nat.mod_lt _ (by decide)
    rw [List.foldl_cons, ih hrest ((Bytes.size_put ..).trans hsize), List.map_cons,
      History.last?_cons, Option.getD_or, hplace, Bytes.get_put]
    congr 1
    by_cases h : e.1.toNat % ramSize = a % ramSize
    · rw [if_pos ⟨h, hlt⟩, if_pos h, Option.getD_some]
    · rw [if_neg fun h' => h h'.1, if_neg h, Option.getD_none]

/-- The image of RAM holds what the scenario says. -/
theorem get_ramImage (hs : s.Valid) (a : Nat) :
    Bytes.get s.ramImage (a % ramSize) = s.ramByte a := by
  let image := if areaOf s.origin = .ram then
    placeBytes s.origin.toNat s.program (Bytes.zeros ramSize) else Bytes.zeros ramSize
  have hsize : image.size = ramSize := by
    unfold image
    split_ifs
    · rw [size_placeBytes, Bytes.size_zeros]
    · exact Bytes.size_zeros _
  have hprogram : Bytes.get image (a % ramSize) = (s.programByte? (a % ramSize)).getD 0 := by
    unfold image programByte?
    by_cases harea : areaOf s.origin = .ram
    · have hfits : s.origin.toNat + s.program.length ≤ ramSize := by
        obtain ⟨-, hlast⟩ | ⟨hother, -⟩ := hs.program
        · exact hlast
        · simp [harea] at hother
      rw [if_pos harea, get_placeBytes (by rwa [Bytes.size_zeros]), get_zeros]
      simp [harea]
    · simp [harea, get_zeros]
  change Bytes.get ((ByteMap.entriesOf s.ram).foldl _ image) _ = _
  rw [get_mappedBytes hs.ram hsize, hprogram, ramByte, Option.getD_or]
  exact congrArg (Option.getD · _) (ByteMap.last?_written s.ram ramSize a)

/-! ## The cartridge -/

theorem last?_vector {size : Nat} (hsize : size = bankSize ∨ size = 2 * bankSize) (a : Nat) :
    History.last? size a ((s.writtenVector? options).elim [] fun v =>
      addressed 0xfffc [v.toUInt8, (v >>> 8).toUInt8]) = s.vectorByte? options size a := by
  have hne : 0xfffc % size ≠ 0xfffd % size := by
    rcases hsize with rfl | rfl <;> decide
  rw [vectorByte?]
  cases s.writtenVector? options with
  | none => rfl
  | some v =>
    simp only [Option.elim_some, Option.bind_some, addressed, History.last?_cons,
      History.last?_nil, Option.none_or, eq_comm (a := a % size)]
    by_cases hlow : 0xfffc % size = a % size
    · rw [if_pos hlow, if_pos hlow, if_neg (fun hhigh => hne (hlow.trans hhigh.symm)),
        Option.none_or]
    · rw [if_neg hlow, if_neg hlow, Option.or_none]

theorem last?_program (hs : s.Valid) (size a : Nat) :
    History.last? size a
        (if areaOf s.origin = .ram then [] else addressed s.origin.toNat s.program) =
      s.lastProgramByte? size a := by
  rw [lastProgramByte?]
  obtain ⟨harea, -⟩ | ⟨harea, -⟩ := hs.program
  · rw [harea]
    rfl
  · rw [harea]
    rfl

/-- The ROM of the machine holds what the scenario says. -/
theorem get_builtPrg (hs : s.Valid)
    (hrom : ∀ rom, options.rom = some rom → rom.mapper = 0 ∧
      (rom.prg.size = bankSize ∨ rom.prg.size = 2 * bankSize))
    {rom : Rom} (hbuild : (s.fullCartridge options).build = .ok rom) {a : Nat}
    (ha : originCartridge ≤ a) :
    Bytes.get rom.prg ((a - originCartridge) % rom.prg.size) = s.prgByte options a := by
  have hholds := holds_of_build hbuild
  rw [history_builderSteps] at hholds
  have hsize := size_of_build hbuild
  have hbank : prgSize options = bankSize ∨ prgSize options = 2 * bankSize := by
    rw [prgSize]
    cases hgiven : options.rom with
    | none => exact .inl rfl
    | some rom => exact (hrom rom hgiven).2
  have hbase : Bytes.get (options.rom.elim (Bytes.zeros bankSize) Rom.prg)
      ((a - originCartridge) % prgSize options) = givenByte options (prgSize options) a := by
    rw [givenByte]
    cases options.rom with
    | none => rw [Option.elim_none, Option.elim_none, get_zeros]
    | some rom => rw [Option.elim_some, Option.elim_some]
  rw [hholds.byte a ha, hsize, History.byte, History.last?_append, History.last?_append,
    last?_vector hbank, last?_program hs, ByteMap.last?_written, hbase, prgByte,
    Option.or_assoc]

/-! ## Reads at power on -/

/-- At power on the memory is the image of RAM and the ROM. -/
theorem peek_of_isTrace {rom : Rom} {trace : Nat → State}
    (htrace : IsTrace rom (s.machineOptions options) 0 trace) (address : UInt16) :
    peek rom (trace 0).ram address.toBitVec = peek rom (cellsOf s.ramImage) address.toBitVec := by
  have hstart : trace 0 = State.start rom s.registers s.ramImage :=
    eq_start_of_initial rfl rfl s.size_ramImage htrace.start
  have hram : (State.start rom s.registers s.ramImage).ram = cellsOf s.ramImage :=
    store_of_poweredOn (poweredOn_start s.registers) _
  rw [hstart, hram]

theorem peek_low (rom : Rom) (image : ByteArray) {address : UInt16} (h : address.toNat < 0x2000) :
    peek rom (cellsOf image) address.toBitVec =
      (Bytes.get image (address.toNat % ramSize)).toBitVec := by
  rw [peek, UInt16.toNat_toBitVec, if_pos h, cellsOf, BitVec.toNat_setWidth]
  rfl

theorem peek_high (rom : Rom) (m : Cells) {address : UInt16} (h : 0x8000 ≤ address.toNat) :
    peek rom m address.toBitVec =
      (Bytes.get rom.prg ((address.toNat - originCartridge) % rom.prg.size)).toBitVec := by
  have horigin : originCartridge = 0x8000 := by decide
  rw [peek, UInt16.toNat_toBitVec, if_neg (by omega), if_neg (Nat.not_lt.2 h), horigin]

/-- What the processor of a valid scenario reads at power on is what the scenario says, at every
address of RAM with its mirrors and of the cartridge area. -/
theorem reads_placed (hvalid : s.validate = .ok ())
    (hrom : ∀ rom, options.rom = some rom → rom.mapper = 0 ∧
      (rom.prg.size = bankSize ∨ rom.prg.size = 2 * bankSize)) (log : Log) :
    ∃ rom sys sys₀ sysₙ goal, (s.fullCartridge options).build = .ok rom ∧
      Machine.ofRom rom (s.machineOptions options) log = .ok sys ∧
      sys.powerOn = (sys₀, .ok ()) ∧ sys₀.run s.duration = (sysₙ, .ok ()) ∧
      s.compile options log = .ok (sysₙ, goal) ∧
      ∀ a : UInt16, (a.toNat < 0x2000 → sys₀.Reads a (s.ramByte a.toNat)) ∧
        (0x8000 ≤ a.toNat → sys₀.Reads a (s.prgByte options a.toNat)) := by
  have hs := valid_of_validate hvalid
  obtain ⟨rom, sys, sys₀, sysₙ, ts, hstages, hstart, -, -⟩ := exists_stages hvalid hrom log
  have hexists : ∃ trace, IsTrace rom (s.machineOptions options) 0 trace :=
    ⟨_, isTrace_run rfl rfl (Nat.le_of_eq s.size_ramImage) 0⟩
  refine ⟨rom, sys, sys₀, sysₙ, .all ts, hstages.build, hstages.ofRom, hstages.powerOn,
    hstages.run, hstages.compile_eq hvalid, fun a => ⟨fun hlow => ?_, fun hhigh => ?_⟩⟩
  · refine hstart.reads hexists fun trace htrace => ?_
    rw [peek_of_isTrace htrace, peek_low rom _ hlow, get_ramImage hs]
  · refine hstart.reads hexists fun trace htrace => ?_
    rw [peek_of_isTrace htrace, peek_high rom _ hhigh, get_builtPrg hs hrom hstages.build hhigh]

/-- A program that ends on the low byte of the mirrored reset vector, and single bytes over its
first byte and at two mirrors of one cell. -/
def overlapping : Scenario where
  name := "overlapping"
  origin := 0xbffb
  program := [1, 2]
  ram := some (.ofList [(0x800, 6), (0, 5)])
  prg := some (.ofList [(0xfffb, 9)])
  expect := { a := some 0 }

/-- Each byte comes from another source: two single bytes, the program, the vector and no ROM. -/
theorem reads_placed_overlapping : ∃ sys₀ sys₈ : Machine, ∃ goal,
    overlapping.compile {} .central = .ok (sys₈, goal) ∧ sys₀.run 8 = (sys₈, .ok ()) ∧
      sys₀.Reads 0x1000 6 ∧ sys₀.Reads 0xbffb 9 ∧ sys₀.Reads 0xfffc 2 ∧ sys₀.Reads 0xbffd 0xbf ∧
      sys₀.Reads 0x8000 0 := by
  obtain ⟨rom, sys, sys₀, sys₈, goal, -, -, -, hrun, hcompile, hreads⟩ :=
    @reads_placed overlapping {} rfl (by rintro _ ⟨⟩) .central
  have hram : overlapping.ramByte 0x1000 = 6 := by decide
  have hprg : overlapping.prgByte {} 0xbffb = 9 ∧ overlapping.prgByte {} 0xfffc = 2 ∧
      overlapping.prgByte {} 0xbffd = 0xbf ∧ overlapping.prgByte {} 0x8000 = 0 := by
    decide
  refine ⟨sys₀, sys₈, goal, hcompile, hrun, ?_, ?_, ?_, ?_, ?_⟩
  · exact hram ▸ (hreads 0x1000).1 (by decide)
  · exact hprg.1 ▸ (hreads 0xbffb).2 (by decide)
  · exact hprg.2.1 ▸ (hreads 0xfffc).2 (by decide)
  · exact hprg.2.2.1 ▸ (hreads 0xbffd).2 (by decide)
  · exact hprg.2.2.2 ▸ (hreads 0x8000).2 (by decide)

end CycleCheck.Scenario

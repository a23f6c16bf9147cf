import CycleCheck.Machine
import Mathlib.Logic.Function.Basic
import Mathlib.Tactic.Common

/-!
The reference cycle machine, on words. A state is the outputs of the processor, the byte on the
data bus and the two kilobytes of RAM. In a step the outputs change by the one transition of the
micro-state, with the opcode, the phase of the reset or the carry where it depends on them; they
are arbitrary if there is no transition. Then the bus does one access: it writes RAM or it answers
from RAM, from the ROM, or with zero.
-/

namespace CycleCheck.Cycle

open Processor

/-- The outputs of the processor. -/
structure Cpu where
  a : BitVec 8
  x : BitVec 8
  y : BitVec 8
  sp : BitVec 8
  p : BitVec 8
  pc : BitVec 16
  state : BitVec 7
  resetSequence : BitVec 3
  addressBus : BitVec 16
  writeEnable : BitVec 1
  dataOut : BitVec 8
  tempAddress : BitVec 16
  tempPointer : BitVec 8

/-- The content of RAM. -/
abbrev Cells := BitVec 11 → BitVec 8

structure State where
  cpu : Cpu
  dataIn : BitVec 8
  ram : Cells

/-! ## Micro-states -/

/-- The micro-states of the implemented instructions, in the order of their codes. -/
def microStates : List MicroState := Processor.microStates Instruction.table

def codeOf (m : MicroState) : BitVec 7 := .ofNat 7 (microStates.idxOf m)

def microState? (code : BitVec 7) : Option MicroState := microStates[code.toNat]?

/-- The instruction that the label of a micro-state stands for. -/
def labelled? (label : String) : Option Instruction :=
  Instruction.table.find? fun i => i.label == label

/-! ## Parts of transitions -/

/-- A byte with one bit replaced. -/
def setBit (v : BitVec 8) (i : Nat) (b : Bool) : BitVec 8 :=
  (v &&& ~~~ (1#8 <<< i)) ||| (if b then 1#8 <<< i else 0#8)

/-- The registers that loads and stores use. -/
inductive Register where
  | a | x | y

/-- The register that a mnemonic names. -/
def registerOf (mnemonic : String) : Register :=
  if mnemonic = "LDA" ∨ mnemonic = "STA" then .a
  else if mnemonic = "LDX" ∨ mnemonic = "STX" then .x
  else .y

/-- The flag that a mnemonic names, and the value it gets. -/
def flagOf (mnemonic : String) : Option (Flag × Bool) :=
  if mnemonic = "CLC" then some (.carry, false)
  else if mnemonic = "SEC" then some (.carry, true)
  else if mnemonic = "CLI" then some (.interruptDisable, false)
  else if mnemonic = "SEI" then some (.interruptDisable, true)
  else if mnemonic = "CLV" then some (.overflow, false)
  else if mnemonic = "CLD" then some (.decimalMode, false)
  else if mnemonic = "SED" then some (.decimalMode, true)
  else none

namespace Cpu

variable (c : Cpu)

def goto (m : MicroState) : Cpu := { c with state := codeOf m }

def read (address : BitVec 16) : Cpu := { c with addressBus := address, writeEnable := 0 }

def write (address : BitVec 16) (data : BitVec 8) : Cpu :=
  { c with addressBus := address, writeEnable := 1, dataOut := data }

/-- Reads at the program counter and moves it on. -/
def fetch : Cpu := { c.read c.pc with pc := c.pc + 1 }

def get : Register → BitVec 8
  | .a => c.a
  | .x => c.x
  | .y => c.y

/-- Puts a byte into a register; zero and sign follow it. -/
def load (r : Register) (v : BitVec 8) : Cpu :=
  let p := setBit (setBit c.p Flag.zero.bit (v == 0)) Flag.sign.bit v.msb
  match r with
  | .a => { c with a := v, p }
  | .x => { c with x := v, p }
  | .y => { c with y := v, p }

/-- The index register of a mode. -/
def index (mode : AddressingMode) : BitVec 8 :=
  match mode with
  | .zeroPageIndexedX | .absoluteIndexedX | .indexedIndirect => c.x
  | _ => c.y

/-- The low byte of an address that is put together. -/
def low : BitVec 8 := c.tempAddress.setWidth 8

/-- The access of the operand: a load reads it, a store writes its register. -/
def access (i : Instruction) (address : BitVec 16) : Cpu :=
  match i.effect with
  | .read => c.read address
  | .write => c.write address (c.get (registerOf i.mnemonic))
  | _ => c

/-- The last cycle: a load takes the byte that was read, and the next opcode is fetched. -/
def finish (i : Instruction) (d : BitVec 8) : Cpu :=
  ((if i.effect = .read then c.load (registerOf i.mnemonic) d else c).fetch).goto .instructionFetch

/-- The only cycle of an implied instruction after decoding. -/
def setFlag (i : Instruction) : Cpu :=
  match flagOf i.mnemonic with
  | some (flag, on) => { c with p := setBit c.p flag.bit on }
  | none => c

/-- The cycle that adds the index to the low byte of the base address. The address is right unless
the addition carries; the cycle that corrects it is left out only by instructions that are
sensitive to pages. -/
def addIndex (i : Instruction) (d : BitVec 8) (next fixup : MicroState) : Cpu :=
  let address := d ++ (c.low + c.index i.mode)
  let based := { c with tempAddress := d ++ c.low }
  if i.pageSensitive ∧ c.low.toNat + (c.index i.mode).toNat < 0x100 then
    (based.access i address).goto next
  else (based.read address).goto fixup

/-! ## Transitions -/

/-- The transition of a phase of the reset. -/
def reset (d : BitVec 8) : Cpu :=
  let next := { c with resetSequence := c.resetSequence + 1 }
  let vector := d ++ c.low
  match c.resetSequence.toNat with
  | 0 | 1 => next.read c.pc
  | 2 | 3 | 4 => { next.read (1#8 ++ c.sp) with sp := c.sp - 1 }
  | 5 => { next.read 0xfffc with p := setBit c.p Flag.interruptDisable.bit true }
  | 6 => { next.read 0xfffd with tempAddress := 0#8 ++ d }
  | _ => { next.read vector with pc := vector + 1 }.goto .instructionFetch

/-- Decoding of an instruction. -/
def decode (i : Instruction) : Cpu :=
  (if i.mode = .implied then c.read c.pc else c.fetch).goto (.cycle i.label 1)

/-- The transition of a cycle of an instruction, `d` on the data bus. -/
def cycle? (i : Instruction) (n : Nat) (d : BitVec 8) : Option Cpu :=
  let enter (n : Nat) (c : Cpu) : Cpu := c.goto (.cycle i.label n)
  match i.mode, n with
  | .implied, 1 => some ((c.setFlag i).fetch.goto .instructionFetch)
  | .immediate, 1 => some (c.finish i d)
  | .zeroPage, 1 => some (enter 2 (c.access i (0#8 ++ d)))
  | .zeroPage, 2 => some (c.finish i d)
  | .zeroPageIndexedX, 1 | .zeroPageIndexedY, 1 =>
      some (enter 2 { c.read (0#8 ++ d) with tempAddress := 0#8 ++ d })
  | .zeroPageIndexedX, 2 | .zeroPageIndexedY, 2 =>
      some (enter 3 (c.access i (0#8 ++ (c.low + c.index i.mode))))
  | .zeroPageIndexedX, 3 | .zeroPageIndexedY, 3 => some (c.finish i d)
  | .absolute, 1 | .absoluteIndexedX, 1 | .absoluteIndexedY, 1 =>
      some (enter 2 { c.fetch with tempAddress := 0#8 ++ d })
  | .absolute, 2 => some (enter 3 (c.access i (d ++ c.low)))
  | .absoluteIndexedX, 2 | .absoluteIndexedY, 2 =>
      some (c.addIndex i d (.cycle i.label 3) (.fixup i.label 2))
  | .absolute, 3 | .absoluteIndexedX, 3 | .absoluteIndexedY, 3 => some (c.finish i d)
  | .indexedIndirect, 1 | .indirectIndexed, 1 =>
      some (enter 2 { c.read (0#8 ++ d) with tempPointer := d })
  | .indexedIndirect, 2 =>
      some (enter 3 { c.read (0#8 ++ (c.tempPointer + c.x)) with
        tempPointer := c.tempPointer + c.x })
  | .indexedIndirect, 3 =>
      some (enter 4 { c.read (0#8 ++ (c.tempPointer + 1)) with tempAddress := 0#8 ++ d })
  | .indexedIndirect, 4 => some (enter 5 (c.access i (d ++ c.low)))
  | .indexedIndirect, 5 => some (c.finish i d)
  | .indirectIndexed, 2 =>
      some (enter 3 { c.read (0#8 ++ (c.tempPointer + 1)) with tempAddress := 0#8 ++ d })
  | .indirectIndexed, 3 => some (c.addIndex i d (.cycle i.label 4) (.fixup i.label 3))
  | .indirectIndexed, 4 => some (c.finish i d)
  | _, _ => none

/-- The transition of the cycle that corrects an address. -/
def fixup? (i : Instruction) (n : Nat) : Option Cpu :=
  let corrected := c.access i (c.tempAddress + (c.index i.mode).setWidth 16)
  match i.mode, n with
  | .absoluteIndexedX, 2 | .absoluteIndexedY, 2 => some (corrected.goto (.cycle i.label 3))
  | .indirectIndexed, 3 => some (corrected.goto (.cycle i.label 4))
  | _, _ => none

/-- The transition of the current micro-state, none if there is none. -/
def next? (d : BitVec 8) : Option Cpu :=
  match microState? c.state with
  | none => none
  | some .resetting => some (c.reset d)
  | some .instructionFetch => (Instruction.lookup? ⟨d⟩).map c.decode
  | some (.cycle label n) => (labelled? label).bind fun i => c.cycle? i n d
  | some (.fixup label n) => (labelled? label).bind fun i => c.fixup? i n

/-! ## The bus -/

/-- RAM after the access of the bus; RAM has mirrors below `0x2000`. -/
def store (m : Cells) : Cells :=
  if c.writeEnable = 1 ∧ c.addressBus.toNat < 0x2000 then
    Function.update m (c.addressBus.setWidth 11) c.dataOut
  else m

/-- The byte that the bus answers: RAM, nothing, or the ROM modulo its size. -/
def respond (rom : Cartridge.Rom) (m : Cells) : BitVec 8 :=
  if c.addressBus.toNat < 0x2000 then
    if c.writeEnable = 1 then c.dataOut else m (c.addressBus.setWidth 11)
  else if c.addressBus.toNat < 0x8000 then 0
  else (Bytes.get rom.prg ((c.addressBus.toNat - 0x8000) % rom.prg.size)).toBitVec

/-! ## Inside a phase of the bus -/

/-- The page that is addressed. -/
def page : Nat := c.addressBus.toNat / 0x1000

/-- The line that selects a page. -/
def selects (page : Nat) : BitVec 1 := .ofBool (c.page == page)

/-- RAM after the handler of a page. -/
def storePage (page : Nat) (m : Cells) : Cells :=
  if c.page = page ∧ c.writeEnable = 1 then
    Function.update m (c.addressBus.setWidth 11) c.dataOut
  else m

/-- RAM before the handler of a page, `m` before the phase. Only the first two pages change it. -/
def before (page : Nat) (m : Cells) : Cells := if page = 0 then m else c.storePage 0 m

/-- The answer of the handler of a page to RAM before it. The ROM answers also where it is not
selected. -/
def answer (rom : Cartridge.Rom) (page : Nat) (m : Cells) : BitVec 8 :=
  if page < 2 then
    if c.page = page then
      if c.writeEnable = 1 then c.dataOut else m (c.addressBus.setWidth 11)
    else 0
  else if page < 8 then 0
  else (Bytes.get rom.prg (c.addressBus.toNat % rom.prg.size)).toBitVec

theorem store_eq (m : Cells) : c.store m = c.storePage 1 (c.before 1 m) := by
  have hlt : c.addressBus.toNat < 0x2000 ↔ c.page = 0 ∨ c.page = 1 := by
    unfold page
    omega
  unfold store before storePage
  by_cases h0 : c.page = 0
  · simp [hlt, h0]
  · simp [hlt, h0, and_comm]

theorem respond_eq (rom : Cartridge.Rom) (hsize : rom.prg.size ∣ 0x8000) (m : Cells) :
    c.respond rom m = c.answer rom c.page (c.before c.page m) := by
  have hcells : c.before c.page m = m := by
    unfold before storePage
    split_ifs <;> simp_all
  have hram : c.addressBus.toNat < 0x2000 ↔ c.page < 2 := by
    unfold page
    omega
  have hnull : c.addressBus.toNat < 0x8000 ↔ c.page < 8 := by
    unfold page
    omega
  unfold respond answer
  rw [hcells]
  simp only [hram, hnull, if_true]
  by_cases h8 : c.page < 8
  · simp [h8]
  · have hge : 0x8000 ≤ c.addressBus.toNat := by
      rw [← hnull] at h8
      omega
    have hmod :
        (c.addressBus.toNat - 0x8000) % rom.prg.size = c.addressBus.toNat % rom.prg.size := by
      obtain ⟨k, hk⟩ := hsize
      rw [hk]
      conv_rhs => rw [← Nat.sub_add_cancel hge, hk, Nat.add_mul_mod_self_left]
    rw [hmod]

end Cpu

/-! ## Runs -/

/-- One cycle. -/
structure Step (rom : Cartridge.Rom) (s s' : State) : Prop where
  cpu : ∀ c, s.cpu.next? s.dataIn = some c → s'.cpu = c
  ram : s'.ram = s'.cpu.store s.ram
  dataIn : s'.dataIn = s'.cpu.respond rom s.ram

/-- The registers have given values, and then the internal ones are zero. -/
structure Cpu.Holds (c : Cpu) (r : Registers) : Prop where
  a : c.a = r.a.toBitVec
  x : c.x = r.x.toBitVec
  y : c.y = r.y.toBitVec
  sp : c.sp = r.sp.toBitVec
  p : c.p = r.p.toBitVec
  pc : c.pc = r.pc.toBitVec
  tempAddress : c.tempAddress = 0
  tempPointer : c.tempPointer = 0

/-- The outputs of power on: the processor is resetting and the bus is idle. -/
structure Cpu.PoweredOn (c : Cpu) (registers : Option Registers) : Prop where
  state : c.state = codeOf .resetting
  resetSequence : c.resetSequence = 0
  addressBus : c.addressBus = 0
  writeEnable : c.writeEnable = 0
  dataOut : c.dataOut = 0
  registers : ∀ r, registers = some r → c.Holds r

/-- The states of power on. -/
structure Initial (rom : Cartridge.Rom) (options : MachineOptions) (s : State) : Prop where
  cpu : s.cpu.PoweredOn options.registers
  ram : ∀ data, options.ram = some data → ∀ i < data.size,
    s.ram (.ofNat 11 i) = (Bytes.get data i).toBitVec
  dataIn : s.dataIn = s.cpu.respond rom s.ram

/-- The states at the start and after each of `n` cycles. -/
structure IsTrace (rom : Cartridge.Rom) (options : MachineOptions) (n : Nat) (trace : Nat → State) :
    Prop where
  start : Initial rom options (trace 0)
  step : ∀ k < n, Step rom (trace k) (trace (k + 1))

end CycleCheck.Cycle

import CycleCheck.Proofs.Cycle.Reference

/-!
Instructions as the programmer sees them. Between two fetch boundaries an instruction takes its
operand at an effective address and changes one register, one cell of RAM or one flag.
-/

namespace CycleCheck.Cycle

open Processor

/-- The byte that a read gives. -/
def peek (rom : Cartridge.Rom) (m : Cells) (address : BitVec 16) : BitVec 8 :=
  if address.toNat < 0x2000 then m (address.setWidth 11)
  else if address.toNat < 0x8000 then 0
  else (Bytes.get rom.prg ((address.toNat - 0x8000) % rom.prg.size)).toBitVec

/-- An opcode was read at the address before the program counter, and it is not decoded yet. -/
structure Boundary (rom : Cartridge.Rom) (s : State) : Prop where
  state : s.cpu.state = codeOf .instructionFetch
  writeEnable : s.cpu.writeEnable = 0
  addressBus : s.cpu.addressBus = s.cpu.pc - 1
  dataIn : s.dataIn = peek rom s.ram s.cpu.addressBus

namespace State

variable (rom : Cartridge.Rom) (s : State)

/-- The byte after the opcode. -/
def operand : BitVec 8 := peek rom s.ram s.cpu.pc

/-- The word after the opcode, low byte first. -/
def operandWord : BitVec 16 := peek rom s.ram (s.cpu.pc + 1) ++ s.operand rom

/-- A word in the zero page, low byte first; it does not leave the page. -/
def pointer (p : BitVec 8) : BitVec 16 :=
  peek rom s.ram (0#8 ++ (p + 1)) ++ peek rom s.ram (0#8 ++ p)

/-- The address of the operand. -/
def effectiveAddress : AddressingMode → BitVec 16
  | .immediate => s.cpu.pc
  | .zeroPage => 0#8 ++ s.operand rom
  | .zeroPageIndexedX => 0#8 ++ (s.operand rom + s.cpu.x)
  | .zeroPageIndexedY => 0#8 ++ (s.operand rom + s.cpu.y)
  | .absolute => s.operandWord rom
  | .absoluteIndexedX => s.operandWord rom + s.cpu.x.setWidth 16
  | .absoluteIndexedY => s.operandWord rom + s.cpu.y.setWidth 16
  | .indexedIndirect => s.pointer rom (s.operand rom + s.cpu.x)
  | .indirectIndexed => s.pointer rom (s.operand rom) + s.cpu.y.setWidth 16
  | .implied | .other _ => 0

/-- The low byte of the base address and the index carry. -/
def crosses : AddressingMode → Bool
  | .absoluteIndexedX => 0x100 ≤ (s.operand rom).toNat + s.cpu.x.toNat
  | .absoluteIndexedY => 0x100 ≤ (s.operand rom).toNat + s.cpu.y.toNat
  | .indirectIndexed => 0x100 ≤ (peek rom s.ram (0#8 ++ s.operand rom)).toNat + s.cpu.y.toNat
  | _ => false

/-- The cycles of an instruction. -/
def duration (i : Instruction) : Nat :=
  i.cycles.toNat + if i.pageSensitive && s.crosses rom i.mode then 1 else 0

end State

/-- A register got a byte; zero and sign follow it and the other six flags are kept. -/
structure Loaded (r : Register) (v : BitVec 8) (c c' : Cpu) : Prop where
  register : c'.get r = v
  others : ∀ q, q ≠ r → c'.get q = c.get q
  zero : c'.p.getLsbD Flag.zero.bit = (v == 0)
  sign : c'.p.getLsbD Flag.sign.bit = v.msb
  flags : ∀ b, b ≠ Flag.zero.bit → b ≠ Flag.sign.bit → c'.p.getLsbD b = c.p.getLsbD b

/-- The effect of an instruction on the registers `c` and on RAM `m`. -/
structure Executes (rom : Cartridge.Rom) (i : Instruction) (address : BitVec 16) (c : Cpu)
    (m : Cells) (s' : State) : Prop where
  sp : s'.cpu.sp = c.sp
  load : i.effect = .read →
    Loaded (registerOf i.mnemonic) (peek rom m address) c s'.cpu ∧ s'.ram = m
  store : i.effect = .write →
    (∀ r, s'.cpu.get r = c.get r) ∧ s'.cpu.p = c.p ∧
      s'.ram = if address.toNat < 0x2000 then
        Function.update m (address.setWidth 11) (c.get (registerOf i.mnemonic)) else m
  internal : i.effect = .internal → (∀ r, s'.cpu.get r = c.get r) ∧ s'.ram = m
  flag : i.effect = .internal → ∀ flag on, flagOf i.mnemonic = some (flag, on) →
    ∀ b, s'.cpu.p.getLsbD b = if b = flag.bit then on else c.p.getLsbD b
  idle : i.effect = .internal → flagOf i.mnemonic = none → s'.cpu.p = c.p

end CycleCheck.Cycle

import CycleCheck.Text.Digits

/-!
Instructions of the processor: addressing modes, what an instruction does to the bus, and the
table of the instructions that are implemented.
-/

namespace CycleCheck

inductive AddressingMode where
  | implied
  | immediate
  | zeroPage
  | zeroPageIndexedX
  | zeroPageIndexedY
  | absolute
  | absoluteIndexedX
  | absoluteIndexedY
  | indexedIndirect
  | indirectIndexed
  /-- a mode by number that the processor does not have -/
  | other (code : Int)
deriving DecidableEq

namespace AddressingMode

def ofInt : Int → AddressingMode
  | 0 => .implied
  | 1 => .immediate
  | 2 => .zeroPage
  | 3 => .zeroPageIndexedX
  | 4 => .zeroPageIndexedY
  | 5 => .absolute
  | 6 => .absoluteIndexedX
  | 7 => .absoluteIndexedY
  | 8 => .indexedIndirect
  | 9 => .indirectIndexed
  | n => .other n

def text : AddressingMode → String
  | .implied => "Implied"
  | .immediate => "Immediate"
  | .zeroPage => "ZeroPage"
  | .zeroPageIndexedX => "ZeroPageIndexedX"
  | .zeroPageIndexedY => "ZeroPageIndexedY"
  | .absolute => "Absolute"
  | .absoluteIndexedX => "AbsoluteIndexedX"
  | .absoluteIndexedY => "AbsoluteIndexedY"
  | .indexedIndirect => "IndexedIndirect"
  | .indirectIndexed => "IndirectIndexed"
  | .other _ => "unknown addressing mode"

def abbreviation : AddressingMode → String
  | .implied => "IMP"
  | .immediate => "IMM"
  | .zeroPage => "ZP"
  | .zeroPageIndexedX => "ZPX"
  | .zeroPageIndexedY => "ZPY"
  | .absolute => "ABS"
  | .absoluteIndexedX => "ABX"
  | .absoluteIndexedY => "ABY"
  | .indexedIndirect => "INX"
  | .indirectIndexed => "INY"
  | .other _ => "UNK"

/-- Whether an index register takes part in the address. -/
def indexed : AddressingMode → Bool
  | .zeroPageIndexedX | .zeroPageIndexedY | .absoluteIndexedX | .absoluteIndexedY
  | .indexedIndirect | .indirectIndexed => true
  | _ => false

end AddressingMode

/-- What an instruction does with its operand on the bus. -/
inductive BusEffect where
  | read
  | write
  /-- the bus only fetches opcodes and does dummy reads -/
  | internal
  | other (code : Int)
deriving DecidableEq

namespace BusEffect

def ofInt : Int → BusEffect
  | 0 => .read
  | 1 => .write
  | 2 => .internal
  | n => .other n

def text : BusEffect → String
  | .read => "Read"
  | .write => "Write"
  | .internal => "Internal"
  | .other _ => "unknown effect"

end BusEffect

structure Instruction where
  opcode : UInt8
  mnemonic : String
  bytes : Int
  cycles : Int
  mode : AddressingMode
  /-- whether crossing a page costs a cycle -/
  pageSensitive : Bool
  effect : BusEffect

namespace Instruction

def text (i : Instruction) : String :=
  if i.mnemonic.isEmpty then "undecoded instruction"
  else
    Text.hexPadded 2 i.opcode.toNat ++ " " ++ i.mnemonic ++ " +" ++ Text.integer i.bytes ++
      "bytes (" ++ Text.integer i.cycles ++ " cycles) [mode=" ++ i.mode.text ++ " pagesens=" ++
      (if i.pageSensitive then "true" else "false") ++ " effect=" ++ i.effect.text ++ "]"

def label (i : Instruction) : String := i.mnemonic ++ "_" ++ i.mode.abbreviation

/-- The implemented instructions. Indexed stores always take the extra cycle, so they are not
sensitive to pages. -/
def table : List Instruction := [
  ⟨0xa9, "LDA", 2, 2, .immediate, false, .read⟩,
  ⟨0xa5, "LDA", 2, 3, .zeroPage, false, .read⟩,
  ⟨0xb5, "LDA", 2, 4, .zeroPageIndexedX, false, .read⟩,
  ⟨0xad, "LDA", 3, 4, .absolute, false, .read⟩,
  ⟨0xbd, "LDA", 3, 4, .absoluteIndexedX, true, .read⟩,
  ⟨0xb9, "LDA", 3, 4, .absoluteIndexedY, true, .read⟩,
  ⟨0xa1, "LDA", 2, 6, .indexedIndirect, false, .read⟩,
  ⟨0xb1, "LDA", 2, 5, .indirectIndexed, true, .read⟩,
  ⟨0xa2, "LDX", 2, 2, .immediate, false, .read⟩,
  ⟨0xa6, "LDX", 2, 3, .zeroPage, false, .read⟩,
  ⟨0xb6, "LDX", 2, 4, .zeroPageIndexedY, false, .read⟩,
  ⟨0xae, "LDX", 3, 4, .absolute, false, .read⟩,
  ⟨0xbe, "LDX", 3, 4, .absoluteIndexedY, true, .read⟩,
  ⟨0xa0, "LDY", 2, 2, .immediate, false, .read⟩,
  ⟨0xa4, "LDY", 2, 3, .zeroPage, false, .read⟩,
  ⟨0xb4, "LDY", 2, 4, .zeroPageIndexedX, false, .read⟩,
  ⟨0xac, "LDY", 3, 4, .absolute, false, .read⟩,
  ⟨0xbc, "LDY", 3, 4, .absoluteIndexedX, true, .read⟩,
  ⟨0x85, "STA", 2, 3, .zeroPage, false, .write⟩,
  ⟨0x95, "STA", 2, 4, .zeroPageIndexedX, false, .write⟩,
  ⟨0x8d, "STA", 3, 4, .absolute, false, .write⟩,
  ⟨0x9d, "STA", 3, 5, .absoluteIndexedX, false, .write⟩,
  ⟨0x99, "STA", 3, 5, .absoluteIndexedY, false, .write⟩,
  ⟨0x81, "STA", 2, 6, .indexedIndirect, false, .write⟩,
  ⟨0x91, "STA", 2, 6, .indirectIndexed, false, .write⟩,
  ⟨0x86, "STX", 2, 3, .zeroPage, false, .write⟩,
  ⟨0x96, "STX", 2, 4, .zeroPageIndexedY, false, .write⟩,
  ⟨0x8e, "STX", 3, 4, .absolute, false, .write⟩,
  ⟨0x84, "STY", 2, 3, .zeroPage, false, .write⟩,
  ⟨0x94, "STY", 2, 4, .zeroPageIndexedX, false, .write⟩,
  ⟨0x8c, "STY", 3, 4, .absolute, false, .write⟩,
  ⟨0x18, "CLC", 1, 2, .implied, false, .internal⟩,
  ⟨0x38, "SEC", 1, 2, .implied, false, .internal⟩,
  ⟨0x58, "CLI", 1, 2, .implied, false, .internal⟩,
  ⟨0x78, "SEI", 1, 2, .implied, false, .internal⟩,
  ⟨0xb8, "CLV", 1, 2, .implied, false, .internal⟩,
  ⟨0xd8, "CLD", 1, 2, .implied, false, .internal⟩,
  ⟨0xf8, "SED", 1, 2, .implied, false, .internal⟩,
  ⟨0xea, "NOP", 1, 2, .implied, false, .internal⟩]

/-- The implemented instruction of an opcode. -/
def lookup? (opcode : UInt8) : Option Instruction := table.find? (·.opcode == opcode)

end Instruction

end CycleCheck

import CycleCheck.Instruction
import CycleCheck.Processor.Variable

/-!
Micro-states. The processor is resetting, fetching an instruction, or in one of the cycles of an
instruction; a cycle that corrects an address after a carry is a fix-up cycle. Micro-states are
numbered in order and coded by constants just wide enough for the largest number.
-/

namespace CycleCheck.Processor

inductive MicroState where
  | resetting
  | instructionFetch
  | cycle (label : String) (n : Nat)
  | fixup (label : String) (n : Nat)
deriving DecidableEq

def MicroState.name : MicroState → String
  | .resetting => "Resetting"
  | .instructionFetch => "InstructionFetch"
  | .cycle label n => label ++ "_Cycle" ++ Text.decimal n
  | .fixup label n => label ++ "_Cycle" ++ Text.decimal n ++ "x"

/-- The micro-states of an instruction, none for a mode that is not supported. -/
def schedule? (i : Instruction) : Option (List MicroState) :=
  let c := MicroState.cycle i.label
  let x := MicroState.fixup i.label
  match i.mode with
  | .implied | .immediate => some [c 1]
  | .zeroPage => some [c 1, c 2]
  | .zeroPageIndexedX | .zeroPageIndexedY | .absolute => some [c 1, c 2, c 3]
  | .absoluteIndexedX | .absoluteIndexedY => some [c 1, c 2, x 2, c 3]
  | .indexedIndirect => some [c 1, c 2, c 3, c 4, c 5]
  | .indirectIndexed => some [c 1, c 2, c 3, x 3, c 4]
  | .other _ => none

/-- Why instructions make no sense for the processor. -/
inductive ProcessorError where
  | unsupportedMode (mode : AddressingMode)
  | duplicateState (name : String)
  | immediateOperand (mnemonic : String)
  | unknownState (name : String)
  | noRegister (mnemonic : String)

def ProcessorError.message : ProcessorError → String
  | .unsupportedMode mode => "cpu: unsupported addressing mode " ++ mode.text
  | .duplicateState name => "cpu: duplicate micro-state " ++ name
  | .immediateOperand mnemonic => "cpu: " ++ mnemonic ++ " cannot use immediate addressing"
  | .unknownState name => "cpu: unknown micro-state " ++ name
  | .noRegister mnemonic => "cpu: " ++ mnemonic ++ " has no register operand"

/-- The bits needed to write a number. -/
def bitLength (n : Nat) : Nat := if n = 0 then 0 else Nat.log2 n + 1

/-- Micro-states in the order of their numbers. -/
structure MicroStates where
  names : Array String

namespace MicroStates

def ofList (states : List MicroState) : MicroStates := ⟨(states.map MicroState.name).toArray⟩

def size (s : MicroStates) : Nat := s.names.size

/-- The width of the code of a micro-state, at least one bit. -/
def width (s : MicroStates) : Nat := max 1 (bitLength (s.size - 1))

def index? (s : MicroStates) (name : String) : Option Nat := s.names.findIdx? (· == name)

def name? (s : MicroStates) (i : Int) : Option String :=
  if i < 0 then none else s.names[i.toNat]?

/-- The code of a micro-state by name. -/
def literal (s : MicroStates) (name : String) : Except ProcessorError Term :=
  match s.index? name with
  | some i => .ok (.word s.width i)
  | none => .error (.unknownState name)

end MicroStates

/-- The first name in a list that stands in it before. -/
def firstRepeat : List String → List String → Option String
  | _, [] => none
  | seen, n :: rest => if seen.contains n then some n else firstRepeat (n :: seen) rest

end CycleCheck.Processor

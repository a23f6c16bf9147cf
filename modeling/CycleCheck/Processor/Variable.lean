import CycleCheck.Timeline

/-!
The variables of the processor: registers, micro-state, bus outputs and internal registers. All
but the data coming in are outputs of every cycle.
-/

namespace CycleCheck.Processor

inductive Variable where
  | a | x | y | sp | p | pc
  | state | resetSequence
  | addressBus | writeEnable | dataOut
  | tempAddress | tempPointer
  | dataIn
deriving DecidableEq

namespace Variable

def name : Variable → String
  | .a => "CPU_A"
  | .x => "CPU_X"
  | .y => "CPU_Y"
  | .sp => "CPU_SP"
  | .p => "CPU_P"
  | .pc => "CPU_PC"
  | .state => "CPU_State"
  | .resetSequence => "CPU_ResetSequence"
  | .addressBus => "CPU_AddressBus"
  | .writeEnable => "CPU_WriteEnable"
  | .dataOut => "CPU_DataOut"
  | .tempAddress => "CPU_TempAddress"
  | .tempPointer => "CPU_TempPointer"
  | .dataIn => "CPU_DataIn"

/-- What a cycle computes, in the order in which it is declared. -/
def outputs : List Variable :=
  [.a, .x, .y, .sp, .p, .pc, .state, .resetSequence, .addressBus, .writeEnable, .dataOut,
    .tempAddress, .tempPointer]

/-- The width of a variable. The width of the micro-state depends on the instructions and is not
fixed here. -/
def width : Variable → Nat
  | .a | .x | .y | .sp | .p => 8
  | .pc => 16
  | .state => 0
  | .resetSequence => 3
  | .addressBus => 16
  | .writeEnable => 1
  | .dataOut => 8
  | .tempAddress => 16
  | .tempPointer => 8
  | .dataIn => 8

/-- What a cycle depends on. -/
def inputs : List Variable := outputs ++ [.dataIn]

def ofName? (s : String) : Option Variable := inputs.find? (·.name == s)

end Variable

/-- The fixed width of a variable by its name, zero if it has none. -/
def widthOf (name : String) : Nat := (Variable.ofName? name).elim 0 Variable.width

/-- The number of phases of the reset sequence. -/
def resetPhases : Nat := 8

/-- Where the low byte of the reset vector stands. -/
def resetVectorLow : Nat := 0xfffc

/-- Where the high byte of the reset vector stands. -/
def resetVectorHigh : Nat := 0xfffd

end CycleCheck.Processor

import CycleCheck.Machine
import CycleCheck.Propagation.Solve

/-!
Traces: what a model says of a system, cycle by cycle.
-/

namespace CycleCheck

/-- A value in a trace: that of a register or a line, or the name of a micro-state. -/
inductive TraceValue where
  | word (n : UInt64)
  | state (name : Option String)
  | unknown

namespace Machine

/-- The variables of a row. -/
def traced : List Processor.Variable := Processor.Variable.outputs ++ [.dataIn]

def traceValue (sys : Machine) (m : Propagation.State) (cycle : Nat) (v : Processor.Variable) :
    TraceValue :=
  match m.value? (Timeline.versionedName v.name cycle) with
  | none => .unknown
  | some n => if v = .state then .state (sys.processor.states.name? n.toNat) else .word n

/-- A row for the start and for every cycle. -/
def trace (sys : Machine) (m : Propagation.State) : List (List TraceValue) :=
  (List.range (sys.cycles + 1)).map fun cycle => traced.map (sys.traceValue m cycle)

/-- A cell of RAM at the end. -/
def cell? (sys : Machine) (m : Propagation.State) (address : UInt64) : Option UInt64 :=
  match sys.symbol Memory.Ram.memory with
  | .ok s => m.cell? s.name address
  | .error _ => m.cell? "" address

end Machine

end CycleCheck

import CycleCheck.Processor.Rule

/-!
The processor: its instructions, their micro-states and rules, and the blocks that power it on and
run one cycle.
-/

namespace CycleCheck

/-- Values of the registers. -/
structure Registers where
  a : UInt8 := 0
  x : UInt8 := 0
  y : UInt8 := 0
  sp : UInt8 := 0
  p : UInt8 := 0
  pc : UInt16 := 0

open Processor in
structure Processor where
  instructions : List Instruction
  states : MicroStates
  rules : List Rule

namespace Processor

/-- All micro-states, in the order of their numbers. -/
def microStates (instructions : List Instruction) : List MicroState :=
  .resetting :: .instructionFetch :: instructions.flatMap fun i => (schedule? i).getD []

/-- All rules: reset, decoding, and the cycles of each instruction. -/
def allRules (instructions : List Instruction) : List Rule :=
  resetRules ++ instructions.map decodeRule ++ instructions.flatMap instructionRules

/-- The processor of an instruction list that makes sense. -/
def ofList (instructions : List Instruction) : Processor where
  instructions := instructions
  states := .ofList (microStates instructions)
  rules := allRules instructions

/-- Adds the micro-states of the instructions to those seen; each micro-state may occur once. -/
def checkStates (seen : List String) : List Instruction → Except ProcessorError Unit
  | [] => .ok ()
  | i :: rest =>
      match schedule? i with
      | none => .error (.unsupportedMode i.mode)
      | some states =>
          let names := states.map MicroState.name
          match firstRepeat seen names with
          | some n => .error (.duplicateState n)
          | none => checkStates (names ++ seen) rest

/-- Only loads can have an immediate operand. -/
def checkImmediate (i : Instruction) : Except ProcessorError Unit :=
  if i.mode = .immediate ∧ i.effect ≠ .read then .error (.immediateOperand i.mnemonic) else .ok ()

/-- The processor of an instruction list, unless the list makes no sense. -/
def ofInstructions (instructions : List Instruction) : Except ProcessorError Processor := do
  checkStates [MicroState.resetting.name, MicroState.instructionFetch.name] instructions
  instructions.forM checkImmediate
  pure (ofList instructions)

/-- The processor of the implemented instructions. -/
def standard : Processor := ofList Instruction.table

def width (mc : Processor) : Variable → Nat
  | .state => mc.states.width
  | v => v.width

/-- Declares the outputs. -/
def declareOutputs (mc : Processor) (out : Binding) : Formula :=
  Variable.outputs.map fun v => .declareBits (out.symbol v.name) ⟨(mc.width v).toUInt64⟩

/-- Power on: the processor is resetting and the bus is idle. The registers are known if they are
given, and then so are the internal ones. -/
def powerOn (mc : Processor) (registers : Option Registers) : Block where
  reads := []
  writes := Variable.outputs.map Variable.name
  generate := fun _ out =>
    let fix (v : Variable) (n : Nat) : Command :=
      .assert (.eq (out.term v.name) (.word (mc.width v) n))
    let idle := [fix .state 0, fix .resetSequence 0, fix .addressBus 0, fix .writeEnable 0,
      fix .dataOut 0]
    let known := match registers with
      | none => []
      | some r => [fix .a r.a.toNat, fix .x r.x.toNat, fix .y r.y.toNat, fix .sp r.sp.toNat,
          fix .p r.p.toNat, fix .pc r.pc.toNat, fix .tempAddress 0, fix .tempPointer 0]
    .ok (.note "cpu power on" :: mc.declareOutputs out ++ idle ++ known)

/-- The implication of a rule: if the rule applies, each output has the term the rule gives it. -/
def ruleAssertion (mc : Processor) (inp : Inputs) (out : Variable → Term) (r : Rule) :
    Except ProcessorError Command := do
  let here := Term.eq (inp .state) (← mc.states.literal r.state.name)
  let antecedent := match r.guard with
    | none => here
    | some g => .all [here, g inp]
  let d ← r.effect inp
  let d ← match r.next with
    | none => pure d
    | some s => do pure (d.set .state (← mc.states.literal s.name))
  pure (.assert (.implies antecedent (.all (Variable.outputs.map fun v => .eq (out v) (d v)))))

/-- One cycle: an implication for every rule. -/
def cycle (mc : Processor) : Block where
  reads := Variable.inputs.map Variable.name
  writes := Variable.outputs.map Variable.name
  generate := fun inp out => do
    let before (v : Variable) : Term := inp.term v.name
    let after (v : Variable) : Term := out.term v.name
    let rules ← (mc.rules.mapM (mc.ruleAssertion before after)).mapError fun e => .broken e.message
    pure (.note "cpu cycle" :: mc.declareOutputs out ++ rules)

end Processor

end CycleCheck

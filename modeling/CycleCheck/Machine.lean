import CycleCheck.Cartridge.Mapper
import CycleCheck.Log
import CycleCheck.Memory.Ram
import CycleCheck.Processor

/-!
The whole system: processor, bus, RAM and cartridge. Its formula grows with every cycle: a cycle of
the processor and a bus phase, which is the front half, the handlers of the sixteen pages in order,
and the back half.
-/

namespace CycleCheck

open Memory Cartridge

structure MachineOptions where
  extensionality : Bool := false
  /-- values of the registers; unconstrained if there are none -/
  registers : Option Registers := none
  /-- content of RAM from address zero on; unconstrained if there is none -/
  ram : Option ByteArray := none
  permission : Permission := .deny

inductive MachineError where
  | mapper (e : MapperError)
  | noHandler (page : Nat)
  | alreadyPoweredOn
  | notPoweredOn
  | contents (e : RamError)
  | timeline (e : TimelineError)

def MachineError.fault : MachineError → Fault
  | .mapper e => .patterned "hardware: %v" [.fault e.fault]
  | .noHandler page => .patterned "hardware: %v"
      [.text (Mapper.identifier ++ " has no handler for page " ++ Text.decimal page)]
  | .alreadyPoweredOn => .patterned "hardware: %v" [.text "already powered on"]
  | .notPoweredOn => .patterned "hardware: %v" [.text "not powered on"]
  | .contents e => .patterned "hardware: %v" [.fault e.fault]
  | .timeline (.broken message) => .plain message
  | .timeline e => .patterned "hardware: %v" [.fault e.fault]

structure Machine where
  processor : Processor
  ram : Ram
  mapper : Mapper
  handlers : List PageHandler
  options : MachineOptions
  timeline : Timeline := {}
  /-- the commands so far, latest fragment first -/
  fragments : List Formula := []
  /-- how many commands there are so far -/
  size : Nat := 0
  poweredOn : Bool := false
  cycles : Nat := 0
  log : Log

namespace Machine

/-- The handler of a page. -/
def handlerOf (ram : Ram) (mapper : Mapper) (page : Nat) : Except MachineError PageHandler :=
  match areaOfPage page with
  | .ram => .ok (ram.handler page)
  | .cartridge =>
      match mapper.handler? page with
      | some h => .ok h
      | none => .error (.noHandler page)
  | _ => .ok (nullHandler page)

def ofRom (rom : Rom) (options : MachineOptions) (log : Log := .central) :
    Except MachineError Machine := do
  let mapper ← (Mapper.ofRom rom).mapError .mapper
  let ram : Ram := ⟨options.extensionality⟩
  let handlers ← (List.range pageCount).mapM (handlerOf ram mapper)
  pure { processor := .standard, ram, mapper, handlers, options, log }

def slots (sys : Machine) : List Slot := sys.handlers.mapIdx fun i h => ⟨i, h.stem⟩

/-- The formula of all commands, behind the choice of the logic. -/
def formula (sys : Machine) : Formula :=
  .logic ⟨"QF_ABV"⟩ :: sys.fragments.foldl (fun acc f => f ++ acc) []

/-- Applies blocks in order. A block that fails stops it; what was applied before stays. -/
def applyBlocks (sys : Machine) : List Block → Machine × Except MachineError Unit
  | [] => (sys, .ok ())
  | b :: rest =>
      match sys.timeline.apply b with
      | .error e => (sys, .error (.timeline e))
      | .ok (f, timeline) =>
          applyBlocks { sys with
            timeline
            fragments := f :: sys.fragments
            size := sys.size + f.length } rest

/-- Applies blocks and logs that under a label. -/
def apply (sys : Machine) (label : String) (blocks : List Block) :
    Machine × Except MachineError Unit :=
  match sys.applyBlocks blocks with
  | (sys, .error e) => (sys, .error e)
  | (sys, .ok ()) =>
      ({ sys with
          log := sys.log.logf (some sys.options.permission) "system"
            "%s: %d units (%d fragments total)"
            [.text label, .int blocks.length, .int sys.size] }, .ok ())

/-- The blocks of one bus phase. -/
def busPhase (sys : Machine) : List Block :=
  frontHalf sys.slots :: sys.handlers.map PageHandler.block ++ [backHalf sys.slots]

/-- The blocks of power on. -/
def powerOnBlocks (sys : Machine) : Except MachineError (List Block) := do
  let contents ← match sys.options.ram with
    | none => pure []
    | some data => (Ram.contents 0 data).mapError .contents |>.map ([·])
  pure (sys.processor.powerOn sys.options.registers :: Ram.powerOn :: contents ++
    sys.mapper.initialiser :: sys.busPhase)

def powerOn (sys : Machine) : Machine × Except MachineError Unit :=
  if sys.poweredOn then (sys, .error .alreadyPoweredOn)
  else match sys.powerOnBlocks with
    | .error e => (sys, .error e)
    | .ok blocks =>
        match sys.apply "power on" blocks with
        | (sys, .error e) => (sys, .error e)
        | (sys, .ok ()) => ({ sys with poweredOn := true }, .ok ())

/-- One cycle. -/
def step (sys : Machine) : Machine × Except MachineError Unit :=
  if !sys.poweredOn then (sys, .error .notPoweredOn)
  else match sys.apply ("cycle " ++ Text.decimal (sys.cycles + 1))
      (sys.processor.cycle :: sys.busPhase) with
    | (sys, .error e) => (sys, .error e)
    | (sys, .ok ()) => ({ sys with cycles := sys.cycles + 1 }, .ok ())

/-- A number of cycles, up to the first that fails. -/
def run (sys : Machine) : Nat → Machine × Except MachineError Unit
  | 0 => (sys, .ok ())
  | n + 1 =>
      match sys.step with
      | (sys, .error e) => (sys, .error e)
      | (sys, .ok ()) => run sys n

/-- How many cycles a reset takes. -/
def resetCycles : Nat := 8

def reset (sys : Machine) : Machine × Except MachineError Unit := sys.run resetCycles

/-- Applies a block of one's own. -/
def applyBlock (sys : Machine) (b : Block) : Machine × Except MachineError Unit :=
  sys.apply "unit" [b]

/-- The symbol of the current version of a variable. -/
def symbol (sys : Machine) (name : String) : Except MachineError Symbol :=
  (sys.timeline.current name).mapError .timeline

def text (sys : Machine) : String := sys.mapper.text ++ ", " ++ Text.decimal sys.cycles ++ " cycles"

end Machine

end CycleCheck

import CycleCheck.Scenario.Basic
import CycleCheck.Machine

/-!
Compilation of scenarios. A scenario that makes sense becomes a system that has run the reset
sequence and the cycles of the scenario, and a goal: the conjunction of what is expected.
-/

namespace CycleCheck

open Memory Cartridge Scenario

/-- What makes a scenario senseless. -/
inductive ScenarioFlaw where
  | negativeCycles
  | nothingExpected
  | status (e : Processor.StatusError)
  | tooLongForRam
  | tooLongForCartridge
  | originOutside (a : UInt16)
  | ramOutside (a : UInt16)
  | expectedOutside (a : UInt16)
  | prgOutside (a : UInt16)

namespace ScenarioFlaw

/-- A complaint about an address. -/
def misplaced (complaint : String) (a : UInt16) : Datum :=
  .text (complaint ++ " (0x" ++ Text.hexPadded 4 a.toNat ++ ")")

def datum : ScenarioFlaw → Datum
  | .negativeCycles => .text "negative number of cycles"
  | .nothingExpected => .text "nothing is expected"
  | .status e => .fault e.fault
  | .tooLongForRam => .text "program does not fit in RAM"
  | .tooLongForCartridge => .text "program does not fit in the cartridge area"
  | .originOutside a => misplaced "origin is not in RAM or the cartridge area" a
  | .ramOutside a => misplaced "address is not in RAM" a
  | .expectedOutside a => misplaced "expected address is not in RAM" a
  | .prgOutside a => misplaced "address is not in the cartridge area" a

end ScenarioFlaw

/-- Why there is no system for a scenario; all but the first name it. -/
inductive ScenarioError where
  | noName
  | flawed (name : String) (flaw : ScenarioFlaw)
  | build (name : String) (e : BuildError)
  | system (name : String) (e : MachineError)

def ScenarioError.fault : ScenarioError → Fault
  | .noName => .patterned "verification: %v" [.text "scenario has no name"]
  | .flawed name flaw => .patterned "verification: %s: %v" [.text name, flaw.datum]
  | .build name e => .patterned "verification: %s: %v" [.text name, .fault e.fault]
  | .system name e => .patterned "verification: %s: %v" [.text name, .fault e.fault]

namespace Scenario

/-- The place of the program. -/
def checkOrigin (s : Scenario) : Except ScenarioFlaw Unit :=
  let last := s.origin.toNat + s.program.length
  match areaOf s.origin with
  | .ram => if last > ramSize then .error .tooLongForRam else .ok ()
  | .cartridge => if last > memtop + 1 then .error .tooLongForCartridge else .ok ()
  | _ => .error (.originOutside s.origin)

/-- All addresses of a map must lie in an area. The first one that is met outside is reported. -/
def checkArea (area : Area) (flaw : UInt16 → ScenarioFlaw) (m : Option ByteMap)
    (order : MapOrder := .sorted) : Except ScenarioFlaw Unit :=
  match (order.arrange (ByteMap.entriesOf m)).find? (fun e => areaOf e.1 ≠ area) with
  | some (a, _) => .error (flaw a)
  | none => .ok ()

def checkStatus (s : Scenario) : Except ScenarioFlaw Unit :=
  if s.expect.p.isEmpty then .ok ()
  else match Processor.StatusFlags.parse s.expect.p with
    | .ok _ => .ok ()
    | .error e => .error (.status e)

/-- The first flaw there is. -/
def checkFlaws (s : Scenario) (order : MapOrder := .sorted) : Except ScenarioFlaw Unit := do
  if s.cycles < 0 then throw .negativeCycles
  if s.expect.isEmpty then throw .nothingExpected
  s.checkStatus
  s.checkOrigin
  checkArea .ram .ramOutside s.ram order
  checkArea .ram .expectedOutside s.expect.ram order
  checkArea .cartridge .prgOutside s.prg order

/-- Whether the scenario makes sense. -/
def validate (s : Scenario) (order : MapOrder := .sorted) : Except ScenarioError Unit :=
  if s.name.isEmpty then .error .noName else (s.checkFlaws order).mapError (.flawed s.name)

/-- The cartridge before the program is written. The reset vector of a given cartridge stays
unless the scenario has a vector. -/
def cartridge (s : Scenario) (options : ScenarioOptions) : Builder :=
  let b := ({} : Builder).name s.name
  match options.rom with
  | some rom =>
      let b := ((b.name rom.name).mapper rom.mapper).prg rom.prg
      match s.vector with
      | some v => b.vector Processor.resetVectorLow v
      | none => b
  | none => b.vector Processor.resetVectorLow (s.vector.getD s.origin)

/-- The cartridge with the program, if it stands there, and the bytes for it. -/
def fullCartridge (s : Scenario) (options : ScenarioOptions) : Builder :=
  let b := s.cartridge options
  let b := if areaOf s.origin = .ram then b else b.write s.origin.toNat s.program
  (ByteMap.entriesOf s.prg).foldl (fun b e => b.write e.1.toNat [e.2]) b

/-- Puts bytes at consecutive places. -/
def placeBytes : Nat → List UInt8 → ByteArray → ByteArray
  | _, [], image => image
  | i, v :: rest, image => placeBytes (i + 1) rest (Bytes.put image i v)

/-- RAM at the start: the program, if it stands there, and the bytes for it; zero elsewhere. -/
def ramImage (s : Scenario) : ByteArray :=
  let image := Bytes.zeros ramSize
  let image := if areaOf s.origin = .ram then placeBytes s.origin.toNat s.program image else image
  (ByteMap.entriesOf s.ram).foldl (fun m e => Bytes.put m (mapAddress e.1).1.toNat e.2) image

/-- The claims of the goal, in a fixed order: registers, status, RAM. -/
def claims (s : Scenario) (sys : Machine) : Except MachineError (List Term) := do
  let e := s.expect
  let register (v : Processor.Variable) (value : Option Nat) : Except MachineError (List Term) :=
    match value with
    | none => .ok []
    | some n => do pure [.eq (.symbol (← sys.symbol v.name)) (.word v.width n)]
  let a ← register .a (e.a.map UInt8.toNat)
  let x ← register .x (e.x.map UInt8.toNat)
  let y ← register .y (e.y.map UInt8.toNat)
  let sp ← register .sp (e.sp.map UInt8.toNat)
  let pc ← register .pc (e.pc.map UInt16.toNat)
  let p ←
    if e.p.isEmpty then pure []
    else match Processor.StatusFlags.parse e.p with
      | .error _ => pure []
      | .ok f => do
          let status := Term.symbol (← sys.symbol Processor.Variable.p.name)
          pure [Term.eq (.bitAnd status (.word 8 f.mask.toNat)) (.word 8 f.value.toNat)]
  let cells ← match ByteMap.entriesOf e.ram with
    | [] => pure []
    | entries => do
        let memory := Term.symbol (← sys.symbol Ram.memory)
        pure (entries.map fun (a, v) =>
          Term.eq (.select memory (Ram.cellIndex (mapAddress a).1.toNat)) (.word 8 v.toNat))
  pure (a ++ x ++ y ++ sp ++ pc ++ p ++ cells)

/-- Runs a new system through power on, reset and a number of cycles. -/
def runMachine (sys : Machine) (cycles : Nat) : Except MachineError Machine :=
  match sys.powerOn with
  | (_, .error e) => .error e
  | (sys, .ok ()) =>
      match sys.reset with
      | (_, .error e) => .error e
      | (sys, .ok ()) =>
          match sys.run cycles with
          | (_, .error e) => .error e
          | (sys, .ok ()) => .ok sys

/-- The system after the cycles of the scenario, and the goal. -/
def compile (s : Scenario) (options : ScenarioOptions) (log : Log := .central)
    (order : MapOrder := .sorted) : Except ScenarioError (Machine × Term) := do
  s.validate order
  let rom ← (s.fullCartridge options).build.mapError (.build s.name)
  let sys ← (Machine.ofRom rom {
    extensionality := options.extensionality
    registers := some s.registers
    ram := some s.ramImage
    permission := options.permission } log).mapError (.system s.name)
  let sys ← (runMachine sys s.cycles.toNat).mapError (.system s.name)
  let claims ← (s.claims sys).mapError (.system s.name)
  pure (sys, .all claims)

end Scenario

end CycleCheck

import CycleCheck.Cartridge.Loader
import CycleCheck.CommandLine.Modes
import CycleCheck.Diagram
import CycleCheck.Scenario.Builtin
import CycleCheck.Scenario.Reading
import CycleCheck.Scenario.Run
import CycleCheck.Solver.Cache
import CycleCheck.Solver.Executable
import CycleCheck.Version

/-!
The program behind the command line. `launch` takes the arguments and gives the exit value and all
that is written; files and solver programs come from a world, so that the same program runs on a
real file system and on files that are values.
-/

namespace CycleCheck.CommandLine

/-- What the program sees of the world. -/
structure World (m : Type → Type) where
  read : String → m (Except FileError ByteArray)
  programs : Solver.Programs
  /-- the text of every measured time -/
  elapsed : String
  /-- whether what is written may have colours -/
  colour : Bool := false

/-- Why a mode fails. -/
inductive ModeError where
  | modes (e : ModesError)
  | flag (e : FlagError)
  | noScenarios
  | noScenarioNamed (name : String)
  | unknownSolver (e : Solver.SolverError)
  | missingSolver (command : String)
  | cartridge (e : Cartridge.LoaderError)
  | unloaded (e : LoadError)
  | uncompiled (e : ScenarioError)
  | failed (failures total : Nat)

namespace ModeError

def message : ModeError → String
  | .modes e => e.message
  | .flag e => e.message
  | .noScenarios => "no scenarios"
  | .noScenarioNamed name => "no scenario named " ++ Text.quoted name
  | .unknownSolver e => e.fault.message
  | .missingSolver command => (Solver.SolverError.notFound command).fault.message
  | .cartridge e => e.fault.message
  | .unloaded e => e.fault.message
  | .uncompiled e => e.fault.message
  | .failed failures total =>
      Text.decimal failures ++ " of " ++ Text.decimal total ++ " scenarios failed"

/-- Whether the arguments are to blame. -/
def isArgumentError : ModeError → Bool
  | .modes _ | .flag _ | .noScenarios | .noScenarioNamed _ | .unknownSolver _ => true
  | _ => false

/-- The exit value of the program. -/
def exitValue (e : ModeError) : Nat := if e.isArgumentError then 10 else 20

end ModeError

/-- What a mode writes, and why it fails if it does. -/
structure ModeOutcome where
  output : String
  error : Option ModeError := none

/-- A mode that fails before it writes anything. -/
def ModeOutcome.ofError (e : ModeError) : ModeOutcome := ⟨"", some e⟩

/-- What a mode says about itself, its flags, and what it does. -/
structure Mode (m : Type → Type) where
  help : String
  flags : List Flag
  run : World m → Modes → List String → ExceptT ModeError m ModeOutcome

namespace Modes

def flagOn (md : Modes) (name : String) : Bool :=
  match md.value? name with
  | some (.bool b) => b
  | _ => false

def flagText (md : Modes) (name : String) : String :=
  match md.value? name with
  | some v => v.toText
  | none => ""

/-- A duration in nanoseconds. -/
def flagDuration (md : Modes) (name : String) : Int :=
  match md.value? name with
  | some (.duration d) => d
  | _ => 0

end Modes

section

variable {m : Type → Type} [Monad m]

/-- The flags of every mode that compiles scenarios. -/
def compileFlags : List Flag :=
  [.make "extensionality" "compare RAM contents cell by cell" (.bool false),
    .make "rom" "iNES file to use as the cartridge" (.text ""),
    .make "log" "echo log to stdout" (.bool false)]

/-- The cartridge in a file. -/
def loadRom (w : World m) (path : String) : ExceptT ModeError m Cartridge.Rom := do
  let loader : Cartridge.Loader := { filename := path }
  let loaded ← (ExceptT.mk (loader.load w.read)).adapt ModeError.cartridge
  ExceptT.mk (pure (loaded.rom.mapError ModeError.cartridge))

/-- The options that the flags ask for. -/
def compileOptions (w : World m) (md : Modes) : ExceptT ModeError m ScenarioOptions := do
  let path := md.flagText "rom"
  let rom ← if path.isEmpty then pure none else some <$> loadRom w path
  pure {
    extensionality := md.flagOn "extensionality"
    rom
    permission := if md.flagOn "log" then .allow else .deny }

/-- The log that the flags ask for. -/
def startLog (md : Modes) : Log := { Log.central with echo := md.flagOn "log" }

/-- The scenarios of the files in order, or those that are built in if there is no file. -/
def scenariosOf (w : World m) (paths : List String) : ExceptT ModeError m (List Scenario) :=
  if paths.isEmpty then pure Scenario.builtin
  else do
    let loaded ← paths.mapM fun path =>
      (ExceptT.mk (Scenario.loadFile w.read path)).adapt ModeError.unloaded
    pure loaded.flatten

/-- The first scenario with a name, or the first one if the name is empty. -/
def selectScenario (scenarios : List Scenario) (name : String) : Except ModeError Scenario :=
  match scenarios with
  | [] => .error .noScenarios
  | first :: _ =>
      if name.isEmpty then .ok first
      else match scenarios.find? (Text.equalFold ·.name name) with
        | some s => .ok s
        | none => .error (.noScenarioNamed name)

/-- The one scenario that the flags name, compiled. -/
def compileSelected (w : World m) (md : Modes) (paths : List String) :
    ExceptT ModeError m (Machine × Term) := do
  let options ← compileOptions w md
  let s ← ExceptT.mk (pure (selectScenario (← scenariosOf w paths) (md.flagText "name")))
  ExceptT.mk (pure ((s.compile options (startLog md)).mapError ModeError.uncompiled))

/-- A solver that is a program of its own must be there. -/
def requireSolver (w : World m) : Solver.Choice → Except ModeError Unit
  | .propagate => .ok ()
  | .executable e =>
      if e.available w.programs then .ok () else .error (.missingSolver e.command)

/-- Checks all scenarios and reports on each of them. -/
def verifyAll (w : World m) (md : Modes) (options : ScenarioOptions) (choice : Solver.Choice)
    (scenarios : List Scenario) : ModeOutcome :=
  let b := (choice.backend w.programs w.elapsed).cached
  let ctx := ({} : Solver.Context).withLimit (md.flagDuration "timeout")
  let (results, cache) := runScenarios b ctx options w.elapsed scenarios { inner := startLog md }
  let closing := { b.log cache with echoed := "" }.log (some .allow) "solver"
    (.text (cache.table.text b.name))
  let lines := results.map (·.report w.elapsed w.colour) ++ [resultsText results]
  { output := (b.log cache).echoed ++ String.join (lines.map (· ++ "\n")) ++ closing.echoed
    error :=
      if failedCount results = 0 then none
      else some (.failed (failedCount results) results.length) }

def verify : Mode m where
  help := "Checks every scenario in the YAML files. The built-in scenarios are\n" ++
    "checked if no file is given."
  flags :=
    [.choose "solver" "solver backend" "z3" Solver.backendNames,
      .make "timeout" "time allowed for each scenario" (.duration 0),
      .make "parallel" "number of scenarios checked at the same time" (.int 1),
      .make "statsview" "run the runtime statistics viewer" (.bool false)] ++ compileFlags
  run := fun w md paths => do
    let options ← compileOptions w md
    let scenarios ← scenariosOf w paths
    let choice ← ExceptT.mk (pure
      ((Solver.Choice.ofName (md.flagText "solver")).mapError ModeError.unknownSolver))
    ExceptT.mk (pure (requireSolver w choice))
    pure (verifyAll w md options choice scenarios)

def emit : Mode m where
  help := "Writes the SMT-LIB2 of one scenario. The goal is negated so an unsat\n" ++
    "verdict means the expectations hold."
  flags :=
    [.make "name" "name of the scenario (default is the first)" (.text ""),
      .make "holds" "assert the goal instead of its negation" (.bool false)] ++ compileFlags
  run := fun w md paths => do
    let (sys, goal) ← compileSelected w md paths
    pure ⟨sys.log.echoed ++ Solver.solverInput (query sys.formula goal (md.flagOn "holds")), none⟩

def graph : Mode m where
  help := "Writes a graphviz rendering of the goal of one scenario. The whole\n" ++
    "formula is rendered with -formula."
  flags :=
    [.make "name" "name of the scenario (default is the first)" (.text ""),
      .make "formula" "render the whole formula" (.bool false)] ++ compileFlags
  run := fun w md paths => do
    let (sys, goal) ← compileSelected w md paths
    let drawn := if md.flagOn "formula" then Diagram.ofFormula sys.formula else Diagram.ofTerm goal
    pure ⟨sys.log.echoed ++ drawn, none⟩

/-- Takes the flags of a mode and runs it, unless help is wanted. -/
def Mode.start (mode : Mode m) (w : World m) (md : Modes) : m ModeOutcome :=
  let md := { md.newMode with additionalHelp := mode.help }
  match mode.flags.foldlM Modes.addFlag md with
  | .error e => pure (.ofError (.modes e))
  | .ok md =>
      match md.parse with
      | (_, .error e) => pure (.ofError (.modes e))
      | (_, .ok (.failed e)) => pure (.ofError (.flag e))
      | (_, .ok (.help text)) => pure ⟨text, none⟩
      | (md, .ok .proceed) =>
          match md.remaining with
          | .error e => pure (.ofError (.modes e))
          | .ok paths => do
              match ← mode.run w md paths with
              | .ok outcome => pure outcome
              | .error e => pure (.ofError e)

/-- The modes of the program; the first is the default. -/
def modeNames : List String := ["VERIFY", "EMIT", "GRAPH", "VERSION"]

def runMode (w : World m) (md : Modes) : m ModeOutcome :=
  match md.mode with
  | "VERIFY" => verify.start w md
  | "EMIT" => emit.start w md
  | "GRAPH" => graph.start w md
  | _ => pure ⟨Version.current.text ++ "\n", none⟩

/-- Runs the program: gives the exit value and what is written. -/
def launch (w : World m) (args : List String) : m (Nat × String) := do
  match ((({} : Modes).newArgs args).addSubModes modeNames).parse with
  | (_, .ok (.help text)) => pure (0, text)
  | (_, .ok (.failed e)) => pure (10, "* error: " ++ e.message ++ "\n")
  | (_, .error e) => pure (10, "* error: " ++ e.message ++ "\n")
  | (md, .ok .proceed) =>
      let outcome ← runMode w md
      match outcome.error with
      | none => pure (0, outcome.output)
      | some e =>
          pure (e.exitValue,
            outcome.output ++ "* error in " ++ md.pathText ++ " mode: " ++ e.message ++ "\n")

end

end CycleCheck.CommandLine

import CycleCheck.Scenario.Compile

/-!
What a scenario is compiled to does not depend on the log. A machine writes to its log and never
reads it, so machines that differ in their logs only go on with the same formula and the same
results.
-/

namespace CycleCheck

namespace Machine

/-- The same machine with another log. -/
def withLog (sys : Machine) (log : Log) : Machine := { sys with log }

/-- Machines that went on with the same result and differ in their logs at most. -/
inductive SameButLog :
    Machine × Except MachineError Unit → Machine × Except MachineError Unit → Prop where
  | mk (sys : Machine) (log : Log) (r : Except MachineError Unit) :
      SameButLog (sys, r) (sys.withLog log, r)

theorem applyBlocks_withLog (sys : Machine) (log : Log) (blocks : List Block) :
    (sys.withLog log).applyBlocks blocks =
      ((sys.applyBlocks blocks).1.withLog log, (sys.applyBlocks blocks).2) := by
  induction blocks generalizing sys with
  | nil => rfl
  | cons b rest ih =>
    have htimeline : (sys.withLog log).timeline = sys.timeline := rfl
    rw [applyBlocks, applyBlocks, htimeline]
    cases sys.timeline.apply b with
    | error e => rfl
    | ok r => exact ih { sys with
        timeline := r.2, fragments := r.1 :: sys.fragments, size := sys.size + r.1.length }

theorem apply_withLog (sys : Machine) (log : Log) (label : String) (blocks : List Block) :
    SameButLog (sys.apply label blocks) ((sys.withLog log).apply label blocks) := by
  rw [apply, apply, applyBlocks_withLog]
  generalize sys.applyBlocks blocks = r
  obtain ⟨sys, e | _⟩ := r
  · exact .mk sys log (.error e)
  · exact .mk { sys with log := _ } _ (.ok ())

theorem powerOn_withLog (sys : Machine) (log : Log) :
    SameButLog sys.powerOn (sys.withLog log).powerOn := by
  have hblocks : (sys.withLog log).powerOnBlocks = sys.powerOnBlocks := rfl
  have hpowered : (sys.withLog log).poweredOn = sys.poweredOn := rfl
  rw [powerOn, powerOn, hblocks, hpowered]
  cases sys.poweredOn with
  | true => exact .mk sys log _
  | false =>
    cases sys.powerOnBlocks with
    | error e => exact .mk sys log _
    | ok blocks =>
      have happly := sys.apply_withLog log "power on" blocks
      simp only [Bool.false_eq_true, if_false]
      generalize sys.apply "power on" blocks = r at happly ⊢
      generalize (sys.withLog log).apply "power on" blocks = r' at happly ⊢
      cases happly with
      | mk sys log r =>
        cases r with
        | error e => exact .mk sys log _
        | ok u => exact .mk { sys with poweredOn := true } log _

theorem step_withLog (sys : Machine) (log : Log) :
    SameButLog sys.step (sys.withLog log).step := by
  have hpowered : (sys.withLog log).poweredOn = sys.poweredOn := rfl
  have hcycles : (sys.withLog log).cycles = sys.cycles := rfl
  have hprocessor : (sys.withLog log).processor = sys.processor := rfl
  have hbus : (sys.withLog log).busPhase = sys.busPhase := rfl
  rw [step, step, hpowered, hcycles, hprocessor, hbus]
  cases sys.poweredOn with
  | false => exact .mk sys log _
  | true =>
    have happly := sys.apply_withLog log ("cycle " ++ Text.decimal (sys.cycles + 1))
      (sys.processor.cycle :: sys.busPhase)
    simp only [Bool.not_true, Bool.false_eq_true, if_false]
    generalize sys.apply ("cycle " ++ Text.decimal (sys.cycles + 1))
      (sys.processor.cycle :: sys.busPhase) = r at happly ⊢
    generalize (sys.withLog log).apply ("cycle " ++ Text.decimal (sys.cycles + 1))
      (sys.processor.cycle :: sys.busPhase) = r' at happly ⊢
    cases happly with
    | mk sys log r =>
      cases r with
      | error e => exact .mk sys log _
      | ok u => exact .mk { sys with cycles := sys.cycles + 1 } log _

theorem run_withLog (sys : Machine) (log : Log) (n : Nat) :
    SameButLog (sys.run n) ((sys.withLog log).run n) := by
  induction n generalizing sys log with
  | zero => exact .mk sys log _
  | succ n ih =>
    have hstep := sys.step_withLog log
    rw [run, run]
    generalize sys.step = r at hstep ⊢
    generalize (sys.withLog log).step = r' at hstep ⊢
    cases hstep with
    | mk sys log r =>
      cases r with
      | error e => exact .mk sys log _
      | ok u => exact ih sys log

theorem ofRom_withLog (rom : Cartridge.Rom) (options : MachineOptions) (log log' : Log) :
    ofRom rom options log' = (ofRom rom options log).map (·.withLog log') := by
  unfold ofRom
  cases (Cartridge.Mapper.ofRom rom).mapError MachineError.mapper with
  | error e => rfl
  | ok mapper =>
    simp only [bind, Except.bind]
    cases (List.range Memory.pageCount).mapM (handlerOf ⟨options.extensionality⟩ mapper) <;> rfl

end Machine

namespace Scenario

/-- Machines that both came up and differ in their logs at most, or the same error. -/
inductive SameMachine : Except MachineError Machine → Except MachineError Machine → Prop where
  | ok (sys : Machine) (log : Log) : SameMachine (.ok sys) (.ok (sys.withLog log))
  | error (e : MachineError) : SameMachine (.error e) (.error e)

theorem runMachine_withLog (sys : Machine) (log : Log) (cycles : Nat) :
    SameMachine (runMachine sys cycles) (runMachine (sys.withLog log) cycles) := by
  have hpower := sys.powerOn_withLog log
  rw [runMachine, runMachine]
  generalize sys.powerOn = r at hpower ⊢
  generalize (sys.withLog log).powerOn = r' at hpower ⊢
  cases hpower with
  | mk sys log r =>
    cases r with
    | error e => exact .error e
    | ok u =>
      have hreset := sys.run_withLog log Machine.resetCycles
      simp only [Machine.reset]
      generalize sys.run Machine.resetCycles = r at hreset ⊢
      generalize (sys.withLog log).run Machine.resetCycles = r' at hreset ⊢
      cases hreset with
      | mk sys log r =>
        cases r with
        | error e => exact .error e
        | ok u =>
          have hrun := sys.run_withLog log cycles
          dsimp only
          generalize sys.run cycles = r at hrun ⊢
          generalize (sys.withLog log).run cycles = r' at hrun ⊢
          cases hrun with
          | mk sys log r =>
            cases r with
            | error e => exact .error e
            | ok u => exact .ok sys log

/-- The formula and the goal that a scenario is compiled to. -/
def compiled (s : Scenario) (options : ScenarioOptions) (order : MapOrder := .sorted) :
    Except ScenarioError (Formula × Term) :=
  (s.compile options .central order).map fun r => (r.1.formula, r.2)

theorem map_compile (s : Scenario) (options : ScenarioOptions) (log : Log) (order : MapOrder) :
    (s.compile options log order).map (fun r => (r.1.formula, r.2)) =
      s.compiled options order := by
  unfold compiled compile
  cases s.validate order with
  | error e => rfl
  | ok u =>
    cases ((s.fullCartridge options).build.mapError (.build s.name) :
        Except ScenarioError Cartridge.Rom) with
    | error e => rfl
    | ok rom =>
      simp only [bind, Except.bind]
      rw [Machine.ofRom_withLog rom _ .central log]
      generalize Machine.ofRom rom _ .central = made
      cases made with
      | error e => rfl
      | ok sys =>
        have hrun := runMachine_withLog sys log s.cycles.toNat
        have hmade {τ : Type} (f : MachineError → τ) (sys : Machine) :
            (Except.ok sys).mapError f = .ok sys := rfl
        simp only [Except.map, hmade]
        generalize runMachine sys s.cycles.toNat = r at hrun ⊢
        generalize runMachine (sys.withLog log) s.cycles.toNat = r' at hrun ⊢
        cases hrun with
        | error e => rfl
        | ok sys log =>
          have hclaims : s.claims (sys.withLog log) = s.claims sys := rfl
          simp only [hmade]
          rw [hclaims]
          cases s.claims sys <;> rfl

end Scenario

end CycleCheck

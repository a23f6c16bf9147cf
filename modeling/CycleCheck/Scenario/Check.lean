import CycleCheck.Scenario.Compile
import CycleCheck.Solver.Backend

/-!
Checking. A goal is forced by a setup if the setup can be satisfied with it and cannot be satisfied
with its negation; two questions to a backend tell this from the three ways in which it can fail.
-/

namespace CycleCheck

open Solver

/-- The setup with the goal, or with the negation of the goal. -/
def query (setup : Formula) (goal : Term) (holds : Bool) : Formula :=
  setup ++ [.assert (if holds then goal else .not goal)]

inductive CheckError where
  | scenario (e : ScenarioError)
  | solver (e : SolverError)
  | vacuous (label : String)
  | contradictory (label : String)
  | refuted (label : String)

def CheckError.fault : CheckError → Fault
  | .scenario e => e.fault
  | .solver e => .patterned "verification: %v" [.fault e.fault]
  | .vacuous label =>
      .patterned "verification: %s: vacuous (the goal is not forced by the setup)" [.text label]
  | .contradictory label => .patterned "verification: %s: contradictory setup" [.text label]
  | .refuted label => .patterned "verification: %s: goal refuted" [.text label]

/-- What the two verdicts say: of the goal and of its negation. -/
def outcome (label : String) : Verdict → Verdict → Except CheckError Unit
  | .sat, .unsat => .ok ()
  | .sat, .sat => .error (.vacuous label)
  | .unsat, .unsat => .error (.contradictory label)
  | .unsat, .sat => .error (.refuted label)

/-- Whether the goal is forced by the setup, as a backend sees it. -/
def contingent {σ : Type} (b : Backend σ) (ctx : Context) (setup : Formula) (goal : Term)
    (label : String) (state : σ) : Except CheckError Unit × σ :=
  match b.check ctx (.ofFormula (query setup goal true)) state with
  | (.error e, state) => (.error (.solver e), state)
  | (.ok holds, state) =>
      match b.check ctx (.ofFormula (query setup goal false)) state with
      | (.error e, state) => (.error (.solver e), state)
      | (.ok fails, state) => (outcome label holds fails, state)

/-- Checks a scenario. -/
def Scenario.check {σ : Type} (s : Scenario) (b : Backend σ) (ctx : Context)
    (options : ScenarioOptions) (state : σ) (order : Scenario.MapOrder := .sorted) :
    Except CheckError Unit × σ :=
  match s.compile options (b.log state) order with
  | .error e => (.error (.scenario e), state)
  | .ok (sys, goal) => contingent b ctx sys.formula goal s.name (b.setLog state sys.log)

end CycleCheck

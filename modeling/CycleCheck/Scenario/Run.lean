import CycleCheck.Scenario.Check

/-!
Runs over many scenarios, one result for each scenario in the same order.
-/

namespace CycleCheck

open Solver

structure CheckResult where
  scenario : Scenario
  error : Option CheckError

namespace CheckResult

def passed (r : CheckResult) : Bool := r.error.isNone

/-- One line of a report. The time the check took is given as a text. -/
def text (r : CheckResult) (elapsed : String) : String :=
  match r.error with
  | some e => "FAIL " ++ r.scenario.name ++ ": " ++ e.fault.message
  | none => "ok   " ++ r.scenario.name ++ " (" ++ elapsed ++ ")"

/-- The line in green or in red, if colours are wanted. -/
def report (r : CheckResult) (elapsed : String) (colour : Bool) : String :=
  let escape (code : String) : String := String.singleton (Char.ofNat 27) ++ "[" ++ code ++ "m"
  if !colour then r.text elapsed
  else escape (if r.passed then "32" else "31") ++ r.text elapsed ++ escape "0"

end CheckResult

/-- How many results are failures. -/
def failedCount (rs : List CheckResult) : Nat := rs.countP (!·.passed)

def resultsText (rs : List CheckResult) : String :=
  Text.decimal rs.length ++ " scenarios, " ++ Text.decimal (rs.length - failedCount rs) ++
    " passed, " ++ Text.decimal (failedCount rs) ++ " failed"

/-- Checks scenarios one after the other and logs every result. Each scenario sees the state that
those before it left, and has an order of its own for the entries of its maps. -/
def runScenarios {σ : Type} (b : Backend σ) (ctx : Context) (options : ScenarioOptions)
    (elapsed : String) (scenarios : List Scenario) (state : σ)
    (orders : Nat → Scenario.MapOrder := fun _ => .sorted) : List CheckResult × σ :=
  match scenarios with
  | [] => ([], state)
  | s :: rest =>
      let (r, state) := s.check b ctx options state (orders 0)
      let result : CheckResult := ⟨s, match r with
        | .ok () => none
        | .error e => some e⟩
      let state := b.setLog state
        ((b.log state).log (some .allow) "verification" (.text (result.text elapsed)))
      let (results, state) := runScenarios b ctx options elapsed rest state fun k => orders (k + 1)
      (result :: results, state)

end CycleCheck

import CycleCheck.Log
import CycleCheck.Propagation.Solve

/-!
Backends decide whether a formula is satisfiable. A backend has a state of its own, which each
question may change, so that what it answers may depend on what it was asked before.
-/

namespace CycleCheck.Solver

inductive Verdict where
  | sat
  | unsat
deriving DecidableEq

def Verdict.text : Verdict → String
  | .sat => "sat"
  | .unsat => "unsat"

/-- The text of a verdict by its number. -/
def verdictText : Int → String
  | 0 => Verdict.sat.text
  | 1 => Verdict.unsat.text
  | _ => "unknown"

inductive SolverError where
  | notFound (command : String)
  | protocol (reply : String)
  | timedOut (name : String)
  | unknownBackend (name : String)
  /-- the time was over before the solver could be started -/
  | notStarted
  | propagation (e : Propagation.PropagationError)
  /-- an error of a backend that is not one of ours -/
  | foreign (f : Fault)

def SolverError.fault : SolverError → Fault
  | .notFound command => .patterned "solver: %s not found" [.text command]
  | .protocol reply => .patterned "solver: protocol error (%s)" [.text reply]
  | .timedOut name => .patterned "solver: %s timed out" [.text name]
  | .unknownBackend name => .patterned "solver: unknown backend (%s)" [.text name]
  | .notStarted => .patterned "solver: %v" [.fault (.plain "context canceled")]
  | .propagation e => .patterned "solver: %v" [.fault e.fault]
  | .foreign f => f

/-- Whether the time of a question is already over when it is asked. -/
structure Context where
  done : Bool := false

/-- The context of a time limit in nanoseconds; there is no limit if it is not positive. Time is not
measured: a limit below ten milliseconds is over before the first question, any other is kept. -/
def Context.withLimit (ctx : Context) (limit : Int) : Context :=
  ⟨ctx.done || (0 < limit && limit < 10000000)⟩

/-- A formula to be decided, with its digest. -/
structure Question where
  formula : Formula
  digest : UInt64
  digest_eq : digest = formula.digest

def Question.ofFormula (f : Formula) : Question := ⟨f, f.digest, rfl⟩

/-- A way to decide formulas, with states `σ`. -/
structure Backend (σ : Type) where
  name : String
  check : Context → Question → σ → Except SolverError Verdict × σ
  /-- the log in a state -/
  log : σ → Log
  setLog : σ → Log → σ

/-- Logs a verdict. The time it took is given as a text. -/
def logVerdict (log : Log) (name : String) (v : Verdict) (elapsed : String) (q : Question) : Log :=
  log.logf (some .allow) "solver" "%s: %s in %v (%s)"
    [.text name, .text v.text, .text elapsed, .text (Formula.digestHex q.digest)]

/-- Propagation as a backend. Its state is the log. -/
def propagate (elapsed : String) : Backend Log where
  name := "propagate"
  check := fun ctx q log =>
    if ctx.done then (.error (.timedOut "propagate"), log)
    else match Propagation.solve q.formula with
      | .error e => (.error (.propagation e), log)
      | .ok (.sat _) => (.ok .sat, logVerdict log "propagate" .sat elapsed q)
      | .ok (.unsat t) =>
          let log := log.logf (some .allow) "solver" "%s: contradiction in %.60s"
            [.text "propagate", .text t.text]
          (.ok .unsat, logVerdict log "propagate" .unsat elapsed q)
  log := id
  setLog := fun _ log => log

end CycleCheck.Solver

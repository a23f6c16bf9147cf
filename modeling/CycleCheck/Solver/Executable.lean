import CycleCheck.Solver.Backend
import CycleCheck.Text.Blank

/-!
Solvers that are programs of their own. A program gets the commands of a formula line by line, with
the commands to check and to leave, and the first line of its reply is the verdict.
-/

namespace CycleCheck.Solver

structure Executable where
  identifier : String
  command : String
  arguments : List String

def Executable.z3 : Executable := ⟨"z3", "z3", ["-in", "-smt2"]⟩
def Executable.cvc5 : Executable := ⟨"cvc5", "cvc5", ["--lang", "smt2"]⟩

/-- What a program does with its input: it writes a text, or never answers. -/
inductive Reply where
  | text (s : String)
  | hangs

/-- The programs that can be run, by command. -/
abbrev Programs := String → Option (String → Reply)

/-- No programs at all. -/
def Programs.none : Programs := fun _ => Option.none

def Executable.available (e : Executable) (programs : Programs) : Bool :=
  (programs e.command).isSome

/-- What a program gets for a formula. -/
def solverInput (f : Formula) : String := Formula.write (f ++ [.checkSat, .exit])

/-- The verdict in a reply: its first line, without white space at the ends. -/
def readReply (reply : String) : Except SolverError Verdict :=
  if reply.isEmpty then .error (.protocol "no reply")
  else
    let line := Text.trim (String.ofList (reply.toList.takeWhile (· ≠ '\n')))
    if line = "sat" then .ok .sat
    else if line = "unsat" then .ok .unsat
    else .error (.protocol line)

/-- Asks the program. A program that hangs is stopped when the time is over. -/
def Executable.ask (e : Executable) (programs : Programs) (ctx : Context) (f : Formula) :
    Except SolverError Verdict :=
  match programs e.command with
  | none => .error (.notFound e.command)
  | some program =>
      if ctx.done then .error .notStarted
      else match program (solverInput f) with
        | .hangs => .error (.timedOut e.identifier)
        | .text reply => readReply reply

/-- A program as a backend. Its state is the log. -/
def Executable.backend (e : Executable) (programs : Programs) (elapsed : String) : Backend Log where
  name := e.identifier
  check := fun ctx q log =>
    match e.ask programs ctx q.formula with
    | .error err => (.error err, log)
    | .ok v => (.ok v, logVerdict log e.identifier v elapsed q)
  log := id
  setLog := fun _ log => log

/-- The backends that can be chosen by name. -/
inductive Choice where
  | propagate
  | executable (e : Executable)

/-- The names of the backends. -/
def backendNames : List String := ["z3", "cvc5", "propagate"]

/-- The backend with a name, in either letter case. -/
def Choice.ofName (name : String) : Except SolverError Choice :=
  let lower := Text.asciiLower name
  if lower = "z3" then .ok (.executable .z3)
  else if lower = "cvc5" then .ok (.executable .cvc5)
  else if lower = "propagate" then .ok .propagate
  else .error (.unknownBackend name)

def Choice.backend (c : Choice) (programs : Programs) (elapsed : String) : Backend Log :=
  match c with
  | .propagate => Solver.propagate elapsed
  | .executable e => e.backend programs elapsed

end CycleCheck.Solver

import CycleCheck.Propagation.Pass

/-!
Solving by propagation: passes over the assertions of a formula as long as something changes, and
the model that is left when all of them are settled.
-/

namespace CycleCheck.Propagation

/-- The state found for a satisfiable formula, or the assertion found to be false. -/
inductive Solution where
  | sat (model : State)
  | unsat (contradiction : Term)

/-- The start of a term's text, at most eighty characters. -/
def quote (t : Term) : String :=
  let s := t.text
  if s.length > 80 then String.ofList (s.toList.take 80) ++ "..." else s

/-- Passes until nothing is pending or nothing changes. -/
def passes (s : State) (work : List Term) : Except PropagationError Solution :=
  if work.isEmpty then .ok (.sat s)
  else
    match h : pass s work with
    | .error (.failed e) => .error e
    | .error (.contradiction t) => .ok (.unsat t)
    | .ok p =>
        if stuck : p.pending.size = work.length ∧ p.state.definitions = s.definitions then
          .error (.undetermined p.pending.size ((p.pending[0]?).elim "" quote))
        else
          passes p.state p.pending.toList
termination_by weightAll work
decreasing_by exact weightAll_pass_lt h stuck

/-- Notes a declaration; a name is declared once. -/
def State.declare (s : State) (name : String) (sort : TermSort) : Except PropagationError State :=
  if s.sorts.contains name then .error (.redeclared name)
  else .ok { s with sorts := s.sorts.insert name sort }

/-- Declares what a formula declares. -/
def declareAll (f : Formula) : Except PropagationError State :=
  f.foldlM (fun s c =>
    match c with
    | .declareBits x width => s.declare x.name (.bits (indexInt width))
    | .declareArray x address data => s.declare x.name (.array (indexInt address) (indexInt data))
    | _ => .ok s) {}

/-- The asserted terms of a formula, in order. -/
def assertedTerms (f : Formula) : List Term :=
  f.filterMap fun c =>
    match c with
    | .assert t => some t
    | _ => none

/-- Decides a formula by propagation. -/
def solve (f : Formula) : Except PropagationError Solution := do
  let s ← declareAll f
  passes s (assertedTerms f)

/-! ## Models -/

/-- The value of a bit-vector symbol. -/
def State.value? (s : State) (name : String) : Option UInt64 := s.values[name]?

/-- The cell of an array symbol. -/
def State.cell? (s : State) (name : String) (index : UInt64) : Option UInt64 :=
  match s.arrays[name]? with
  | none => none
  | some m => s.lookup m index

/-- The bit-vector symbols that have a value, in order of their names. -/
def State.names (s : State) : List String := s.values.keys.mergeSort (fun a b => a ≤ b)

end CycleCheck.Propagation

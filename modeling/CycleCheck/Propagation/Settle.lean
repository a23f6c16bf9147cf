import CycleCheck.Propagation.Eval

/-!
Settling assertions. An assertion is settled when it is known to be true, or when it is an
equality that defines a symbol or a cell; conjunctions are split, and an implication is replaced
by its consequent once its antecedent is true. What is not settled is left pending.
-/

namespace CycleCheck.Propagation

/-- Why settling ends early. -/
inductive Halt where
  | contradiction (t : Term)
  | failed (e : PropagationError)

/-- The state and the terms that wait for another pass, in order. -/
structure Progress where
  state : State
  pending : Array Term := #[]

/-- One new fact: the value of a symbol, the memory of an array, or a cell of a root. -/
inductive Definition where
  | value (name : String) (v : UInt64)
  | array (name : String) (m : Memory)
  | cell (name : String) (root : Memory) (index v : UInt64)

/-- Adds a fact. -/
def State.add (s : State) : Definition → State
  | .value name v =>
      { s with values := s.values.insert name v, definitions := s.definitions + 1 }
  | .array name m =>
      { s with arrays := s.arrays.insert name m, definitions := s.definitions + 1 }
  | .cell name root index v =>
      { s with
        arrays := s.arrays.insert name root
        cells := s.cells.insert (root.root, index) v
        definitions := s.definitions + 1 }

/-- Makes a symbol equal to a term, if the symbol is free and the term is known. -/
def State.defineSymbol (s : State) (name : String) (other : Term) :
    Except PropagationError (Option Definition) :=
  match s.sorts[name]? with
  | none => .error (.undeclared name)
  | some (.array _ _) =>
      if s.arrays.contains name then .ok none
      else do
        match ← s.eval other with
        | .unknown => pure none
        | .array m => pure (some (.array name m))
        | _ => .error (.mismatch name)
  | some (.bits width) =>
      if s.values.contains name then .ok none
      else do
        match ← s.eval other with
        | .unknown => pure none
        | .bits v w => if w = width then pure (some (.value name v)) else .error (.mismatch name)
        | _ => .error (.mismatch name)

/-- Makes a cell of a root equal to a term, if the term is known and has the right width. -/
def State.defineCell (s : State) (name : String) (address data : Int64) (index : UInt64)
    (other : Term) : Except PropagationError (Option Definition) := do
  match ← s.eval other with
  | .unknown => pure none
  | .bits v w =>
      if w = data then
        let root := (s.arrays[name]?).getD ⟨name, address, data, []⟩
        pure (some (.cell name root index v))
      else .error (.mismatch name)
  | _ => .error (.mismatch name)

/-- Makes a cell of an array symbol equal to a term. Only cells of roots can be defined: an array
defined by a store or by another array is determined by its definition. -/
def State.defineSelect (s : State) (name : String) (index other : Term) :
    Except PropagationError (Option Definition) :=
  match s.sorts[name]? with
  | none => .error (.undeclared name)
  | some (.bits _) => .error (.mismatch name)
  | some (.array address data) =>
      let m := s.arrays[name]?
      if m.any (!·.isRoot) then .ok none
      else do
        let i ← s.eval index
        if !i.known then pure none
        else if m.any (fun m => (s.lookup m i.word).isSome) then pure none
        else s.defineCell name address data i.word other

/-- Makes the target equal to another term, if the target can be defined and is free. -/
def State.defineTerm (s : State) (target other : Term) :
    Except PropagationError (Option Definition) :=
  match target with
  | .symbol x => s.defineSymbol x.name other
  | .app .select _ [.symbol x, index] => s.defineSelect x.name index other
  | _ => .ok none

/-- Makes an equality true by a definition of one side, the left one first. -/
def State.define (s : State) (a b : Term) : Except PropagationError (Option Definition) := do
  match ← s.defineTerm a b with
  | some d => pure (some d)
  | none => s.defineTerm b a

/-- Adds a fact to the state. -/
def Progress.add (p : Progress) (d : Definition) : Progress := { p with state := p.state.add d }

/-- Leaves a term for another pass. -/
def Progress.postpone (p : Progress) (t : Term) : Progress := { p with pending := p.pending.push t }

/-- Settles a term by its value. -/
def Progress.judge (p : Progress) (t : Term) : Except Halt Progress :=
  match p.state.eval t with
  | .error e => .error (.failed e)
  | .ok .unknown => .ok (p.postpone t)
  | .ok (.bool true) => .ok p
  | .ok (.bool false) => .error (.contradiction t)
  | .ok _ => .error (.failed (.unsupported "assertion is not boolean"))

/-- Settles an equality of two terms. -/
def Progress.equate (p : Progress) (t a b : Term) : Except Halt Progress :=
  match p.state.define a b with
  | .error e => .error (.failed e)
  | .ok (some d) => .ok (p.add d)
  | .ok none => p.judge t

mutual

/-- Settles a term, or leaves it pending. -/
def Progress.settle (p : Progress) : Term → Except Halt Progress
  | .app .and _ args => p.settleAll args
  | .app .implies indices [a, c] =>
      match p.state.eval a with
      | .error e => .error (.failed e)
      | .ok v =>
          if !v.known then .ok (p.postpone (.app .implies indices [a, c]))
          else if !v.truth then .ok p
          else p.settle c
  | .app .eq indices [a, b] => p.equate (.app .eq indices [a, b]) a b
  | t => p.judge t

/-- Settles terms from left to right. -/
def Progress.settleAll (p : Progress) : List Term → Except Halt Progress
  | [] => .ok p
  | t :: rest => do
      let p ← p.settle t
      p.settleAll rest

end

end CycleCheck.Propagation

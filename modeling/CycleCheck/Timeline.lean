import CycleCheck.Formula
import Std.Data.HashMap

/-!
Timelines of versioned variables. A block of code reads and writes variables; it is handed the
latest symbol of each name it reads and a new symbol for each name it writes. The names for which it
leaves a symbol get their new versions, so that each symbol of the growing formula is assigned by
one block only, if the blocks leave what they are handed.
-/

namespace CycleCheck

/-- Symbols given to the names of variables. -/
abbrev Binding := List (String × Symbol)

/-- The symbol of a name; a name that is not bound has the empty symbol. -/
def Binding.symbol (b : Binding) (name : String) : Symbol := (b.lookup name).getD ⟨""⟩

def Binding.term (b : Binding) (name : String) : Term := .symbol (b.symbol name)

def Binding.names (b : Binding) : List String := b.map Prod.fst

/-- Why a block generates nothing. -/
inductive BlockError where
  | refused (e : TermError)
  /-- the block is broken, whatever it is applied to -/
  | broken (message : String)

/-- Code between versions of variables: it reads some names, writes some names, and generates
commands from the symbols bound to them. It may change the symbols for writing that it is handed. -/
structure Block where
  reads : List String
  writes : List String
  generate : Binding → Binding → Except BlockError Formula
  /-- what the symbols for writing are when the block is done -/
  leaves : Binding → Binding → Binding := fun _ out => out

/-- A block that gives a variable a known value. -/
def Block.pin (name : String) (width : Int) (value : UInt64) : Block where
  reads := []
  writes := [name]
  generate := fun _ out => do
    let declared ← (Command.bits? (out.symbol name) width).mapError .refused
    let constant ← (Term.bits value width).mapError .refused
    pure [declared, .assert (.eq (out.term name) constant)]

inductive TimelineError where
  | undefinedBeforeUse (name : String)
  | refused (e : TermError)
  | broken (message : String)

/-- The fault of an error. A broken block has no fault of its own; its message stands as it is. -/
def TimelineError.fault : TimelineError → Fault
  | .undefinedBeforeUse name => .patterned "statevar: %s undefined before use" [.text name]
  | .refused e => .patterned "statevar: %v" [.fault e.fault]
  | .broken message => .plain message

/-- Versions of variables, and how many blocks were applied. -/
structure Timeline where
  versions : Std.HashMap String Nat := {}
  applied : Nat := 0

namespace Timeline

/-- The name of a version of a variable. -/
def versionedName (name : String) (version : Nat) : String := name ++ "_" ++ Text.decimal version

/-- The version a variable gets when it is written next. -/
def next (t : Timeline) (name : String) : Nat :=
  match t.versions[name]? with
  | some v => v + 1
  | none => 0

/-- The symbol of the current version of a variable. -/
def current (t : Timeline) (name : String) : Except TimelineError Symbol :=
  match t.versions[name]? with
  | none => .error (.undefinedBeforeUse name)
  | some v => (Symbol.parse (versionedName name v)).mapError .refused

/-- Binds the names a block reads to their current versions. -/
def bindReads (t : Timeline) (names : List String) : Except TimelineError Binding :=
  names.mapM fun name => do
    let s ← t.current name
    pure (name, s)

/-- Binds the names a block writes to their next versions. -/
def bindWrites (t : Timeline) (names : List String) : Except TimelineError Binding :=
  names.mapM fun name => do
    let s ← (Symbol.parse (versionedName name (t.next name))).mapError .refused
    pure (name, s)

/-- Moves variables to their next versions. -/
def advance (t : Timeline) (names : List String) : Timeline where
  versions := names.foldl (fun vs name => vs.insert name (t.next name)) t.versions
  applied := t.applied + 1

/-- Applies a block: the commands it generates and the timeline after it, in which the variables for
which the block leaves a symbol have their next versions. A block that fails leaves the timeline as
it was. -/
def apply (t : Timeline) (b : Block) : Except TimelineError (Formula × Timeline) := do
  let reads ← t.bindReads b.reads
  let writes ← t.bindWrites b.writes
  match b.generate reads writes with
  | .error (.refused e) => .error (.refused e)
  | .error (.broken message) => .error (.broken message)
  | .ok f => pure (f, t.advance (b.leaves reads writes).names)

/-- Applies blocks in order up to the first one that fails. Blocks before it stay applied. -/
def applyAll (t : Timeline) : List Block → Timeline × Except TimelineError Formula
  | [] => (t, .ok [])
  | b :: rest =>
      match t.apply b with
      | .error e => (t, .error e)
      | .ok (f, t') =>
          let (t'', r) := applyAll t' rest
          (t'', r.map (f ++ ·))

/-- The variables with their versions, in order of their names. -/
def entries (t : Timeline) : List (String × Nat) :=
  t.versions.toList.mergeSort (fun a b => a.1 ≤ b.1)

def text (t : Timeline) : String :=
  Text.decimal t.versions.size ++ " variables, " ++ Text.decimal t.applied ++ " units applied"

end Timeline

end CycleCheck

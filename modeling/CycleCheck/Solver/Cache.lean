import CycleCheck.Solver.Backend
import Std.Data.HashMap

/-!
A cache of verdicts in front of a backend. Formulas are told apart by their digests, so comments
do not matter; errors are not kept. A question is looked up, put to the backend if there is no
verdict for it, and the verdict is stored.
-/

namespace CycleCheck.Solver

/-- Verdicts by digest, and how many verdicts were found and how many were stored. -/
structure VerdictTable where
  verdicts : Std.HashMap UInt64 Verdict := {}
  hits : Nat := 0
  misses : Nat := 0

namespace VerdictTable

/-- Looks for a verdict; one that is found is a hit. -/
def lookup (t : VerdictTable) (digest : UInt64) : Option Verdict × VerdictTable :=
  match t.verdicts[digest]? with
  | some v => (some v, { t with hits := t.hits + 1 })
  | none => (none, t)

/-- Stores a verdict, which counts as a miss. -/
def store (t : VerdictTable) (digest : UInt64) (v : Verdict) : VerdictTable :=
  { t with verdicts := t.verdicts.insert digest v, misses := t.misses + 1 }

/-- The counts behind the name of the backend. -/
def text (t : VerdictTable) (name : String) : String :=
  name ++ " cache: " ++ Text.decimal t.hits ++ " hits, " ++ Text.decimal t.misses ++ " misses"

end VerdictTable

/-- The state of a cached backend. -/
structure Cache (σ : Type) where
  inner : σ
  table : VerdictTable := {}

/-- A backend that asks another one only for formulas it has no verdict of. -/
def Backend.cached {σ : Type} (b : Backend σ) : Backend (Cache σ) where
  name := b.name
  check := fun ctx q c =>
    match c.table.lookup q.digest with
    | (some v, table) => (.ok v, { c with table })
    | (none, table) =>
        match b.check ctx q c.inner with
        | (.error e, inner) => (.error e, ⟨inner, table⟩)
        | (.ok v, inner) => (.ok v, ⟨inner, table.store q.digest v⟩)
  log := fun c => b.log c.inner
  setLog := fun c log => { c with inner := b.setLog c.inner log }

end CycleCheck.Solver

import CycleCheck.Scenario.Check
import Mathlib.Tactic.SplitIfs

/-!
The order of maps. Validation goes through the entries of a map in any order and stops at the first
misplaced address, so that of two such addresses in a map either one may be reported. Nothing else
that is done with a scenario depends on the order.
-/

namespace CycleCheck.Scenario

open Memory

variable {s : Scenario} {o : MapOrder}

theorem forall_of_checkArea {area : Area} {flaw : UInt16 → ScenarioFlaw} {m : Option ByteMap}
    (h : checkArea area flaw m o = .ok ()) : ∀ e ∈ ByteMap.entriesOf m, areaOf e.1 = area := by
  unfold checkArea at h
  split at h
  · cases h
  · next hnone =>
    intro e he
    simpa using List.find?_eq_none.1 hnone e ((o.perm _).mem_iff.2 he)

/-- A map of the scenario has an entry outside its area, and this is the flaw that it makes. -/
inductive Misplaced (s : Scenario) : (UInt16 → ScenarioFlaw) → UInt16 → Prop where
  | ram {e : UInt16 × UInt8} (entry : e ∈ ByteMap.entriesOf s.ram) (outside : areaOf e.1 ≠ .ram) :
      s.Misplaced .ramOutside e.1
  | expected {e : UInt16 × UInt8} (entry : e ∈ ByteMap.entriesOf s.expect.ram)
      (outside : areaOf e.1 ≠ .ram) : s.Misplaced .expectedOutside e.1
  | prg {e : UInt16 × UInt8} (entry : e ∈ ByteMap.entriesOf s.prg)
      (outside : areaOf e.1 ≠ .cartridge) : s.Misplaced .prgOutside e.1

/-- Results that are the same, or that report two misplaced addresses of one map. -/
inductive UpToOrder {ε α : Type} (s : Scenario) (report : ScenarioFlaw → ε) :
    Except ε α → Except ε α → Prop where
  | same (r : Except ε α) : UpToOrder s report r r
  | misplaced {flaw : UInt16 → ScenarioFlaw} {a a' : UInt16} (ne : a ≠ a')
      (first : s.Misplaced flaw a) (second : s.Misplaced flaw a') :
      UpToOrder s report (.error (report (flaw a))) (.error (report (flaw a')))

section UpToOrder

variable {ε ε' α β : Type} {report : ScenarioFlaw → ε} {x x' : Except ε α}

theorem UpToOrder.bind {f f' : α → Except ε β} (h : UpToOrder s report x x')
    (hf : ∀ a, UpToOrder s report (f a) (f' a)) : UpToOrder s report (x >>= f) (x' >>= f') := by
  cases h with
  | same =>
    cases x with
    | error e => exact .same _
    | ok a => exact hf a
  | misplaced ne first second => exact .misplaced ne first second

theorem UpToOrder.mapError (h : UpToOrder s report x x') (g : ε → ε') :
    UpToOrder s (g ∘ report) (x.mapError g) (x'.mapError g) := by
  cases h with
  | same => exact .same _
  | misplaced ne first second => exact .misplaced ne first second

end UpToOrder

end CycleCheck.Scenario

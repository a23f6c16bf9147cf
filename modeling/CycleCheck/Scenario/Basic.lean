import CycleCheck.Cartridge.Rom
import CycleCheck.Log
import CycleCheck.Processor

/-!
Scenarios: a program, the state it starts in, how long it runs and what is expected then.
-/

namespace CycleCheck.Scenario

/-- Bytes at addresses, in order of the addresses, one byte an address. -/
structure ByteMap where
  entries : List (UInt16 × UInt8)
  ordered : entries.Pairwise fun e e' => e.1 < e'.1

namespace ByteMap

def empty : ByteMap := ⟨[], .nil⟩

/-- Puts a byte into an ordered list; the later of two bytes at an address stays. -/
def insertEntry (a : UInt16) (v : UInt8) : List (UInt16 × UInt8) → List (UInt16 × UInt8)
  | [] => [(a, v)]
  | (b, w) :: rest =>
      if a < b then (a, v) :: (b, w) :: rest
      else if a = b then (a, v) :: rest
      else (b, w) :: insertEntry a v rest

theorem mem_insertEntry {a : UInt16} {v : UInt8} {es : List (UInt16 × UInt8)} {e : UInt16 × UInt8}
    (h : e ∈ insertEntry a v es) : e = (a, v) ∨ e ∈ es := by
  fun_induction insertEntry a v es with
  | case1 => exact .inl (List.mem_singleton.1 h)
  | case2 => exact List.mem_cons.1 h
  | case3 => exact (List.mem_cons.1 h).imp_right (List.mem_cons_of_mem _)
  | case4 b w rest _ _ ih =>
    rcases List.mem_cons.1 h with rfl | h
    · exact .inr List.mem_cons_self
    · exact (ih h).imp_right (List.mem_cons_of_mem _)

theorem pairwise_insertEntry {es : List (UInt16 × UInt8)}
    (h : es.Pairwise fun e e' => e.1 < e'.1) (a : UInt16) (v : UInt8) :
    (insertEntry a v es).Pairwise fun e e' => e.1 < e'.1 := by
  fun_induction insertEntry a v es with
  | case1 => exact List.pairwise_singleton ..
  | case2 b w rest hlt =>
    refine List.pairwise_cons.2 ⟨List.forall_mem_cons.2 ⟨hlt, fun e he => ?_⟩, h⟩
    exact UInt16.lt_trans hlt ((List.pairwise_cons.1 h).1 e he)
  | case3 w rest => exact List.pairwise_cons.2 (List.pairwise_cons.1 h)
  | case4 b w rest hnlt hne ih =>
    obtain ⟨hfirst, hrest⟩ := List.pairwise_cons.1 h
    refine List.pairwise_cons.2 ⟨fun e he => ?_, ih hrest⟩
    rcases mem_insertEntry he with rfl | he
    · exact UInt16.lt_of_le_of_ne (UInt16.not_lt.1 hnlt) (Ne.symm hne)
    · exact hfirst e he

def insert (m : ByteMap) (a : UInt16) (v : UInt8) : ByteMap :=
  ⟨insertEntry a v m.entries, pairwise_insertEntry m.ordered a v⟩

def ofList (xs : List (UInt16 × UInt8)) : ByteMap := xs.foldl (fun m x => m.insert x.1 x.2) .empty

/-- The entries of a map that may be missing. -/
def entriesOf (m : Option ByteMap) : List (UInt16 × UInt8) := m.elim [] ByteMap.entries

end ByteMap

/-- A way to go through the entries of maps. A map has no order of its own, so each time it is gone
through the entries may come in another one. -/
structure MapOrder where
  arrange : List (UInt16 × UInt8) → List (UInt16 × UInt8)
  perm : ∀ entries, (arrange entries).Perm entries

/-- The order of the addresses. -/
def MapOrder.sorted : MapOrder := ⟨id, List.Perm.refl⟩

/-- What is expected at the end. Nothing is said of what is missing. -/
structure Expectation where
  a : Option UInt8 := none
  x : Option UInt8 := none
  y : Option UInt8 := none
  sp : Option UInt8 := none
  pc : Option UInt16 := none
  /-- letters of the status register -/
  p : String := ""
  ram : Option ByteMap := none

def Expectation.isEmpty (e : Expectation) : Bool :=
  e.a.isNone && e.x.isNone && e.y.isNone && e.sp.isNone && e.pc.isNone && e.p.isEmpty &&
    (ByteMap.entriesOf e.ram).isEmpty

end CycleCheck.Scenario

namespace CycleCheck

open Scenario in
structure Scenario where
  name : String := ""
  description : String := ""
  /-- where the program stands, in RAM or in the cartridge area -/
  origin : UInt16 := 0
  program : List UInt8 := []
  /-- the reset vector, if it is not the origin -/
  vector : Option UInt16 := none
  ram : Option ByteMap := none
  prg : Option ByteMap := none
  registers : Registers := {}
  /-- cycles after the reset sequence -/
  cycles : Int := 0
  expect : Expectation := {}

/-- How scenarios are compiled. -/
structure ScenarioOptions where
  extensionality : Bool := false
  /-- the cartridge to use instead of an empty one -/
  rom : Option Cartridge.Rom := none
  /-- whether the system may log what it does -/
  permission : Permission := .deny

end CycleCheck

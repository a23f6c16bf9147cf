import CycleCheck.Proofs.Cycle.Reference
import CycleCheck.Proofs.Timeline.Compilation
import Mathlib.Data.List.FinRange
import Mathlib.Data.List.Nodup

/-!
Wires: the variables of the processor, the five signals of each page, and the two arrays. Their
names are different, so what a block writes is known from the wires it writes.
-/

namespace CycleCheck.Cycle

open Processor Memory

inductive Wire where
  | cpu (v : Variable)
  | select (page : Fin 16)
  | address (page : Fin 16)
  | write (page : Fin 16)
  | data (page : Fin 16)
  | answer (page : Fin 16)
  | ram
  | prg
deriving DecidableEq

namespace Wire

def stem (page : Fin 16) : String := Slot.stemOf page.val

def name : Wire → String
  | .cpu v => v.name
  | .select page => Slot.chipSelect (stem page)
  | .address page => Slot.address (stem page)
  | .write page => Slot.writeEnable (stem page)
  | .data page => Slot.dataIn (stem page)
  | .answer page => Slot.dataOut (stem page)
  | .ram => Ram.memory
  | .prg => Cartridge.Mapper.prg

/-- The wires that the front half of the bus writes for a page. -/
def inputs (page : Fin 16) : List Wire := [.select page, .address page, .write page, .data page]

def all : List Wire :=
  .ram :: .prg :: Variable.inputs.map .cpu ++
    (List.finRange 16).flatMap fun page => .answer page :: inputs page

theorem mem_all (w : Wire) : w ∈ all := by
  have hpage : ∀ page : Fin 16, ∀ w ∈ Wire.answer page :: inputs page, w ∈ all := by
    intro page w hw
    exact List.mem_append_right _ (List.mem_flatMap.2 ⟨page, List.mem_finRange page, hw⟩)
  cases w with
  | cpu v => cases v <;> simp [all, Variable.inputs, Variable.outputs]
  | select page | address page | write page | data page | answer page =>
    exact hpage page _ (by simp [inputs])
  | ram | prg => simp [all]

theorem nodup_names : (all.map name).Nodup := by decide +kernel

theorem name_injective : Function.Injective name := fun v w h =>
  List.inj_on_of_nodup_map nodup_names (mem_all v) (mem_all w) h

theorem isName_stem (page : Fin 16) : IsName (stem page) := by
  revert page
  decide +kernel

theorem isName (w : Wire) : IsName w.name := by
  cases w with
  | cpu v => cases v <;> decide +kernel
  | select page | address page | write page | data page | answer page =>
    exact (isName_stem page).append (by decide)
  | ram | prg => decide +kernel

end Wire

section Names

variable {names : List String} {t : Timeline}

theorem isName_of_wires (h : ∀ x ∈ names, ∃ w : Wire, x = w.name) : ∀ x ∈ names, IsName x := by
  intro x hx
  obtain ⟨w, rfl⟩ := h x hx
  exact w.isName

/-- Wires that have versions can be read. -/
theorem readable_of_wires (h : ∀ x ∈ names, ∃ w : Wire, 0 < t.next w.name ∧ x = w.name) :
    ∀ x ∈ names, IsName x ∧ 0 < t.next x := by
  intro x hx
  obtain ⟨w, hw, rfl⟩ := h x hx
  exact ⟨w.isName, hw⟩

end Names

end CycleCheck.Cycle

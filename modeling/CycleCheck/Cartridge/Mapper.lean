import CycleCheck.Cartridge.Rom
import CycleCheck.Memory.Bus

/-!
Mappers connect a ROM to the pages of the cartridge area. The only mapper is number 0, for ROMs of
one or two banks: the ROM is an array of known bytes, addressed modulo its size.
-/

namespace CycleCheck.Cartridge

open Memory

inductive MapperError where
  | unsupported (mapper : Nat)
  | wrongSize (size : Nat)

def MapperError.fault : MapperError → Fault
  | .unsupported mapper => .patterned "cartridge: unsupported mapper (%d)" [.int mapper]
  | .wrongSize size =>
      let text := "PRG must be 16k or 32k (" ++ Text.decimal size ++ " bytes)"
      .patterned "cartridge: %v" [.fault (.patterned "NROM: %v" [.text text])]

/-- A ROM without bank switching. -/
structure Mapper where
  rom : Rom
  /-- 14 bits for one bank, 15 for two -/
  addressBits : Nat

namespace Mapper

def ofRom (rom : Rom) : Except MapperError Mapper :=
  if rom.mapper ≠ 0 then .error (.unsupported rom.mapper)
  else if rom.prg.size = bankSize then .ok ⟨rom, 14⟩
  else if rom.prg.size = 2 * bankSize then .ok ⟨rom, 15⟩
  else .error (.wrongSize rom.prg.size)

def identifier : String := "NROM"

def text (m : Mapper) : String := m.rom.text ++ " [" ++ identifier ++ "]"

/-- The name of the array variable. -/
def prg : String := "Mapper0_PRG"

/-- Declares the ROM and its bytes. -/
def initialiser (m : Mapper) : Block where
  reads := []
  writes := [prg]
  generate := fun _ out =>
    let array := out.symbol prg
    .ok (.note ("cartridge " ++ m.text) :: .declareArray array ⟨m.addressBits.toUInt64⟩ ⟨8⟩ ::
      m.rom.prg.toList.mapIdx fun i b =>
        .assert (.eq (.select (.symbol array) (.word m.addressBits i)) (.word 8 b.toNat)))

/-- The handler of a page of the cartridge area. -/
def handler? (m : Mapper) (page : Int) : Option PageHandler :=
  if areaOfPage page ≠ .cartridge then none
  else
    let stem := Slot.stemOf page
    some {
      stem
      block := {
        reads := [Slot.address stem, prg]
        writes := [Slot.dataOut stem]
        generate := fun inp out =>
          let d := out.symbol (Slot.dataOut stem)
          let offset := Term.extract (m.addressBits - 1) 0 (inp.term (Slot.address stem))
          .ok [declare d 8, .assert (.eq (.symbol d) (.select (inp.term prg) offset))] } }

end Mapper

end CycleCheck.Cartridge

import CycleCheck.Processor.Variable

/-!
The bus between the processor and the handlers of pages. The front half gives every slot the
address, the data and the write line of the processor and selects the slots of the addressed page;
the back half takes the data of the selected slots.
-/

namespace CycleCheck.Memory

open Processor

/-- A page and the stem of the names of its signals. -/
structure Slot where
  page : Int
  stem : String

namespace Slot

/-- The stem that a page has by default. -/
def stemOf (page : Int) : String := "Page" ++ Text.integer page ++ "_"

def chipSelect (stem : String) : String := stem ++ "ChipSelect"
def address (stem : String) : String := stem ++ "Address"
def writeEnable (stem : String) : String := stem ++ "WriteEnable"
def dataIn (stem : String) : String := stem ++ "DataIn"
def dataOut (stem : String) : String := stem ++ "DataOut"

def text (s : Slot) : String := "page " ++ Text.integer s.page ++ " (" ++ s.stem ++ ")"

end Slot

/-- The pages that have more than one slot, in increasing order. -/
def overlaps (slots : List Slot) : List Int :=
  let pages := slots.map Slot.page
  (pages.eraseDups.filter fun p => pages.count p > 1).mergeSort

def declare (s : Symbol) (width : Nat) : Command := .declareBits s ⟨width.toUInt64⟩

/-- The front half of a bus phase. -/
def frontHalf (slots : List Slot) : Block where
  reads := [Variable.addressBus.name, Variable.writeEnable.name, Variable.dataOut.name]
  writes := slots.flatMap fun s =>
    [Slot.chipSelect s.stem, Slot.address s.stem, Slot.writeEnable s.stem, Slot.dataIn s.stem]
  generate := fun inp out => do
    let bus := inp.term Variable.addressBus.name
    let page := Term.extract 15 12 bus
    let parts ← slots.mapM fun s => do
      let select := out.symbol (Slot.chipSelect s.stem)
      let address := out.symbol (Slot.address s.stem)
      let write := out.symbol (Slot.writeEnable s.stem)
      let data := out.symbol (Slot.dataIn s.stem)
      let number ← (Term.bits (Int64.ofInt s.page).toUInt64 4).mapError BlockError.refused
      pure [declare select 1, declare address 16, declare write 1, declare data 8,
        .assert (.eq (.symbol select) (.ite (.eq page number) (.bit true) (.bit false))),
        .assert (.eq (.symbol address) bus),
        .assert (.eq (.symbol write) (inp.term Variable.writeEnable.name)),
        .assert (.eq (.symbol data) (inp.term Variable.dataOut.name))]
    pure (.note "bus front half" :: parts.flatten)

/-- The back half of a bus phase. -/
def backHalf (slots : List Slot) : Block where
  reads := slots.flatMap fun s => [Slot.chipSelect s.stem, Slot.dataOut s.stem]
  writes := [Variable.dataIn.name]
  generate := fun inp out =>
    let dataIn := out.symbol Variable.dataIn.name
    .ok (.note "bus back half" :: declare dataIn 8 :: slots.map fun s =>
      .assert (.implies (.eq (inp.term (Slot.chipSelect s.stem)) (.bit true))
        (.eq (.symbol dataIn) (inp.term (Slot.dataOut s.stem)))))

def halfText (half : String) (slots : List Slot) : String :=
  "bus " ++ half ++ " half (" ++ Text.decimal slots.length ++ " slots)"

/-- A block that serves a page of the address space. -/
structure PageHandler where
  stem : String
  block : Block

/-- The handler of a page where nothing is: its data is zero. -/
def nullHandler (page : Int) : PageHandler :=
  let stem := Slot.stemOf page
  { stem
    block := {
      reads := []
      writes := [Slot.dataOut stem]
      generate := fun _ out =>
        let d := out.symbol (Slot.dataOut stem)
        .ok [declare d 8, .assert (.eq (.symbol d) (.word 8 0))] } }

def nullText (page : Int) : String := "null handler " ++ Slot.stemOf page

end CycleCheck.Memory

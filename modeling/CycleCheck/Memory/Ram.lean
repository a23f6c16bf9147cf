import CycleCheck.Memory.Bus
import CycleCheck.Memory.Map

/-!
RAM as an array of bytes. Every handler of a RAM page makes a new version of the array: the same
as before unless the page is selected for writing. With extensionality, equality of arrays is
written as equality of all cells.
-/

namespace CycleCheck.Memory

structure Ram where
  extensionality : Bool

inductive RamError where
  | doesNotFit (size origin : Nat)

def RamError.fault : RamError → Fault
  | .doesNotFit size origin =>
      .patterned "ram: contents do not fit (%d bytes at %#04x)" [.int size, .int origin]

namespace Ram

/-- The name of the array variable. -/
def memory : String := "RAM_Memory"

def text (r : Ram) : String :=
  "RAM (" ++ Text.decimal ramSize ++ " bytes" ++
    (if r.extensionality then ", extensional)" else ")")

def declareMemory (s : Symbol) : Command := .declareArray s ⟨ramBits.toUInt64⟩ ⟨8⟩

/-- RAM of unknown content. -/
def powerOn : Block where
  reads := []
  writes := [memory]
  generate := fun _ out => .ok [.note "ram power on", declareMemory (out.symbol memory)]

def cellIndex (i : Nat) : Term := .word ramBits i

/-- Known bytes from an address on, if they fit. -/
def contents (origin : Nat) (data : ByteArray) : Except RamError Block :=
  if origin + data.size > ramSize then .error (.doesNotFit data.size origin)
  else .ok {
    reads := [memory]
    writes := []
    generate := fun inp _ =>
      let place := "ram contents (" ++ Text.decimal data.size ++ " bytes at 0x" ++
        Text.hexPadded 4 origin ++ ")"
      .ok (.note place :: data.toList.mapIdx fun i b =>
        .assert (.eq (.select (inp.term memory) (cellIndex (origin + i))) (.word 8 b.toNat))) }

/-- The next array is the array before. -/
def unchanged (r : Ram) (next before : Term) : Term :=
  if !r.extensionality then .eq next before
  else .all ((List.range ramSize).map fun i =>
    .eq (.select next (cellIndex i)) (.select before (cellIndex i)))

/-- The next array is the array before with one byte stored. -/
def stored (r : Ram) (next before address data : Term) : Term :=
  if !r.extensionality then .eq next (.store before address data)
  else .all ((List.range ramSize).map fun i =>
    .eq (.select next (cellIndex i))
      (.ite (.eq address (cellIndex i)) data (.select before (cellIndex i))))

/-- The handler of a RAM page. -/
def handler (r : Ram) (page : Int) : PageHandler :=
  let stem := Slot.stemOf page
  { stem
    block := {
      reads := [Slot.chipSelect stem, Slot.address stem, Slot.writeEnable stem, Slot.dataIn stem,
        memory]
      writes := [memory, Slot.dataOut stem]
      generate := fun inp out =>
        let before := inp.term memory
        let next := out.symbol memory
        let data := inp.term (Slot.dataIn stem)
        let dataOut := out.symbol (Slot.dataOut stem)
        let window := Term.extract (ramBits - 1) 0 (inp.term (Slot.address stem))
        let selected := Term.eq (inp.term (Slot.chipSelect stem)) (.bit true)
        let writing := Term.eq (inp.term (Slot.writeEnable stem)) (.bit true)
        let same := r.unchanged (.symbol next) before
        .ok [.note ("ram handler " ++ stem), declareMemory next, declare dataOut 8,
          .assert (.implies (.not selected)
            (.all [same, .eq (.symbol dataOut) (.word 8 0)])),
          .assert (.implies (.all [selected, .not writing])
            (.all [same, .eq (.symbol dataOut) (.select before window)])),
          .assert (.implies (.all [selected, writing])
            (.all [r.stored (.symbol next) before window data, .eq (.symbol dataOut) data]))] } }

end Ram

end CycleCheck.Memory

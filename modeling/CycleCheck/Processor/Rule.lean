import CycleCheck.Processor.MicroState
import CycleCheck.Processor.Status

/-!
Rules of a cycle. In a micro-state, and under a guard if there is one, a rule says which term each
output takes; an output that no update names keeps its value.
-/

namespace CycleCheck.Processor

/-- The terms of the variables before the cycle. -/
abbrev Inputs := Variable → Term

/-- The terms of the outputs after the cycle. -/
abbrev Draft := Variable → Term

namespace Draft

def set (d : Draft) (v : Variable) (t : Term) : Draft := fun w => if w = v then t else d w

/-- Reads from an address. -/
def read (d : Draft) (address : Term) : Draft :=
  (d.set .addressBus address).set .writeEnable (.bit false)

/-- Writes data to an address. -/
def write (d : Draft) (address data : Term) : Draft :=
  ((d.set .addressBus address).set .writeEnable (.bit true)).set .dataOut data

/-- Reads the byte at the program counter. -/
def fetch (d : Draft) (inp : Inputs) : Draft := d.read (inp .pc)

def incrementPC (d : Draft) (inp : Inputs) : Draft := d.set .pc (.add (inp .pc) (.word 16 1))

end Draft

structure Rule where
  state : MicroState
  guard : Option (Inputs → Term)
  /-- where the rule goes to; the micro-state is kept if there is none -/
  next : Option MicroState
  /-- the outputs, unless the instruction makes no sense -/
  effect : Inputs → Except ProcessorError Draft

/-- The address of a byte in page zero. -/
def zeroPage (low : Term) : Term := .concat (.word 8 0) low

def lowByte (t : Term) : Term := .extract 7 0 t

/-! ## Reset -/

def resetRule (phase : Nat) (next : Option MicroState) (effect : Inputs → Draft → Draft) :
    Rule where
  state := .resetting
  guard := some fun inp => .eq (inp .resetSequence) (.word 3 phase)
  next := next
  effect := fun inp =>
    .ok (effect inp (Draft.set inp .resetSequence (.word 3 ((phase + 1) % resetPhases))))

/-- A read of the stack that moves the stack pointer as if a byte were pushed. -/
def stackRead (inp : Inputs) (d : Draft) : Draft :=
  (d.read (.concat (.word 8 1) (inp .sp))).set .sp (.sub (inp .sp) (.word 8 1))

/-- The reset sequence: two reads at the program counter, three of the stack, the two bytes of the
reset vector with interrupts disabled, and the fetch of the first opcode. -/
def resetRules : List Rule := [
  resetRule 0 none fun inp d => d.fetch inp,
  resetRule 1 none fun inp d => d.fetch inp,
  resetRule 2 none stackRead,
  resetRule 3 none stackRead,
  resetRule 4 none stackRead,
  resetRule 5 none fun inp d =>
    (d.read (.word 16 resetVectorLow)).set .p
      (withBit (inp .p) Flag.interruptDisable.bit (.bit true)),
  resetRule 6 none fun inp d =>
    (d.read (.word 16 resetVectorHigh)).set .tempAddress (zeroPage (inp .dataIn)),
  resetRule 7 (some .instructionFetch) fun inp d =>
    let vector := Term.concat (inp .dataIn) (lowByte (inp .tempAddress))
    (d.read vector).set .pc (.add vector (.word 16 1))]

/-! ## Instructions -/

/-- The register that a load fills or a store writes. -/
def register (i : Instruction) : Except ProcessorError Variable :=
  if i.mnemonic == "LDA" || i.mnemonic == "STA" then .ok .a
  else if i.mnemonic == "LDX" || i.mnemonic == "STX" then .ok .x
  else if i.mnemonic == "LDY" || i.mnemonic == "STY" then .ok .y
  else .error (.noRegister i.mnemonic)

/-- The index register of an indexed mode. -/
def indexRegister : AddressingMode → Variable
  | .zeroPageIndexedX | .absoluteIndexedX | .indexedIndirect => .x
  | _ => .y

/-- The flag that an instruction changes and whether it sets it. -/
def flagOperation? (mnemonic : String) : Option (Flag × Bool) :=
  [("CLC", Flag.carry, false), ("SEC", Flag.carry, true),
    ("CLI", Flag.interruptDisable, false), ("SEI", Flag.interruptDisable, true),
    ("CLV", Flag.overflow, false),
    ("CLD", Flag.decimalMode, false), ("SED", Flag.decimalMode, true)].lookup mnemonic

/-- Decoding: the opcode is on the data bus. An implied instruction reads the next byte but does
not consume it. -/
def decodeRule (i : Instruction) : Rule where
  state := .instructionFetch
  guard := some fun inp => .eq (inp .dataIn) (.word 8 i.opcode.toNat)
  next := some (.cycle i.label 1)
  effect := fun inp =>
    let d := Draft.fetch inp inp
    .ok (if i.mode = .implied then d else d.incrementPC inp)

/-- The bus cycle of the operand: loads read it, stores write the register. -/
def access (i : Instruction) (inp : Inputs) (d : Draft) (address : Term) :
    Except ProcessorError Draft :=
  match i.effect with
  | .read => .ok (d.read address)
  | .write => do
      let r ← register i
      pure (d.write address (inp r))
  | _ => .ok d

/-- The last cycle: the operand of a load is on the data bus, and the next opcode is fetched. -/
def finish (i : Instruction) (inp : Inputs) : Except ProcessorError Draft := do
  let d : Draft ←
    if i.effect = .read then do
      let r ← register i
      pure ((Draft.set inp r (inp .dataIn)).set .p (loadFlags (inp .p) (inp .dataIn)))
    else pure inp
  pure ((d.fetch inp).incrementPC inp)

/-- Whether adding the index to the low byte carries: the sum of nine bits reaches bit 8. -/
def carry (low index : Term) : Term :=
  .uge (.add (.zeroExtend 1 low) (.zeroExtend 1 index)) (.word 9 0x100)

def plainRule (state next : MicroState) (effect : Inputs → Except ProcessorError Draft) : Rule :=
  ⟨state, none, some next, effect⟩

/-- The cycle that adds the index to the low byte of the base address, whose high byte is on the
data bus, and the fix-up cycle. The fix-up is taken if the addition carries, and always by an
instruction that is not sensitive to pages. -/
def indexedRules (i : Instruction) (fetch next fixup : MicroState) : List Rule :=
  let index := indexRegister i.mode
  let low (inp : Inputs) : Term := lowByte (inp .tempAddress)
  let uncorrected (inp : Inputs) : Term := .concat (inp .dataIn) (.add (low inp) (inp index))
  let based (inp : Inputs) : Draft := Draft.set inp .tempAddress (.concat (inp .dataIn) (low inp))
  let toFixup (inp : Inputs) : Except ProcessorError Draft :=
    .ok ((based inp).read (uncorrected inp))
  let first :=
    if i.pageSensitive then
      [⟨fetch, some fun inp => .not (carry (low inp) (inp index)), some next,
          fun inp => access i inp (based inp) (uncorrected inp)⟩,
        ⟨fetch, some fun inp => carry (low inp) (inp index), some fixup, toFixup⟩]
    else [plainRule fetch fixup toFixup]
  first ++ [plainRule fixup next fun inp =>
    access i inp inp (.add (inp .tempAddress) (.zeroExtend 8 (inp index)))]

/-- Keeps the low byte of an address and fetches its high byte. -/
def lowAddressRule (i : Instruction) : Rule :=
  plainRule (.cycle i.label 1) (.cycle i.label 2) fun inp =>
    .ok (((Draft.set inp .tempAddress (zeroPage (inp .dataIn))).fetch inp).incrementPC inp)

/-- Reads at the pointer that is on the data bus. -/
def pointerRule (i : Instruction) : Rule :=
  plainRule (.cycle i.label 1) (.cycle i.label 2) fun inp =>
    .ok ((Draft.read inp (zeroPage (inp .dataIn))).set .tempPointer (inp .dataIn))

/-- Keeps the low byte of an address and reads its high byte behind the pointer. -/
def pointerHighRule (i : Instruction) (n : Nat) : Rule :=
  plainRule (.cycle i.label n) (.cycle i.label (n + 1)) fun inp =>
    .ok ((Draft.set inp .tempAddress (zeroPage (inp .dataIn))).read
      (zeroPage (.add (inp .tempPointer) (.word 8 1))))

/-- The cycle that accesses the address made of the byte on the data bus and the low byte kept. -/
def absoluteAccessRule (i : Instruction) (n : Nat) : Rule :=
  plainRule (.cycle i.label n) (.cycle i.label (n + 1)) fun inp =>
    access i inp inp (.concat (inp .dataIn) (lowByte (inp .tempAddress)))

/-- The rules of the cycles of an instruction after its decoding. -/
def instructionRules (i : Instruction) : List Rule :=
  let c := MicroState.cycle i.label
  let x := MicroState.fixup i.label
  let last (n : Nat) : Rule := plainRule (c n) .instructionFetch (finish i)
  match i.mode with
  | .implied => [plainRule (c 1) .instructionFetch fun inp =>
      let d := match flagOperation? i.mnemonic with
        | some (flag, on) => Draft.set inp .p (withBit (inp .p) flag.bit (.bit on))
        | none => inp
      .ok ((d.fetch inp).incrementPC inp)]
  | .immediate => [last 1]
  | .zeroPage => [
      plainRule (c 1) (c 2) fun inp => access i inp inp (zeroPage (inp .dataIn)),
      last 2]
  | .zeroPageIndexedX | .zeroPageIndexedY => [
      plainRule (c 1) (c 2) fun inp =>
        .ok ((Draft.read inp (zeroPage (inp .dataIn))).set .tempAddress (zeroPage (inp .dataIn))),
      plainRule (c 2) (c 3) fun inp =>
        access i inp inp
          (zeroPage (.add (lowByte (inp .tempAddress)) (inp (indexRegister i.mode)))),
      last 3]
  | .absolute => [lowAddressRule i, absoluteAccessRule i 2, last 3]
  | .absoluteIndexedX | .absoluteIndexedY =>
      lowAddressRule i :: indexedRules i (c 2) (c 3) (x 2) ++ [last 3]
  | .indexedIndirect => [
      pointerRule i,
      plainRule (c 2) (c 3) fun inp =>
        let pointer := Term.add (inp .tempPointer) (inp .x)
        .ok ((Draft.set inp .tempPointer pointer).read (zeroPage pointer)),
      pointerHighRule i 3,
      absoluteAccessRule i 4,
      last 5]
  | .indirectIndexed =>
      pointerRule i :: pointerHighRule i 2 :: indexedRules i (c 3) (c 4) (x 3) ++ [last 4]
  | .other _ => []

end CycleCheck.Processor

import CycleCheck.Breakdown
import CycleCheck.Bytes
import CycleCheck.Memory.Map

/-!
Cartridge ROMs and their builder. A ROM is a whole number of banks of sixteen kilobytes; an address
of the cartridge area reads the ROM modulo its size. A builder keeps its first error and then
ignores everything but the name. A number of banks that is too large for a signed word of 64 bits
can leave it with an empty ROM, or stop the program.
-/

namespace CycleCheck.Cartridge

def bankSize : Nat := 16384

structure Rom where
  name : String
  mapper : Nat
  prg : ByteArray

namespace Rom

def text (r : Rom) : String :=
  let size := Text.decimal (r.prg.size / 1024) ++ "k PRG"
  let what := "mapper " ++ Text.decimal r.mapper ++ ", " ++ size
  if r.name.isEmpty then what else r.name ++ " (" ++ what ++ ")"

end Rom

inductive BuildError where
  | invalidMapper (n : Int)
  | invalidSize (size : Nat)
  | invalidBanks (n : Int)
  | outsideCartridge (address : Nat)

def BuildError.fault : BuildError → Fault
  | .invalidMapper n => .patterned "cartridge: invalid mapper number (%d)" [.int n]
  | .invalidSize size =>
      .patterned "cartridge: PRG size must be a multiple of %d bytes (%d)"
        [.int bankSize, .int size]
  | .invalidBanks n => .patterned "cartridge: invalid number of banks (%d)" [.int n]
  | .outsideCartridge a =>
      .patterned "cartridge: address is not in the cartridge area (%#04x)" [.int a]

structure Builder where
  rom : Rom := ⟨"", 0, Bytes.zeros bankSize⟩
  error : Option BuildError := none

namespace Builder

/-- Names the ROM, also after an error. -/
def name (b : Builder) (s : String) : Builder := { b with rom := { b.rom with name := s } }

/-- Does a step that may fail, unless an earlier step failed. -/
def step (b : Builder) (f : Rom → Except BuildError Rom) : Builder :=
  match b.error with
  | some _ => b
  | none =>
      match f b.rom with
      | .ok rom => { b with rom }
      | .error e => { b with error := some e }

def mapper (b : Builder) (n : Int) : Builder :=
  b.step fun rom =>
    if n < 0 || n > 255 then .error (.invalidMapper n) else .ok { rom with mapper := n.toNat }

/-- Takes the whole content. -/
def prg (b : Builder) (data : ByteArray) : Builder :=
  b.step fun rom =>
    if data.size = 0 || data.size % bankSize ≠ 0 then .error (.invalidSize data.size)
    else .ok { rom with prg := data }

/-- The size of a number of banks, as a 64-bit word. -/
def banksSize (n : Int) : Nat := (Int64.ofInt n * 16384).toNatClampNeg

/-- Makes a number of banks of zeros. -/
def banks (b : Builder) (n : Int) : Builder :=
  b.step fun rom =>
    if n ≤ 0 then .error (.invalidBanks n)
    else .ok { rom with prg := Bytes.zeros (banksSize n) }

/-- Puts bytes at consecutive addresses of the cartridge area. -/
def poke : Nat → List UInt8 → ByteArray → Except BuildError ByteArray
  | _, [], prg => .ok prg
  | address, v :: rest, prg =>
      if address < Memory.originCartridge || address > Memory.memtop then
        .error (.outsideCartridge address)
      else
        poke (address + 1) rest (Bytes.put prg ((address - Memory.originCartridge) % prg.size) v)

/-- Writes bytes from an address on. -/
def write (b : Builder) (address : Nat) (data : List UInt8) : Builder :=
  b.step fun rom => do
    let prg ← poke address data rom.prg
    pure { rom with prg }

/-- Writes a word, low byte first. -/
def vector (b : Builder) (address : Nat) (v : UInt16) : Builder :=
  b.write address [v.toUInt8, (v >>> 8).toUInt8]

def build (b : Builder) : Except BuildError Rom :=
  match b.error with
  | some e => .error e
  | none => .ok b.rom

end Builder

/-- A step of a builder. -/
inductive BuilderStep where
  | name (s : String)
  | mapper (n : Int)
  | prg (data : ByteArray)
  | banks (n : Int)
  | write (address : UInt16) (data : List UInt8)
  | vector (address v : UInt16)

namespace Builder

def perform (b : Builder) : BuilderStep → Builder
  | .name s => b.name s
  | .mapper n => b.mapper n
  | .prg data => b.prg data
  | .banks n => b.banks n
  | .write address data => b.write address.toNat data
  | .vector address v => b.vector address.toNat v

/-! ## Steps that may stop the program -/

/-- The offset of an address of the cartridge area: the address modulo the size of the content. -/
def offset (size address : Nat) : Except Breakdown Nat :=
  if size = 0 then .error .divisionByZero
  else .ok ((address - Memory.originCartridge) % size)

/-- Puts a byte at an offset, which has to be inside the content. -/
def putAt (prg : ByteArray) (offset : Nat) (v : UInt8) : Except Breakdown ByteArray :=
  if offset < prg.size then .ok (Bytes.put prg offset v) else .error .outOfRange

/-- Puts bytes at consecutive addresses, as long as they have offsets inside the content. -/
def tryPoke : Nat → List UInt8 → ByteArray → Except Breakdown (Except BuildError ByteArray)
  | _, [], prg => .ok (.ok prg)
  | address, v :: rest, prg =>
      if address < Memory.originCartridge || address > Memory.memtop then
        .ok (.error (.outsideCartridge address))
      else do
        let offset ← offset prg.size address
        let prg ← putAt prg offset v
        tryPoke (address + 1) rest prg

/-- Writes bytes from an address on. -/
def tryWrite (b : Builder) (address : Nat) (data : List UInt8) : Except Breakdown Builder := do
  let poked ← tryPoke address data b.rom.prg
  pure (b.step fun rom => do
    let prg ← poked
    pure { rom with prg })

/-- Does a step, if nothing stops the program. Once there is an error, nothing does. -/
def attempt (b : Builder) (s : BuilderStep) : Except Breakdown Builder :=
  if b.error.isSome then .ok (b.perform s)
  else match s with
    | .banks n =>
        if 0 < n ∧ Int64.ofInt n * 16384 < 0 then .error .negativeLength else .ok (b.banks n)
    | .write address data => b.tryWrite address.toNat data
    | .vector address v => b.tryWrite address.toNat [v.toUInt8, (v >>> 8).toUInt8]
    | s => .ok (b.perform s)

end Builder

end CycleCheck.Cartridge

import CycleCheck.Cartridge.Rom

/-!
The iNES file format: a header of sixteen bytes, the PRG banks and the CHR banks. Headers with a
trainer, with the signature of a known tool, or in the later NES 2.0 format are not supported.
-/

namespace CycleCheck.Cartridge.INes

/-- What can be wrong with a header. -/
inductive HeaderProblem where
  | notINes
  | laterFormat
  /-- the header is overwritten by the signature of a tool -/
  | signed
  | reservedByte (i : Nat)
  | trainer
  | noPrg
deriving DecidableEq

def HeaderProblem.message : HeaderProblem → String
  | .notINes => "not an iNES file"
  | .laterFormat => "NES 2.0 format"
  | .signed => "DiskDude! signature"
  | .reservedByte i => "reserved byte " ++ Text.decimal i ++ " is not zero"
  | .trainer => "trainer present"
  | .noPrg => "no PRG-ROM"

inductive INesError where
  | truncated (size expected : Nat)
  | unsupported (why : HeaderProblem)
  | build (e : BuildError)

def INesError.fault : INesError → Fault
  | .truncated size expected =>
      .patterned "cartridgeloader: truncated data (%d bytes, expected %d)"
        [.int size, .int expected]
  | .unsupported why => .patterned "cartridgeloader: unsupported header (%s)" [.text why.message]
  | .build e => .patterned "cartridgeloader: %v" [.fault e.fault]

def headerSize : Nat := 16
def chrBank : Nat := 8192

/-- The four bytes every file starts with. -/
def magic : List UInt8 := [0x4e, 0x45, 0x53, 0x1a]

/-- A signature that overwrites the header from byte 7 on. -/
def diskDude : List UInt8 := "DiskDude!".toUTF8.toList

/-- The first reserved byte that is not zero. -/
def reservedByte? (data : ByteArray) : Option Nat :=
  [8, 9, 10, 11, 12, 13, 14, 15].find? fun i => Bytes.get data i ≠ 0

/-- What is wrong with a header. -/
def headerProblem? (data : ByteArray) : Option HeaderProblem :=
  let flags6 := Bytes.get data 6
  let flags7 := Bytes.get data 7
  if (data.extract 0 4).toList ≠ magic then some .notINes
  else if flags7 &&& 0x0c = 0x08 then some .laterFormat
  else if (data.extract 7 headerSize).toList = diskDude then some .signed
  else match reservedByte? data with
    | some i => some (.reservedByte i)
    | none =>
        if flags6 &&& 0x04 = 0x04 then some .trainer
        else if Bytes.get data 4 = 0 then some .noPrg
        else none

/-- The mapper number: the high half from one flag byte, the low half from the other. -/
def mapperOf (data : ByteArray) : Nat :=
  let high : UInt8 := Bytes.get data 7 &&& (0xf0 : UInt8)
  let low : UInt8 := Bytes.get data 6 >>> (4 : UInt8)
  (high ||| low).toNat

/-- Reads a file. -/
def parse (data : ByteArray) (name : String) : Except INesError Rom :=
  if data.size < headerSize then .error (.truncated data.size headerSize)
  else match headerProblem? data with
    | some why => .error (.unsupported why)
    | none =>
        let prg := (Bytes.get data 4).toNat * bankSize
        let chr := (Bytes.get data 5).toNat * chrBank
        let size := headerSize + prg + chr
        if data.size < size then .error (.truncated data.size size)
        else
          ((((({} : Builder).name name).mapper (mapperOf data)).prg
            (data.extract headerSize (headerSize + prg))).build).mapError .build

end CycleCheck.Cartridge.INes

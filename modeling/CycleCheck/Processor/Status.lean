import CycleCheck.Term.Build

/-!
The status register. Its flags are written as letters, from the sign bit down to the carry bit:
upper case for a set flag, lower case for a clear one, and in an expectation a point for a flag
that does not matter. Bit 5 has no flag and is always a dash.
-/

namespace CycleCheck.Processor

/-- The bits of the flags. -/
inductive Flag where
  | carry | zero | interruptDisable | decimalMode | break | overflow | sign
deriving DecidableEq

def Flag.bit : Flag → Nat
  | .carry => 0
  | .zero => 1
  | .interruptDisable => 2
  | .decimalMode => 3
  | .break => 4
  | .overflow => 6
  | .sign => 7

/-- A byte term with one bit replaced. -/
def withBit (p : Term) (bit : Nat) (v : Term) : Term :=
  if bit = 0 then .concat (.extract 7 1 p) v
  else if bit = 7 then .concat v (.extract 6 0 p)
  else .concat (.extract 7 (bit + 1) p) (.concat v (.extract (bit - 1) 0 p))

/-- The status after a load: zero and sign from the value, the other bits kept. -/
def loadFlags (p value : Term) : Term :=
  let z := Term.ite (.eq value (.word 8 0)) (.bit true) (.bit false)
  let n := Term.extract 7 7 value
  .concat n (.concat (.extract 6 2 p) (.concat z (.extract 0 0 p)))

/-- The flags that matter and the values they have. -/
structure StatusFlags where
  value : UInt8 := 0
  mask : UInt8 := 0

inductive StatusError where
  | wrongLength (s : String)
  | unusedBit (s : String)
  | invalid (s : String)

def StatusError.fault : StatusError → Fault
  | .wrongLength s => .patterned "cpu: status string must be %d characters (%s)" [.int 8, .text s]
  | .unusedBit s => .patterned "cpu: unused status bit must be '-' (%s)" [.text s]
  | .invalid s => .patterned "cpu: invalid status string (%s)" [.text s]

def statusLetters : List Char := "sv-bdizc".toList

/-- The bit of the letter at a position. -/
def statusBit (i : Nat) : UInt8 := (0x80 : UInt8) >>> i.toUInt8

/-- Reads one letter. -/
def StatusFlags.letter (s : String) (f : StatusFlags) (i : Nat) (letter c : Char) :
    Except StatusError StatusFlags :=
  if letter = '-' then
    if c = '-' then .ok f else .error (.unusedBit s)
  else if c = '.' then .ok f
  else if c = letter then .ok { f with mask := f.mask ||| statusBit i }
  else if c = letter.toUpper then .ok ⟨f.value ||| statusBit i, f.mask ||| statusBit i⟩
  else .error (.invalid s)

/-- Reads letters from a position on. The first wrong letter decides the error. -/
def StatusFlags.letters (s : String) : Nat → List Char → List Char → StatusFlags →
    Except StatusError StatusFlags
  | i, l :: ls, c :: cs, f => do
      let f ← f.letter s i l c
      StatusFlags.letters s (i + 1) ls cs f
  | _, _, _, f => .ok f

/-- Reads an expectation of the status, eight bytes long. -/
def StatusFlags.parse (s : String) : Except StatusError StatusFlags :=
  if s.utf8ByteSize ≠ 8 then .error (.wrongLength s)
  else StatusFlags.letters s 0 statusLetters s.toList {}

/-- The status as letters. -/
def statusText (p : UInt8) : String :=
  String.ofList (statusLetters.mapIdx fun i c =>
    if c ≠ '-' && p &&& statusBit i ≠ 0 then c.toUpper else c)

end CycleCheck.Processor

/-!
Byte arrays with total access: reading beyond the end gives zero and writing there does nothing.
-/

namespace CycleCheck.Bytes

/-- The byte at an index. -/
def get (data : ByteArray) (i : Nat) : UInt8 := if h : i < data.size then data[i] else 0

/-- Puts a byte at an index. -/
def put (data : ByteArray) (i : Nat) (v : UInt8) : ByteArray :=
  if h : i < data.size then data.set i v h else data

/-- A byte array of zeros. -/
def zeros (n : Nat) : ByteArray := ⟨Array.replicate n 0⟩

end CycleCheck.Bytes

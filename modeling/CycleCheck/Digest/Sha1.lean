/-!
SHA-1. The message is closed by a one bit, zeros and its length in bits, and every block of
sixty-four bytes goes through eighty rounds.
-/

namespace CycleCheck.Digest.Sha1

def rotateLeft (x : UInt32) (n : UInt32) : UInt32 := (x <<< n) ||| (x >>> (32 - n))

structure Chain where
  a : UInt32
  b : UInt32
  c : UInt32
  d : UInt32
  e : UInt32

def Chain.start : Chain := ⟨0x67452301, 0xEFCDAB89, 0x98BADCFE, 0x10325476, 0xC3D2E1F0⟩

/-- Big-endian bytes of a 64-bit word. -/
def lengthBytes (n : UInt64) : List UInt8 :=
  [(n >>> 56).toUInt8, (n >>> 48).toUInt8, (n >>> 40).toUInt8, (n >>> 32).toUInt8,
    (n >>> 24).toUInt8, (n >>> 16).toUInt8, (n >>> 8).toUInt8, n.toUInt8]

/-- The message with its padding, a whole number of blocks. -/
def padded (data : ByteArray) : ByteArray :=
  let zeros := (119 - data.size % 64) % 64
  (0x80 :: List.replicate zeros 0 ++ lengthBytes (data.size.toUInt64 * 8)).foldl ByteArray.push data

def byteAt (data : ByteArray) (i : Nat) : UInt32 :=
  if h : i < data.size then (data[i]).toUInt32 else 0

def wordAt (data : ByteArray) (i : Nat) : UInt32 :=
  (byteAt data i <<< 24) ||| (byteAt data (i + 1) <<< 16) ||| (byteAt data (i + 2) <<< 8) |||
    byteAt data (i + 3)

/-- The eighty words of a block: sixteen of the message, each later one mixed from four earlier. -/
def schedule (data : ByteArray) (block : Nat) : Array UInt32 :=
  let first := Array.ofFn fun i : Fin 16 => wordAt data (block * 64 + i.val * 4)
  (List.range 64).foldl (fun w k =>
    let at' (j : Nat) : UInt32 := w.getD (k + j) 0
    w.push (rotateLeft (at' 13 ^^^ at' 8 ^^^ at' 2 ^^^ at' 0) 1)) first

def mix (t : Nat) (b c d : UInt32) : UInt32 × UInt32 :=
  if t < 20 then ((b &&& c) ||| ((~~~ b) &&& d), 0x5A827999)
  else if t < 40 then (b ^^^ c ^^^ d, 0x6ED9EBA1)
  else if t < 60 then ((b &&& c) ||| (b &&& d) ||| (c &&& d), 0x8F1BBCDC)
  else (b ^^^ c ^^^ d, 0xCA62C1D6)

def Chain.step (w : Array UInt32) (s : Chain) (t : Nat) : Chain :=
  let (f, k) := mix t s.b s.c s.d
  ⟨rotateLeft s.a 5 + f + s.e + k + w.getD t 0, s.a, rotateLeft s.b 30, s.c, s.d⟩

def Chain.absorb (data : ByteArray) (s : Chain) (block : Nat) : Chain :=
  let r := (List.range 80).foldl (Chain.step (schedule data block)) s
  ⟨s.a + r.a, s.b + r.b, s.c + r.c, s.d + r.d, s.e + r.e⟩

/-- The five words of the digest. -/
def sum (data : ByteArray) : Chain :=
  let message := padded data
  (List.range (message.size / 64)).foldl (Chain.absorb message) Chain.start

end CycleCheck.Digest.Sha1

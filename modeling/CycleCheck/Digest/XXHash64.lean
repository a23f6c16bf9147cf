/-!
The 64-bit xxHash with seed zero. Four accumulators take thirty-two bytes a round, the tail is
folded in by words of eight and four bytes and by single bytes, and a final avalanche mixes all
bits.
-/

namespace CycleCheck.Digest.XXHash64

def prime1 : UInt64 := 0x9E3779B185EBCA87
def prime2 : UInt64 := 0xC2B2AE3D27D4EB4F
def prime3 : UInt64 := 0x165667B19E3779F9
def prime4 : UInt64 := 0x85EBCA77C2B2AE63
def prime5 : UInt64 := 0x27D4EB2F165667C5

def rotateLeft (x : UInt64) (n : UInt64) : UInt64 := (x <<< n) ||| (x >>> (64 - n))

/-- The byte at an offset, zero beyond the end. -/
@[inline] def byteAt (data : ByteArray) (i : Nat) : UInt64 :=
  if h : i < data.size then (data[i]).toUInt64 else 0

/-- Little-endian word of four bytes. -/
def word32 (data : ByteArray) (i : Nat) : UInt64 :=
  byteAt data i ||| (byteAt data (i + 1) <<< 8) ||| (byteAt data (i + 2) <<< 16) |||
    (byteAt data (i + 3) <<< 24)

/-- Little-endian word of eight bytes. -/
def word64 (data : ByteArray) (i : Nat) : UInt64 :=
  word32 data i ||| (word32 data (i + 4) <<< 32)

def round (acc input : UInt64) : UInt64 := rotateLeft (acc + input * prime2) 31 * prime1

def mergeRound (acc val : UInt64) : UInt64 := (acc ^^^ round 0 val) * prime1 + prime4

structure Lanes where
  v1 : UInt64
  v2 : UInt64
  v3 : UInt64
  v4 : UInt64

def Lanes.start : Lanes := ⟨prime1 + prime2, prime2, 0, 0 - prime1⟩

def Lanes.absorb (l : Lanes) (data : ByteArray) (i : Nat) : Lanes :=
  ⟨round l.v1 (word64 data i), round l.v2 (word64 data (i + 8)),
    round l.v3 (word64 data (i + 16)), round l.v4 (word64 data (i + 24))⟩

/-- Absorbs the given number of blocks of thirty-two bytes. -/
def Lanes.absorbBlocks (data : ByteArray) : Nat → Nat → Lanes → Lanes
  | 0, _, l => l
  | n + 1, i, l => absorbBlocks data n (i + 32) (l.absorb data i)

def Lanes.merge (l : Lanes) : UInt64 :=
  let h := rotateLeft l.v1 1 + rotateLeft l.v2 7 + rotateLeft l.v3 12 + rotateLeft l.v4 18
  mergeRound (mergeRound (mergeRound (mergeRound h l.v1) l.v2) l.v3) l.v4

/-- Folds in the given number of words of eight bytes. -/
def tailWords (data : ByteArray) : Nat → Nat → UInt64 → UInt64
  | 0, _, h => h
  | n + 1, i, h =>
      tailWords data n (i + 8) (rotateLeft (h ^^^ round 0 (word64 data i)) 27 * prime1 + prime4)

/-- Folds in the given number of single bytes. -/
def tailBytes (data : ByteArray) : Nat → Nat → UInt64 → UInt64
  | 0, _, h => h
  | n + 1, i, h =>
      tailBytes data n (i + 1) (rotateLeft (h ^^^ (byteAt data i * prime5)) 11 * prime1)

def avalanche (h : UInt64) : UInt64 :=
  let h := (h ^^^ (h >>> 33)) * prime2
  let h := (h ^^^ (h >>> 29)) * prime3
  h ^^^ (h >>> 32)

def sum (data : ByteArray) : UInt64 :=
  let size := data.size
  let blocks := size / 32
  let h := if blocks = 0 then prime5 else (Lanes.absorbBlocks data blocks 0 Lanes.start).merge
  let h := h + size.toUInt64
  let start := blocks * 32
  let words := (size - start) / 8
  let h := tailWords data words start h
  let i := start + words * 8
  let rest := size - i
  if rest < 4 then avalanche (tailBytes data rest i h)
  else
    let h := rotateLeft (h ^^^ (word32 data i * prime1)) 23 * prime2 + prime3
    avalanche (tailBytes data (rest - 4) (i + 4) h)

end CycleCheck.Digest.XXHash64

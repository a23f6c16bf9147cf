/-!
Bytes as text. Bytes that are no UTF-8 are read one by one as replacement characters.
-/

namespace CycleCheck.Text

def replacement : Char := Char.ofNat 0xFFFD

/-- Whether a byte continues a character, with bounds for the byte that follows the first. -/
def inRange (b : UInt8) (low high : UInt8) : Bool := low ≤ b && b ≤ high

/-- The first character of a list of bytes and how many bytes it takes; a byte that starts no
character is a replacement character. -/
def firstChar : List UInt8 → Char × Nat
  | [] => (replacement, 1)
  | a :: rest =>
      if a < 0x80 then (Char.ofNat a.toNat, 1)
      else match rest with
        | b :: more =>
            if inRange a 0xc2 0xdf && inRange b 0x80 0xbf then
              (Char.ofNat ((a.toNat - 0xc0) * 64 + (b.toNat - 0x80)), 2)
            else match more with
              | c :: last =>
                  let low : UInt8 := if a = 0xe0 then 0xa0 else 0x80
                  let high : UInt8 := if a = 0xed then 0x9f else 0xbf
                  if inRange a 0xe0 0xef && inRange b low high && inRange c 0x80 0xbf then
                    (Char.ofNat ((a.toNat - 0xe0) * 4096 + (b.toNat - 0x80) * 64 +
                      (c.toNat - 0x80)), 3)
                  else match last with
                    | d :: _ =>
                        let low : UInt8 := if a = 0xf0 then 0x90 else 0x80
                        let high : UInt8 := if a = 0xf4 then 0x8f else 0xbf
                        if inRange a 0xf0 0xf4 && inRange b low high && inRange c 0x80 0xbf &&
                            inRange d 0x80 0xbf then
                          (Char.ofNat ((a.toNat - 0xf0) * 262144 + (b.toNat - 0x80) * 4096 +
                            (c.toNat - 0x80) * 64 + (d.toNat - 0x80)), 4)
                        else (replacement, 1)
                    | [] => (replacement, 1)
              | [] => (replacement, 1)
        | [] => (replacement, 1)

/-- Reads characters; every step takes at least one byte, so the number of bytes is fuel enough. -/
def decodeFrom : Nat → List UInt8 → List Char
  | 0, _ => []
  | _, [] => []
  | n + 1, a :: rest =>
      let (c, k) := firstChar (a :: rest)
      c :: decodeFrom n ((a :: rest).drop k)

/-- The text of bytes. -/
def decodeBytes (bytes : List UInt8) : String := String.ofList (decodeFrom bytes.length bytes)

end CycleCheck.Text

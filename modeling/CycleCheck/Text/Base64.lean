/-!
Bytes in base 64, with padding. Line breaks between the digits do not count.
-/

namespace CycleCheck.Text

/-- The value of a base 64 digit. -/
def base64Digit? (c : Char) : Option Nat :=
  if 'A' ≤ c ∧ c ≤ 'Z' then some (c.toNat - 'A'.toNat)
  else if 'a' ≤ c ∧ c ≤ 'z' then some (c.toNat - 'a'.toNat + 26)
  else if '0' ≤ c ∧ c ≤ '9' then some (c.toNat - '0'.toNat + 52)
  else if c = '+' then some 62
  else if c = '/' then some 63
  else none

/-- Reads groups of four digits; only the last one is padded. -/
def base64Groups : List Char → Option (List UInt8)
  | [] => some []
  | [a, b, '=', '='] => do
      let x ← base64Digit? a
      let y ← base64Digit? b
      pure [(x * 4 + y / 16).toUInt8]
  | [a, b, c, '='] => do
      let x ← base64Digit? a
      let y ← base64Digit? b
      let z ← base64Digit? c
      pure [(x * 4 + y / 16).toUInt8, (y * 16 + z / 4).toUInt8]
  | a :: b :: c :: d :: rest => do
      let x ← base64Digit? a
      let y ← base64Digit? b
      let z ← base64Digit? c
      let w ← base64Digit? d
      let more ← base64Groups rest
      pure ((x * 4 + y / 16).toUInt8 :: (y * 16 + z / 4).toUInt8 :: (z * 64 + w).toUInt8 :: more)
  | _ => none

def base64? (s : String) : Option (List UInt8) :=
  base64Groups (s.toList.filter fun c => c ≠ '\n' && c ≠ '\r')

end CycleCheck.Text

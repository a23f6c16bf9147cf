import CycleCheck.Text.Upper

/-!
Comparison of texts without regard to letter case. Characters are compared by one representative of
each class of characters that differ only in case.
-/

namespace CycleCheck.Text

/-- The representative of a character: its upper-case character, but for a few characters that have
a second upper-case form, and for the dotless i, which is in a class of its own. -/
def foldChar (c : Char) : Char :=
  let n := c.toNat
  if n = 0x131 then c
  else if n = 0x1e9e then Char.ofNat 0xdf
  else if n = 0x212a then 'K'
  else if n = 0x212b then Char.ofNat 0xc5
  else if n = 0x2126 then Char.ofNat 0x3a9
  else if n = 0x3f4 then Char.ofNat 0x398
  else upperChar c

/-- Whether two texts are equal up to letter case. -/
def equalFold (s t : String) : Bool := s.toList.map foldChar == t.toList.map foldChar

end CycleCheck.Text

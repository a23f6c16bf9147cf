import CycleCheck.Text.Digits
import CycleCheck.Text.Printable

/-!
Quoted text. A quoted text stands between double quotes; quotes, backslashes and characters that
cannot be shown are written by escapes.
-/

namespace CycleCheck.Text

/-- The escape of a control character that has a letter of its own. -/
def letterEscape? (c : Char) : Option Char :=
  if c.toNat = 7 then some 'a'
  else if c.toNat = 8 then some 'b'
  else if c.toNat = 12 then some 'f'
  else if c = '\n' then some 'n'
  else if c = '\r' then some 'r'
  else if c = '\t' then some 't'
  else if c.toNat = 11 then some 'v'
  else none

/-- A character by its number: two, four or eight hexadecimal digits. -/
def numberEscape (c : Char) : List Char :=
  let n := c.toNat
  if n < 0x20 || n = 0x7f then '\\' :: 'x' :: padLeft '0' 2 (digits 16 n)
  else if n < 0x10000 then '\\' :: 'u' :: padLeft '0' 4 (digits 16 n)
  else '\\' :: 'U' :: padLeft '0' 8 (digits 16 n)

/-- One character of a text quoted by `mark`. With `ascii`, only ASCII characters stand as
themselves. -/
def quoteChar (mark : Char) (ascii : Bool) (c : Char) : List Char :=
  if c = mark || c = '\\' then ['\\', c]
  else if isPrintable c && (!ascii || c.toNat < 0x80) then [c]
  else match letterEscape? c with
    | some e => ['\\', e]
    | none => numberEscape c

def quotedBy (mark : Char) (ascii : Bool) (s : String) : String :=
  String.ofList (mark :: s.toList.flatMap (quoteChar mark ascii) ++ [mark])

def quoted (s : String) : String := quotedBy '"' false s

end CycleCheck.Text

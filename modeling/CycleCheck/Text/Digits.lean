/-!
Positional notation. Digits are written most significant first, in lower case, and a number is
padded to a width by zeros on the left.
-/

namespace CycleCheck.Text

/-- Pads on the left up to a width; a longer text is left alone. -/
def padLeft (c : Char) (width : Nat) (s : List Char) : List Char :=
  List.replicate (width - s.length) c ++ s

/-- The digits of a number in a base of at most sixteen. -/
def digits (base n : Nat) : List Char := Nat.toDigits base n

def decimal (n : Nat) : String := String.ofList (digits 10 n)

/-- Decimal text of an integer, with a sign only when it is negative. -/
def integer : Int → String
  | .ofNat n => decimal n
  | .negSucc n => "-" ++ decimal (n + 1)

/-- Hexadecimal text of at least `width` digits. -/
def hexPadded (width n : Nat) : String := String.ofList (padLeft '0' width (digits 16 n))

def hex (n : Nat) : String := hexPadded 0 n

/-- Puts the lowest digits of a number before others. -/
def lowDigits (base : Nat) : Nat → Nat → List Char → List Char
  | 0, _, acc => acc
  | count + 1, n, acc => lowDigits base count (n / base) (Nat.digitChar (n % base) :: acc)

/-- The text of exactly the lowest `width` digits of a number. -/
def fixedWidth (base width n : Nat) : String := String.ofList (lowDigits base width n [])

/-- The value of a digit up to fifteen, in either letter case. -/
@[inline] def digitValue? (c : Char) : Option Nat :=
  if '0' ≤ c ∧ c ≤ '9' then some (c.toNat - '0'.toNat)
  else if 'a' ≤ c ∧ c ≤ 'f' then some (c.toNat - 'a'.toNat + 10)
  else if 'A' ≤ c ∧ c ≤ 'F' then some (c.toNat - 'A'.toNat + 10)
  else none

/-- The number a digit list stands for in a base. A character that is no digit counts as zero. -/
@[inline] def positional (base : Nat) (cs : List Char) : Nat :=
  cs.foldl (fun n c => n * base + (digitValue? c).getD 0) 0

/-- The number that a non-empty list of decimal digits stands for. -/
def natural? (cs : List Char) : Option Nat :=
  if cs.isEmpty || cs.any (fun c => !c.isDigit) then none else some (positional 10 cs)

end CycleCheck.Text

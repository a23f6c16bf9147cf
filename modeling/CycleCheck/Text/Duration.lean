import CycleCheck.Number.Double
import CycleCheck.Text.Digits

/-!
Durations in nanoseconds. A duration is written as numbers with units; numbers may have fractions.
-/

namespace CycleCheck.Text.Duration

/-- The nanoseconds of a unit. -/
def unit? (s : List Char) : Option Nat :=
  if s = ['n', 's'] then some 1
  else if s = ['u', 's'] || s = [Char.ofNat 0xb5, 's'] || s = [Char.ofNat 0x3bc, 's'] then some 1000
  else if s = ['m', 's'] then some 1000000
  else if s = ['s'] then some 1000000000
  else if s = ['m'] then some 60000000000
  else if s = ['h'] then some 3600000000000
  else none

/-- Two to the power 63, which the nanoseconds may not exceed. -/
def limit : Nat := 0x8000000000000000

/-- The digits of a fraction that count, as a number, and the power of ten they are over. Digits
that would make the number too large do not count. -/
def fraction : List Char → Nat → Nat → Nat × Nat
  | [], x, scale => (x, scale)
  | c :: r, x, scale =>
      let y := x * 10 + (digitValue? c).getD 0
      if x > 922337203685477580 || y > limit then (x, scale) else fraction r y (scale * 10)

/-- A fraction of a unit in nanoseconds, computed in double precision. -/
def fractionOf (unit x scale : Nat) : Nat :=
  ((Double.nearest x 1).mul (Double.nearest unit scale)).whole

/-- One number with its unit, and what follows. -/
def term? (cs : List Char) : Option (Nat × List Char) :=
  let digits := cs.takeWhile Char.isDigit
  let rest := cs.dropWhile Char.isDigit
  let (places, rest) := match rest with
    | '.' :: r => (r.takeWhile Char.isDigit, r.dropWhile Char.isDigit)
    | r => ([], r)
  if digits.isEmpty && places.isEmpty then none
  else
    let name := rest.takeWhile fun c => c ≠ '.' && !c.isDigit
    match unit? name with
    | none => none
    | some unit =>
        let v := positional 10 digits
        let (x, scale) := fraction places 0 1
        let total := v * unit + (if x > 0 then fractionOf unit x scale else 0)
        if v > limit / unit || total > limit then none
        else some (total, rest.drop name.length)

/-- The sum of numbers with units. Every step takes at least one character, so the length of the
text is fuel enough. -/
def sum? : Nat → List Char → Nat → Option Nat
  | _, [], total => some total
  | 0, _, _ => none
  | fuel + 1, cs, total =>
      match term? cs with
      | none => none
      | some (v, rest) => if total + v > limit then none else sum? fuel rest (total + v)

/-- Reads a duration. -/
def parse? (s : String) : Option Int :=
  let (negative, body) := match s.toList with
    | '-' :: r => (true, r)
    | '+' :: r => (false, r)
    | cs => (false, cs)
  if body = ['0'] then some 0
  else if body.isEmpty then none
  else match sum? body.length body 0 with
    | none => none
    | some n => if negative then some (-(n : Int)) else if n < limit then some n else none

/-- A number over a power of ten, without zeros at the end of the fraction. -/
def decimalOver (places n : Nat) : String :=
  let whole := n / Nat.pow 10 places
  let part := padLeft '0' places (digits 10 (n % Nat.pow 10 places))
  let part := (part.reverse.dropWhile (· = '0')).reverse
  decimal whole ++
    (if part.isEmpty || n % Nat.pow 10 places = 0 then "" else "." ++ String.ofList part)

/-- The text of a duration: in hours, minutes and seconds, or in one smaller unit. -/
def text (d : Int) : String :=
  let n := d.natAbs
  let body :=
    if n = 0 then "0s"
    else if n < 1000 then decimal n ++ "ns"
    else if n < 1000000 then decimalOver 3 n ++ String.singleton (Char.ofNat 0xb5) ++ "s"
    else if n < 1000000000 then decimalOver 6 n ++ "ms"
    else
      let minutes := n / 60000000000
      let hours := minutes / 60
      (if hours > 0 then decimal hours ++ "h" else "") ++
        (if minutes > 0 then decimal (minutes % 60) ++ "m" else "") ++
        decimalOver 9 (n % 60000000000) ++ "s"
  if d < 0 then "-" ++ body else body

end CycleCheck.Text.Duration

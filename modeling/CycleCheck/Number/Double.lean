/-!
Double precision by exact arithmetic: the number with 53 binary digits that is nearest to a
quotient.
-/

namespace CycleCheck

/-- The number `mantissa` times two to the power `exponent`. -/
structure Double where
  mantissa : Nat
  exponent : Int

namespace Double

/-- A quotient rounded to the nearest integer, a half to the even one. -/
def roundHalfEven (num den : Nat) : Nat :=
  let q := num / den
  let r := num % den
  if 2 * r > den || (2 * r = den && q % 2 = 1) then q + 1 else q

/-- The quotient of two numbers over a power of two, as a quotient of two numbers. -/
def scaled (num den : Nat) (e : Int) : Nat × Nat :=
  if e < 0 then (num <<< (-e).toNat, den) else (num, den <<< e.toNat)

/-- The binary exponent at which a positive quotient has 53 binary digits before the point. The
smallest exponent is -1074. -/
def exponentOf (num den : Nat) : Int :=
  let guess : Int := (Nat.log2 num : Int) - Nat.log2 den - 52
  let (a, b) := scaled num den guess
  max (-1074) (if a / b < 0x10000000000000 then guess - 1 else guess)

/-- The number nearest to a quotient. There is no greatest number. -/
def nearest (num den : Nat) : Double :=
  if num = 0 then ⟨0, 0⟩
  else
    let e := exponentOf num den
    let (a, b) := scaled num den e
    ⟨roundHalfEven a b, e⟩

/-- The number as a quotient. -/
def quotient (d : Double) : Nat × Nat :=
  if d.exponent < 0 then (d.mantissa, 1 <<< (-d.exponent).toNat)
  else (d.mantissa <<< d.exponent.toNat, 1)

/-- The integer part. -/
def whole (d : Double) : Nat := d.quotient.1 / d.quotient.2

/-- Whether the number is less than two to the power 1024. -/
def isFinite (d : Double) : Bool := Nat.log2 d.whole < 1024

def mul (a b : Double) : Double :=
  nearest (a.quotient.1 * b.quotient.1) (a.quotient.2 * b.quotient.2)

end Double

end CycleCheck

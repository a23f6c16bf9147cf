import CycleCheck.Text.Digits

/-!
Integer literals: a sign, a mark of the base, digits. Two letters mark the base, and a zero in front
alone makes a number octal. Underscores may stand between digits.
-/

namespace CycleCheck.Text

/-- A sign and what follows it. -/
def splitSign : List Char → Bool × List Char
  | '-' :: r => (true, r)
  | '+' :: r => (false, r)
  | cs => (false, cs)

/-- The base of a literal without a sign, and its digits. -/
def splitBase : List Char → Nat × List Char
  | '0' :: m :: d :: r =>
      if m = 'x' || m = 'X' then (16, d :: r)
      else if m = 'b' || m = 'B' then (2, d :: r)
      else if m = 'o' || m = 'O' then (8, d :: r)
      else (8, m :: d :: r)
  | '0' :: r => (8, r)
  | cs => (10, cs)

inductive LiteralError where
  | malformed
  | outOfRange
deriving DecidableEq

/-- Reads digits of a number below a limit. The first character that is no digit, or that makes the
number too large, decides the error. -/
def readDigits (base limit : Nat) : List Char → Nat → Except LiteralError Nat
  | [], n => .ok n
  | c :: r, n =>
      match digitValue? c with
      | some d =>
          if d ≥ base then .error .malformed
          else if n * base + d ≥ limit then .error .outOfRange
          else readDigits base limit r (n * base + d)
      | none => .error .malformed

/-- A natural number below a limit whose base is marked. -/
def markedNatural (limit : Nat) (cs : List Char) : Except LiteralError Nat :=
  if cs.isEmpty then .error .malformed
  else readDigits (splitBase cs).1 limit (splitBase cs).2 0

/-- Whether every underscore follows a digit and is followed by one; `after` tells whether the
character before was a digit, or stands for one. -/
def underscoresFit (isDigit : Char → Bool) (after : Bool) : List Char → Bool
  | [] => true
  | '_' :: d :: r => after && isDigit d && underscoresFit isDigit true r
  | ['_'] => false
  | c :: r => underscoresFit isDigit (isDigit c) r

/-- Whether underscores in a literal stand only between digits, or after the mark of the base. -/
def underscoresFitLiteral (cs : List Char) : Bool :=
  let body := (splitSign cs).2
  match body with
  | '0' :: m :: r =>
      if m = 'x' || m = 'X' then underscoresFit (fun c => (digitValue? c).isSome) true r
      else if ['b', 'B', 'o', 'O'].contains m then underscoresFit Char.isDigit true r
      else underscoresFit Char.isDigit false body
  | _ => underscoresFit Char.isDigit false body

/-- An integer of 64 bits. A literal out of range comes with the nearest such integer. -/
def integerLiteral (s : String) : Int × Option LiteralError :=
  let cs := s.toList
  let (negative, body) := splitSign cs
  let bare := body.filter (· ≠ '_')
  let least : Int := -0x8000000000000000
  let clamp : Int × Option LiteralError :=
    (if negative then least else 0x7fffffffffffffff, some .outOfRange)
  if body.isEmpty || body.head? = some '_' then (0, some .malformed)
  else match markedNatural 0x10000000000000000 bare with
    | .error .malformed => (0, some .malformed)
    | .error .outOfRange => clamp
    | .ok n =>
        if bare.length < body.length && !underscoresFitLiteral cs then (0, some .malformed)
        else if negative then (if n > 0x8000000000000000 then clamp else (-(n : Int), none))
        else if n ≥ 0x8000000000000000 then clamp
        else (n, none)

end CycleCheck.Text

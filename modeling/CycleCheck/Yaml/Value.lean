import CycleCheck.Number.Double
import CycleCheck.Text.Literal

/-!
Values of plain scalars. The text of a scalar decides whether it is nothing, a truth value, a
number, a time or only a text; a tag in the document can ask for one of these kinds.
-/

namespace CycleCheck.Yaml

/-- A number in double precision, as far as its integer part goes. -/
inductive Real where
  | nan
  | infinite (negative : Bool)
  /-- the integer part, towards zero -/
  | finite (whole : Int)
deriving DecidableEq

inductive Value where
  | nothing
  | flag (b : Bool)
  | int (i : Int)
  | real (r : Real)
  | time
  | text (s : String)
deriving DecidableEq

/-! ## Tags -/

def Tag.null : String := "!!null"
def Tag.flag : String := "!!bool"
def Tag.text : String := "!!str"
def Tag.int : String := "!!int"
def Tag.real : String := "!!float"
def Tag.time : String := "!!timestamp"
def Tag.sequence : String := "!!seq"
def Tag.mapping : String := "!!map"
def Tag.binary : String := "!!binary"
def Tag.merge : String := "!!merge"

/-- The namespace of the common tags, written as two exclamation marks in short. -/
def Tag.common : String := "tag:yaml.org,2002:"

def Tag.short (tag : String) : String :=
  if tag.startsWith Tag.common then "!!" ++ (tag.drop Tag.common.length).toString else tag

def Value.tag : Value → String
  | .nothing => Tag.null
  | .flag _ => Tag.flag
  | .int _ => Tag.int
  | .real _ => Tag.real
  | .time => Tag.time
  | .text _ => Tag.text

/-! ## Integers -/

/-- A number with its sign, in 64 bits. Only a number without a sign may need all of them. -/
def signed? (negative unsigned : Bool) (n : Nat) : Option Int :=
  if negative then (if n ≤ 0x8000000000000000 then some (-(n : Int)) else none)
  else if n < 0x8000000000000000 || (unsigned && n < 0x10000000000000000) then some n
  else none

/-- An integer whose base is told by what it starts with. -/
def integer? (cs : List Char) : Option Int :=
  let (negative, body) := Text.splitSign cs
  match Text.markedNatural 0x10000000000000000 body with
  | .error _ => none
  | .ok n => signed? negative (body.length = cs.length) n

/-- An integer in a base. -/
def integerIn? (base : Nat) (cs : List Char) : Option Int :=
  let (negative, body) := Text.splitSign cs
  if body.isEmpty then none
  else match Text.readDigits base 0x10000000000000000 body 0 with
    | .error _ => none
    | .ok n => signed? negative (body.length = cs.length) n

/-! ## Real numbers -/

/-- A decimal number: the digits before and after the point, and the exponent. -/
structure Decimal where
  negative : Bool
  whole : List Char
  fraction : List Char
  exponent : Int

/-- An exponent with its mark; none at the end of the text. -/
def exponent? : List Char → Option Int
  | [] => some 0
  | e :: r =>
      let (negative, ds) := Text.splitSign r
      if (e = 'e' || e = 'E') && !ds.isEmpty && ds.all Char.isDigit then
        let n : Int := Text.positional 10 ds
        some (if negative then -n else n)
      else none

def decimal? (cs : List Char) : Option Decimal :=
  let (negative, body) := Text.splitSign cs
  let whole := body.takeWhile Char.isDigit
  let (fraction, rest) := match body.dropWhile Char.isDigit with
    | '.' :: r => (r.takeWhile Char.isDigit, r.dropWhile Char.isDigit)
    | r => ([], r)
  if whole.isEmpty && fraction.isEmpty then none
  else (exponent? rest).map fun exponent => ⟨negative, whole, fraction, exponent⟩

/-- The double precision number nearest to a decimal number, if there is one. -/
def Decimal.real? (d : Decimal) : Option Real :=
  let digits := (d.whole ++ d.fraction).dropWhile (· = '0')
  let exponent := d.exponent - d.fraction.length
  let leading := exponent + digits.length
  let of (n : Nat) : Real := .finite (if d.negative then -(n : Int) else n)
  if digits.isEmpty || leading < -400 then some (of 0)
  else if leading > 400 then none
  else
    let m := Text.positional 10 digits
    let d :=
      if exponent < 0 then Double.nearest m (Nat.pow 10 (-exponent).toNat)
      else Double.nearest (m * Nat.pow 10 exponent.toNat) 1
    if d.isFinite then some (of d.whole) else none

def real? (cs : List Char) : Option Real := decimal? cs >>= Decimal.real?

/-! ## Times -/

/-- A number of one or two digits. -/
def shortNumber? (cs : List Char) : Option (Nat × List Char) :=
  match cs with
  | a :: b :: r =>
      if !a.isDigit then none
      else if b.isDigit then some (Text.positional 10 [a, b], r)
      else some (Text.positional 10 [a], b :: r)
  | [a] => if a.isDigit then some (Text.positional 10 [a], []) else none
  | [] => none

/-- A character that must come next. -/
def expected? (c : Char) : List Char → Option (List Char)
  | a :: r => if a = c then some r else none
  | [] => none

def isLeapYear (y : Nat) : Bool := y % 4 = 0 && (y % 100 ≠ 0 || y % 400 = 0)

def daysIn (year month : Nat) : Nat :=
  if month = 2 then (if isLeapYear year then 29 else 28)
  else if [4, 6, 9, 11].contains month then 30 else 31

/-- A date at the start of a text: a year of four digits, month and day. -/
def date? (cs : List Char) : Option (List Char) := do
  let year := cs.takeWhile Char.isDigit
  if year.length ≠ 4 then none
  let r ← expected? '-' (cs.drop 4)
  let (month, r) ← shortNumber? r
  let r ← expected? '-' r
  let (day, r) ← shortNumber? r
  if month < 1 || month > 12 || day < 1 || day > daysIn (Text.positional 10 year) month then none
  pure r

/-- A time of day at the start of a text; seconds may have a fraction. -/
def clock? (cs : List Char) : Option (List Char) := do
  let (hour, r) ← shortNumber? cs
  let r ← expected? ':' r
  let (minute, r) ← shortNumber? r
  let r ← expected? ':' r
  let (second, r) ← shortNumber? r
  if hour > 23 || minute > 59 || second > 59 then none
  match r with
  | p :: d :: _ =>
      if (p = '.' || p = ',') && d.isDigit then pure ((r.drop 1).dropWhile Char.isDigit) else pure r
  | _ => pure r

/-- Whether a text is a time zone: a letter, or hours and minutes with a sign. -/
def isZone : List Char → Bool
  | ['Z'] => true
  | [s, a, b, ':', c, d] =>
      (s = '+' || s = '-') && [a, b, c, d].all Char.isDigit &&
        Text.positional 10 [a, b] ≤ 24 && Text.positional 10 [c, d] ≤ 60
  | _ => false

/-- Whether a text is a date, possibly with a time of day. A time after a `T` has a zone, and one
after blanks has none. -/
def isTime (cs : List Char) : Bool :=
  match date? cs with
  | none => false
  | some [] => true
  | some (c :: r) =>
      if c = 'T' || c = 't' then (clock? r).any isZone
      else c = ' ' && (clock? (r.dropWhile (· = ' '))).any List.isEmpty

/-! ## Resolution -/

/-- The texts that stand for one value each. -/
def fixedValue? (s : String) : Option Value :=
  if ["", "~", "null", "Null", "NULL"].contains s then some .nothing
  else if ["true", "True", "TRUE"].contains s then some (.flag true)
  else if ["false", "False", "FALSE"].contains s then some (.flag false)
  else if [".nan", ".NaN", ".NAN"].contains s then some (.real .nan)
  else if [".inf", ".Inf", ".INF", "+.inf", "+.Inf", "+.INF"].contains s then
    some (.real (.infinite false))
  else if ["-.inf", "-.Inf", "-.INF"].contains s then some (.real (.infinite true))
  else none

/-- A number in a text from which the underscores are taken. -/
def number? (cs : List Char) : Option Value :=
  match integer? cs with
  | some i => some (.int i)
  | none =>
      match real? cs with
      | some r => some (.real r)
      | none =>
          -- after a binary or octal mark in lower case there may be a sign
          match cs with
          | '0' :: 'b' :: r => (integerIn? 2 r).map .int
          | '0' :: 'o' :: r => (integerIn? 8 r).map .int
          | '-' :: '0' :: 'b' :: r => (integerIn? 2 ('-' :: r)).map .int
          | '-' :: '0' :: 'o' :: r => (integerIn? 8 ('-' :: r)).map .int
          | _ => none

/-- The value of a text that no tag says more of. Times are looked for only if asked. -/
def valueOf (times : Bool) (s : String) : Value :=
  match fixedValue? s with
  | some v => v
  | none =>
      match s.toList with
      | '.' :: r =>
          let cs := '.' :: r
          if Text.underscoresFit Char.isDigit false cs then
            ((real? (cs.filter (· ≠ '_'))).map Value.real).getD (.text s)
          else .text s
      | c :: r =>
          if c = '+' || c = '-' || c.isDigit then
            if times && isTime (c :: r) then .time
            else (number? ((c :: r).filter (· ≠ '_'))).getD (.text s)
          else .text s
      | [] => .nothing

/-- The tags whose values are told by the text. -/
def isResolvable (tag : String) : Bool :=
  ["", Tag.text, Tag.flag, Tag.int, Tag.real, Tag.null, Tag.time].contains tag

/-- The value of a text under a tag, with the tag it has then; nothing if the text is not of the
kind the tag asks for. An integer is also a real number. -/
def resolve? (tag s : String) : Option (String × Value) :=
  let tag := Tag.short tag
  if !isResolvable tag then some (tag, .text s)
  else if tag = Tag.text then some (Tag.text, .text s)
  else
    let v := valueOf (tag = "" || tag = Tag.time) s
    if tag = "" || tag = v.tag then some (v.tag, v)
    else match v with
      | .int i =>
          if tag = Tag.real && i < 0x8000000000000000 then some (Tag.real, .real (.finite i))
          else none
      | _ => none

end CycleCheck.Yaml

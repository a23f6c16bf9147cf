import CycleCheck.Term.Error

/-!
Checked construction: symbols, numerals and constants from text, and applications that have the
indices and arguments their operator asks for.
-/

namespace CycleCheck

/-- The characters of a symbol: ASCII letters, digits and a set of punctuation marks. -/
def Symbol.isSymbolChar (c : Char) : Bool :=
  ('a' ≤ c && c ≤ 'z') || ('A' ≤ c && c ≤ 'Z') || ('0' ≤ c && c ≤ '9') ||
    "~!@$%^&*_-+=<>.?/".toList.contains c

/-- A symbol is a non-empty text of symbol characters that does not start with a digit. -/
def Symbol.parse (name : String) : Except TermError Symbol :=
  match name.toList with
  | [] => .error .emptySymbol
  | c :: rest =>
      if c.isDigit || !(c :: rest).all Symbol.isSymbolChar then .error (.invalidSymbol name)
      else .ok ⟨name⟩

/-- A numeral is decimal, below 2^64, and has no leading zero. -/
def Numeral.parse (digits : String) : Except TermError Numeral :=
  match digits.toList with
  | [] => .error .emptyNumeral
  | c :: rest =>
      if !rest.isEmpty && c = '0' then .error (.invalidNumeral digits)
      else match Text.natural? (c :: rest) with
        | some n =>
            if n < 18446744073709551616 then .ok ⟨n.toUInt64⟩ else .error (.invalidNumeral digits)
        | none => .error (.invalidNumeral digits)

/-- The numeral of an integer that is not negative. -/
def Numeral.ofInt (n : Int) : Except TermError Numeral :=
  if n < 0 then .error (.negativeNumeral n) else .ok ⟨n.toNat.toUInt64⟩

namespace Term

/-- A constant from binary digits. -/
def parseBinary (digits : String) : Except TermError Term :=
  if digits.isEmpty then .error .emptyBinary
  else if digits.toList.all (fun c => c = '0' || c = '1') then .ok (.binary digits)
  else .error (.invalidBinary digits)

/-- A constant from hexadecimal digits in either letter case. -/
def parseHex (digits : String) : Except TermError Term :=
  if digits.isEmpty then .error .emptyHex
  else if digits.toList.all (fun c => (Text.digitValue? c).isSome) then .ok (.hex digits)
  else .error (.invalidHex digits)

/-- The low `width` bits of a value as a constant, hexadecimal if the width is a multiple of four
and binary otherwise. -/
def word (width value : Nat) : Term :=
  if width % 4 = 0 then .hex (Text.fixedWidth 16 (width / 4) value)
  else .binary (Text.fixedWidth 2 width value)

/-- The constant of a value that fits a width from 1 to 64. -/
def bits (value : UInt64) (width : Int) : Except TermError Term :=
  if width ≤ 0 || width > 64 then .error (.invalidWidth width)
  else
    let w := width.toNat
    if value.toNat >>> w ≠ 0 then .error (.valueTooLarge value) else .ok (word w value.toNat)

/-- All arguments, or the position of the first one that is missing. -/
def present (op : String) : Nat → List (Option Term) → Except TermError (List Term)
  | _, [] => .ok []
  | i, none :: _ => .error (.missingTerm i op)
  | i, some t :: rest => do
      let ts ← present op (i + 1) rest
      pure (t :: ts)

/-- An application with the indices and arguments that its operator asks for. -/
def apply (op : Op) (indices : List Numeral) (args : List (Option Term)) : Except TermError Term :=
  if indices.length ≠ op.indexCount then
    .error (if op.indexCount = 0 then .notIndexed op else .indexCount op)
  else if args.length < op.arity.1 || op.arity.2.any (· < args.length) then
    .error (.arity op args.length)
  else do
    let ts ← present op.text 0 args
    match op, indices with
    | .extract, [hi, lo] =>
        if hi.value < lo.value then .error (.reversedIndices op hi lo)
        else pure (.app op indices ts)
    | _, _ => pure (.app op indices ts)

/-- An application of the operator with a name. -/
def applyNamed (name : String) (indices : List Numeral) (args : List (Option Term)) :
    Except TermError Term :=
  match Op.ofText? name with
  | none => .error (.invalidSymbol name)
  | some op => apply op indices args

end Term

end CycleCheck

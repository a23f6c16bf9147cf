import CycleCheck.Term.Basic
import CycleCheck.Fault

/-!
What is refused when terms and declarations are built, and how it is reported.
-/

namespace CycleCheck

inductive TermError where
  | emptySymbol
  | invalidSymbol (name : String)
  | emptyNumeral
  | invalidNumeral (digits : String)
  | negativeNumeral (n : Int)
  | emptyBinary
  | invalidBinary (digits : String)
  | emptyHex
  | invalidHex (digits : String)
  | valueTooLarge (value : UInt64)
  | invalidWidth (width : Int)
  /-- indices for an operator that has none -/
  | notIndexed (op : Op)
  | indexCount (op : Op)
  | reversedIndices (op : Op) (hi lo : Numeral)
  | arity (op : Op) (got : Nat)
  /-- the argument at a position of an operator or command is missing -/
  | missingTerm (position : Nat) (of : String)
deriving DecidableEq

namespace TermError

/-- The numbers of arguments an operator takes. -/
def arityText : Nat × Option Nat → String
  | (least, none) => "at least " ++ Text.decimal least
  | (least, some most) =>
      if least = most then "exactly " ++ Text.decimal least
      else "between " ++ Text.decimal least ++ " and " ++ Text.decimal most

def symbolFault (what : String) : Fault := .patterned "smt: invalid symbol (%s)" [.text what]

def numeralFault (what : String) : Fault := .patterned "smt: invalid numeral (%s)" [.text what]

def constantFault (what : String) : Fault := .patterned "smt: invalid constant (%s)" [.text what]

def indexFault (op : Op) (why : String) : Fault :=
  .patterned "smt: invalid index for %s: %s" [.text op.text, .text why]

def fault : TermError → Fault
  | .emptySymbol => symbolFault "empty"
  | .invalidSymbol name => symbolFault name
  | .emptyNumeral => numeralFault "empty"
  | .invalidNumeral digits => numeralFault digits
  | .negativeNumeral n => numeralFault (Text.integer n)
  | .emptyBinary => constantFault "empty binary"
  | .invalidBinary digits => constantFault ("#b" ++ digits)
  | .emptyHex => constantFault "empty hex"
  | .invalidHex digits => constantFault ("#x" ++ digits)
  | .valueTooLarge value => constantFault (Text.decimal value.toNat ++ " does not fit")
  | .invalidWidth width => .patterned "smt: invalid width (%d)" [.int width]
  | .notIndexed op => indexFault op "not an indexed identifier"
  | .indexCount op => indexFault op ("requires " ++ Text.decimal op.indexCount ++ " indices")
  | .reversedIndices op hi lo => indexFault op (hi.text ++ " is less than " ++ lo.text)
  | .arity op got =>
      .patterned "smt: %s takes %s arguments (got %d)"
        [.text op.text, .text (arityText op.arity), .int got]
  | .missingTerm position of =>
      .patterned "smt: nil term in argument %d of %s" [.int position, .text of]

end TermError

end CycleCheck

import CycleCheck.Text.Digits

/-!
Terms of the quantifier-free logic of bit-vectors and arrays: symbols, numerals, constants and
applications of a fixed set of operators, with their text.
-/

namespace CycleCheck

/-- A name in a formula. Names come from `Symbol.parse?`, the empty one stands for no name. -/
structure Symbol where
  name : String
deriving DecidableEq, Inhabited

/-- A numeral of the term language, below 2^64. -/
structure Numeral where
  value : UInt64
deriving DecidableEq, Inhabited

def Numeral.text (n : Numeral) : String := Text.decimal n.value.toNat

/-- The operators of the term language. -/
inductive Op where
  | and | or | not | xor | distinct | eq | implies | ite
  | bvadd | bvsub | bvand | bvor | bvxor | bvnot | bvshl | bvlshr
  | bvult | bvule | bvugt | bvuge
  | concat | extract | zeroExtend
  | select | store
deriving DecidableEq, Inhabited

namespace Op

def all : List Op :=
  [.and, .or, .not, .xor, .distinct, .eq, .implies, .ite,
    .bvadd, .bvsub, .bvand, .bvor, .bvxor, .bvnot, .bvshl, .bvlshr,
    .bvult, .bvule, .bvugt, .bvuge,
    .concat, .extract, .zeroExtend, .select, .store]

/-- The name of an operator in a formula. -/
def text : Op → String
  | .and => "and"
  | .or => "or"
  | .not => "not"
  | .xor => "xor"
  | .distinct => "distinct"
  | .eq => "="
  | .implies => "=>"
  | .ite => "ite"
  | .bvadd => "bvadd"
  | .bvsub => "bvsub"
  | .bvand => "bvand"
  | .bvor => "bvor"
  | .bvxor => "bvxor"
  | .bvnot => "bvnot"
  | .bvshl => "bvshl"
  | .bvlshr => "bvlshr"
  | .bvult => "bvult"
  | .bvule => "bvule"
  | .bvugt => "bvugt"
  | .bvuge => "bvuge"
  | .concat => "concat"
  | .extract => "extract"
  | .zeroExtend => "zero_extend"
  | .select => "select"
  | .store => "store"

def ofText? (s : String) : Option Op := all.find? (·.text == s)

/-- How many indices an operator has. -/
def indexCount : Op → Nat
  | .extract => 2
  | .zeroExtend => 1
  | _ => 0

/-- The least number of arguments of an operator, and the greatest if there is one. -/
def arity : Op → Nat × Option Nat
  | .and | .or | .xor | .distinct | .eq => (2, none)
  | .not | .bvnot | .extract | .zeroExtend => (1, some 1)
  | .ite | .store => (3, some 3)
  | _ => (2, some 2)

end Op

/-- A term. Digits of constants are kept as written. -/
inductive Term where
  | symbol (s : Symbol)
  | numeral (n : Numeral)
  | binary (digits : String)
  | hex (digits : String)
  | bool (value : Bool)
  | app (op : Op) (indices : List Numeral) (args : List Term)
deriving Inhabited

namespace Term

/-- The head of an application: the operator, or the operator with its indices. -/
def headText (op : Op) (indices : List Numeral) : String :=
  if indices.isEmpty then op.text
  else "(_ " ++ op.text ++ String.join (indices.map fun n => " " ++ n.text) ++ ")"

mutual

/-- Appends the text of a term. -/
def appendText (acc : String) : Term → String
  | .symbol s => acc ++ s.name
  | .numeral n => acc ++ n.text
  | .binary digits => acc ++ "#b" ++ digits
  | .hex digits => acc ++ "#x" ++ digits
  | .bool true => acc ++ "true"
  | .bool false => acc ++ "false"
  | .app op indices args => appendArgs (acc ++ "(" ++ headText op indices) args ++ ")"

/-- Appends the texts of arguments, each after a blank. -/
def appendArgs (acc : String) : List Term → String
  | [] => acc
  | a :: rest => appendArgs (appendText (acc ++ " ") a) rest

end

def text (t : Term) : String := appendText "" t

/-- The number of bits a constant has; other terms have no width of their own. -/
def constantWidth : Term → Nat
  | .binary digits => digits.length
  | .hex digits => digits.length * 4
  | _ => 0

end Term

end CycleCheck

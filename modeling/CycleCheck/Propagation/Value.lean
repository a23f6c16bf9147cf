import CycleCheck.Formula
import Std.Data.HashMap

/-!
Values of propagation. A value is known or unknown; comparisons of values have three answers.
Words have at most 64 bits, and widths are 64-bit integers that wrap, because indices of terms
are numerals below 2^64.

An array is known as a memory: a root, named by the symbol whose first cell made it, and the
stores done on it since, latest first. Cells of a root are kept in the state and only ever added.
-/

namespace CycleCheck.Propagation

/-- The sort of a declared symbol. -/
inductive TermSort where
  | bits (width : Int64)
  | array (address data : Int64)
deriving DecidableEq

/-- An array built by stores on a root. -/
structure Memory where
  root : String
  addressWidth : Int64
  dataWidth : Int64
  stores : List (UInt64 × UInt64)

/-- Same root and same stores. The widths go with the root. -/
def Memory.same (a b : Memory) : Bool := a.root == b.root && a.stores == b.stores

def Memory.store (m : Memory) (index value : UInt64) : Memory :=
  { m with stores := (index, value) :: m.stores }

/-- Only roots can be given cells. -/
def Memory.isRoot (m : Memory) : Bool := m.stores.isEmpty

inductive Value where
  | unknown
  | bool (b : Bool)
  | bits (v : UInt64) (width : Int64)
  | array (m : Memory)

namespace Value

def known : Value → Bool
  | .unknown => false
  | _ => true

/-- The truth of a boolean; any other value counts as false. -/
def truth : Value → Bool
  | .bool b => b
  | _ => false

/-- The bits of a word; any other value counts as zero. -/
def word : Value → UInt64
  | .bits v _ => v
  | _ => 0

/-- The width of a word; any other value has width zero. -/
def width : Value → Int64
  | .bits _ w => w
  | _ => 0

end Value

/-- A shift to the left that loses all bits when the amount is 64 or more. -/
def shiftLeft (v amount : UInt64) : UInt64 := if amount < 64 then v <<< amount else 0

/-- A shift to the right that loses all bits when the amount is 64 or more. -/
def shiftRight (v amount : UInt64) : UInt64 := if amount < 64 then v >>> amount else 0

/-- The word of ones in the low `width` bits; all ones for a width outside 0 to 63. -/
def mask (width : Int64) : UInt64 :=
  if width ≥ 64 then 0 - 1 else shiftLeft 1 width.toUInt64 - 1

/-- A word cut to a width. -/
def Value.ofWord (v : UInt64) (width : Int64) : Value := .bits (v &&& mask width) width

/-- The answer of a comparison. -/
inductive Tri where
  | maybe
  | yes
  | no
deriving DecidableEq

def Tri.ofBool (b : Bool) : Tri := if b then .yes else .no

def Tri.value : Tri → Value
  | .maybe => .unknown
  | .yes => .bool true
  | .no => .bool false

/-- Arrays are only known to be equal if they are the same memory. -/
def Value.equal (a b : Value) : Tri :=
  if !a.known || !b.known then .maybe
  else match a with
    | .unknown => .maybe
    | .bool x => .ofBool (x == b.truth)
    | .bits x _ => .ofBool (x == b.word)
    | .array m =>
        match b with
        | .array n => if m.same n then .yes else .maybe
        | _ => .maybe

/-- What is known of a formula. -/
structure State where
  sorts : Std.HashMap String TermSort := {}
  values : Std.HashMap String UInt64 := {}
  arrays : Std.HashMap String Memory := {}
  cells : Std.HashMap (String × UInt64) UInt64 := {}
  /-- how many definitions were made -/
  definitions : Nat := 0

/-- The cell of a memory: the latest store at the index, or the cell of the root. -/
def State.lookup (s : State) (m : Memory) (index : UInt64) : Option UInt64 :=
  match m.stores.find? (·.1 == index) with
  | some (_, v) => some v
  | none => s.cells[(m.root, index)]?

end CycleCheck.Propagation

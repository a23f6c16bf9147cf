import CycleCheck.Term.Reading

/-!
Short builders. The first group takes arguments that may be missing and reports what is wrong;
the second group is for terms whose shape is right by construction.
-/

namespace CycleCheck.Term

/-- The conjunction of any number of terms: `true` for none and the term itself for one. -/
def conjunction? : List (Option Term) → Except TermError (Option Term)
  | [] => .ok (some (.bool true))
  | [t] => .ok t
  | ts => some <$> apply .and [] ts

/-- The disjunction of any number of terms: `false` for none and the term itself for one. -/
def disjunction? : List (Option Term) → Except TermError (Option Term)
  | [] => .ok (some (.bool false))
  | [t] => .ok t
  | ts => some <$> apply .or [] ts

/-- Bits `hi` down to `lo` of a term. -/
def extract? (hi lo : Int) (t : Option Term) : Except TermError Term := do
  let h ← Numeral.ofInt hi
  let l ← Numeral.ofInt lo
  apply .extract [h, l] [t]

/-- A term with `n` zero bits put before it. -/
def zeroExtend? (n : Int) (t : Option Term) : Except TermError Term := do
  let k ← Numeral.ofInt n
  apply .zeroExtend [k] [t]

/-! ## Builders that cannot fail -/

def sym (s : Symbol) : Term := .symbol s

def all : List Term → Term
  | [] => .bool true
  | [t] => t
  | ts => .app .and [] ts

def any : List Term → Term
  | [] => .bool false
  | [t] => t
  | ts => .app .or [] ts

def not (t : Term) : Term := .app .not [] [t]
def eq (a b : Term) : Term := .app .eq [] [a, b]
def implies (a b : Term) : Term := .app .implies [] [a, b]
def ite (c a b : Term) : Term := .app .ite [] [c, a, b]
def add (a b : Term) : Term := .app .bvadd [] [a, b]
def sub (a b : Term) : Term := .app .bvsub [] [a, b]
def bitAnd (a b : Term) : Term := .app .bvand [] [a, b]
def bitOr (a b : Term) : Term := .app .bvor [] [a, b]
def ult (a b : Term) : Term := .app .bvult [] [a, b]
def uge (a b : Term) : Term := .app .bvuge [] [a, b]
def concat (a b : Term) : Term := .app .concat [] [a, b]
def select (array index : Term) : Term := .app .select [] [array, index]
def store (array index value : Term) : Term := .app .store [] [array, index, value]

def extract (hi lo : Nat) (t : Term) : Term :=
  .app .extract [⟨hi.toUInt64⟩, ⟨lo.toUInt64⟩] [t]

def zeroExtend (n : Nat) (t : Term) : Term := .app .zeroExtend [⟨n.toUInt64⟩] [t]

def bit (b : Bool) : Term := .binary (if b then "1" else "0")

end CycleCheck.Term

import CycleCheck.Text.Pattern

/-!
Faults: errors that keep what they were made from. A patterned fault is told apart by its pattern
and not by its text, and its values may be faults again, which gives every fault a chain of
causes. In the text, parts that follow themselves are dropped, so that a cause wrapped twice by
the same layer is announced once.
-/

namespace CycleCheck

mutual

/-- An error with its cause. -/
inductive Fault where
  /-- a bare text -/
  | plain (text : String)
  /-- another fault with a text before it -/
  | wrapped (lead : String) (inner : Fault)
  /-- a pattern and the values to be put into it -/
  | patterned (pattern : String) (values : List Datum)

/-- A value in a fault or a log message. -/
inductive Datum where
  | text (s : String)
  | int (i : Int)
  | flag (b : Bool)
  | absent
  | fault (f : Fault)
  /-- a value known only by its name -/
  | named (s : String)

end

namespace Fault

/-- Drops every part that equals the part before it. -/
def dropRepeats : List String → List String
  | a :: b :: rest => if a = b then dropRepeats (b :: rest) else a :: dropRepeats (b :: rest)
  | parts => parts

/-- The text without parts that follow themselves. -/
def condense (text : String) : String :=
  ": ".intercalate (dropRepeats (text.splitOn ": "))

end Fault

mutual

def Fault.message : Fault → String
  | .plain text => text
  | .wrapped lead inner => lead ++ inner.message
  | .patterned pattern values => Fault.condense (Text.Pattern.format pattern (Datum.args values))

def Datum.arg : Datum → Text.Pattern.Arg
  | .text s => .text s
  | .int i => .int i
  | .flag b => .flag b
  | .absent => .absent
  | .named s => .text s
  | .fault (.plain text) => .record "errors.errorString" true text [.text text]
  | .fault (.wrapped lead inner) =>
      .record "fmt.wrapError" true (lead ++ inner.message) [.text (lead ++ inner.message)]
  | .fault (.patterned pattern values) =>
      .record "curated.curated" false
        (Fault.condense (Text.Pattern.format pattern (Datum.args values)))
        [.text pattern, .list (Datum.args values)]

def Datum.args : List Datum → List Text.Pattern.Arg
  | [] => []
  | d :: rest => d.arg :: Datum.args rest

end

namespace Fault

/-- Puts a text before a fault that may be missing. -/
def wrap (lead : String) : Option Fault → Fault
  | some f => .wrapped lead f
  | none => .plain (lead ++ "%!w(<nil>)")

/-- The first fault among values. -/
def firstIn : List Datum → Option Fault
  | [] => none
  | .fault f :: _ => some f
  | _ :: rest => firstIn rest

/-- The direct cause. -/
def cause? : Fault → Option Fault
  | .plain _ => none
  | .wrapped _ inner => some inner
  | .patterned _ values => firstIn values

/-- The pattern of a patterned fault. -/
def pattern? : Fault → Option String
  | .patterned pattern _ => some pattern
  | _ => none

/-- Whether the fault itself has the pattern. -/
def is (f : Fault) (pattern : String) : Bool := f.pattern? == some pattern

mutual

/-- Whether the fault, or a fault it was made from, has the pattern. -/
def has (pattern : String) : Fault → Bool
  | .plain _ => false
  | .wrapped _ inner => has pattern inner
  | .patterned p values => p == pattern || anyHas pattern values

def anyHas (pattern : String) : List Datum → Bool
  | [] => false
  | d :: rest => datumHas pattern d || anyHas pattern rest

def datumHas (pattern : String) : Datum → Bool
  | .fault f => has pattern f
  | _ => false

end

mutual

/-- The patterns met by following causes while they are patterned. -/
def chain : Fault → List String
  | .patterned p values => p :: chainIn values
  | _ => []

def chainIn : List Datum → List String
  | [] => []
  | d :: rest => (chainOf? d).getD (chainIn rest)

def chainOf? : Datum → Option (List String)
  | .fault f => some (chain f)
  | _ => none

end

end Fault

end CycleCheck

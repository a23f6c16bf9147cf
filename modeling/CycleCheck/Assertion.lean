import CycleCheck.Fault

/-!
Assertions about values. An assertion that fails leaves a message; a value that cannot be judged
ends the assertion at once.
-/

namespace CycleCheck

/-- What an assertion says. -/
inductive AssertionMessage where
  | error (text : String)
  | fatal (text : String)
  | failNow

def AssertionMessage.text : AssertionMessage → String
  | .error text => "error: " ++ text
  | .fatal text => "fatal: " ++ text
  | .failNow => "fail now"

/-- The outcome of an assertion; there is no result if it ended early or gives none. -/
structure Assertion where
  result : Option Bool := none
  messages : List AssertionMessage := []

/-- Whether two values are the same. Faults are never the same as others. -/
def Datum.same : Datum → Datum → Bool
  | .text a, .text b => a = b
  | .int a, .int b => a = b
  | .flag a, .flag b => a = b
  | .named a, .named b => a = b
  | .absent, .absent => true
  | _, _ => false

namespace Assertion

def format (pattern : String) (values : List Datum) : String :=
  Text.Pattern.format pattern (Datum.args values)

/-- The tags of an assertion in brackets. -/
def label (tags : List Datum) : String :=
  if tags.isEmpty then ""
  else "[" ++ ", ".intercalate (tags.map fun t => format "%v" [t]) ++ "] "

def pass : Assertion := { result := some true }

def fail (tags : List Datum) (pattern : String) (values : List Datum) : Assertion :=
  { result := some false, messages := [.error (label tags ++ format pattern values)] }

/-- Whether a value means success: a flag that is set, or no fault. Other values have no meaning. -/
def succeeds? : Datum → Option Bool
  | .flag b => some b
  | .fault _ => some false
  | .absent => some true
  | _ => none

def unsupported (v : Datum) (tags : List Datum) : Assertion :=
  { messages := [.fatal (label tags ++ format "unsupported type (%T) for success testing" [v])] }

def success (v : Datum) (tags : List Datum) : Assertion :=
  match succeeds? v, v with
  | none, _ => unsupported v tags
  | some true, _ => pass
  | some false, .fault _ => fail tags "a success value is expected for type %T: %v" [v, v]
  | some false, _ => fail tags "a success value is expected for type %T" [v]

def failure (v : Datum) (tags : List Datum) : Assertion :=
  match succeeds? v, v with
  | _, .absent => fail tags "a failure value is expected but got nil" []
  | none, _ => unsupported v tags
  | some true, _ => fail tags "a failure value is expected for type %T" [v]
  | some false, _ => pass

def equality (v expected : Datum) (tags : List Datum) : Assertion :=
  if v.same expected then pass
  else fail tags "equality test of type %T failed: '%v' does not equal '%v'" [v, v, expected]

def inequality (v expected : Datum) (tags : List Datum) : Assertion :=
  if v.same expected then
    fail tags "inequality test of type %T failed: '%v' does equal '%v'" [v, v, expected]
  else pass

/-- The stern form of an assertion: it gives no result, and failing ends it. -/
def demanded (a : Assertion) : Assertion :=
  { messages := a.messages ++ (if a.result = some false then [.failNow] else []) }

end Assertion

end CycleCheck

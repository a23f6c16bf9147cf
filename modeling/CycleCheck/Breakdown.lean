/-!
What stops the program in the middle of an operation. Nothing is remembered of it, and the operation
has changed nothing.
-/

namespace CycleCheck

inductive Breakdown where
  /-- a content is made with a length below zero -/
  | negativeLength
  /-- a number is reduced modulo zero -/
  | divisionByZero
  /-- an index is not one of the content -/
  | outOfRange
deriving DecidableEq

end CycleCheck

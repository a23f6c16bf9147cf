/-!
The version of the program.
-/

namespace CycleCheck

structure Version where
  number : String
  revision : String
  release : Bool

namespace Version

def applicationName : String := "sat6502"

/-- A build that is no release and knows no revision. -/
def current : Version := ⟨"local", "no revision information", false⟩

/-- The version on one line; releases do not show the revision. -/
def text (v : Version) : String :=
  applicationName ++ " " ++ v.number ++ (if v.release then "" else " (" ++ v.revision ++ ")")

end Version

end CycleCheck

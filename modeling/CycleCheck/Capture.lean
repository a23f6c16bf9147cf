/-!
Output that is kept to be looked at.
-/

namespace CycleCheck

structure Capture where
  text : String := ""

namespace Capture

def write (c : Capture) (s : String) : Capture := ⟨c.text ++ s⟩

def clear (_ : Capture) : Capture := {}

def compare (c : Capture) (s : String) : Bool := c.text = s

end Capture

end CycleCheck

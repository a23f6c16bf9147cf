/-!
Slash-separated paths.
-/

namespace CycleCheck.Text

/-- What follows the last slash. -/
def afterLastSlash (cs : List Char) : List Char := (cs.reverse.takeWhile (· ≠ '/')).reverse

/-- The extension of a path: from the last point on, if there is one after the last slash. -/
def pathExtension (path : String) : String :=
  let name := afterLastSlash path.toList
  if name.contains '.' then
    String.ofList ('.' :: (name.reverse.takeWhile (· ≠ '.')).reverse)
  else ""

/-- The last element of a path, slashes at the end left out. -/
def pathBase (path : String) : String :=
  if path.isEmpty then "."
  else
    let trimmed := (path.toList.reverse.dropWhile (· = '/')).reverse
    let name := afterLastSlash trimmed
    if name.isEmpty then "/" else String.ofList name

/-- A text without an ending, if it has that ending. -/
def withoutSuffix (s ending : String) : String :=
  if s.endsWith ending then String.ofList (s.toList.take (s.length - ending.length)) else s

end CycleCheck.Text

/-!
Input of the document reader: characters by their role, and text with the place where it stands.
-/

namespace CycleCheck.Yaml

/-- Line breaks: line feed, carriage return, next line, and the two Unicode separators. -/
def isBreak (c : Char) : Bool :=
  c = '\n' || c = '\r' || c.toNat = 0x85 || c.toNat = 0x2028 || c.toNat = 0x2029

def isBlank (c : Char) : Bool := c = ' ' || c = '\t'

def isSpacing (c : Char) : Bool := isBlank c || isBreak c

/-- The characters of anchors and of tag handles. -/
def isWord (c : Char) : Bool := c.isAlphanum || c = '_' || c = '-'

/-- The characters a document may hold. -/
def isAllowed (c : Char) : Bool :=
  let n := c.toNat
  n = 0x09 || n = 0x0a || n = 0x0d || (0x20 ≤ n && n ≤ 0x7e) || n = 0x85 ||
    (0xa0 ≤ n && n ≤ 0xfffd && n ≠ 0xfeff) || 0x10000 ≤ n

/-- A place in a text; lines and columns count from zero. -/
structure Mark where
  index : Nat := 0
  line : Nat := 0
  column : Nat := 0

/-- The text that is left, and where it starts. -/
structure Input where
  rest : List Char
  mark : Mark := {}

namespace Input

def atEnd (i : Input) : Bool := i.rest.isEmpty

def head? (i : Input) : Option Char := i.rest.head?

/-- The character some places on. -/
def peek? (i : Input) (n : Nat) : Option Char := (i.rest.drop n).head?

def startsWith (i : Input) (c : Char) : Bool := i.head? = some c

/-- Whether a class holds of the next character; it holds of no character at the end. -/
def next (i : Input) (p : Char → Bool) : Bool := i.head?.any p

/-- Whether the text ends, or blank space follows, some places on. -/
def spacingAt (i : Input) (n : Nat) : Bool := (i.peek? n).all isSpacing

/-- Takes one character that is no line break. -/
def skip (i : Input) : Input :=
  { rest := i.rest.drop 1
    mark := { i.mark with index := i.mark.index + 1, column := i.mark.column + 1 } }

/-- Takes a number of characters that are no line breaks. -/
def skipN (i : Input) (n : Nat) : Input :=
  { rest := i.rest.drop n
    mark := { i.mark with index := i.mark.index + n, column := i.mark.column + n } }

/-- Takes a line break. A carriage return and a line feed are one break; the Unicode separators
stand for themselves and the other breaks for a line feed. -/
def readBreak (i : Input) : Char × Input :=
  let nextLine (rest : List Char) (n : Nat) : Input :=
    { rest, mark := ⟨i.mark.index + n, i.mark.line + 1, 0⟩ }
  match i.rest with
  | '\r' :: '\n' :: rest => ('\n', nextLine rest 2)
  | c :: rest => (if c.toNat = 0x2028 || c.toNat = 0x2029 then c else '\n', nextLine rest 1)
  | [] => ('\n', i)

def skipBreak (i : Input) : Input := i.readBreak.2

/-- The longest run of characters of a class that holds no line breaks, and what follows. -/
def span (i : Input) (p : Char → Bool) : List Char × Input :=
  let run := i.rest.takeWhile p
  (run, i.skipN run.length)

def skipWhile (i : Input) (p : Char → Bool) : Input := (i.span p).2

/-- Whether a document marker stands at the start of a line here. -/
def atMarker (i : Input) : Bool :=
  i.mark.column = 0 && i.spacingAt 3 &&
    (i.rest.take 3 = ['-', '-', '-'] || i.rest.take 3 = ['.', '.', '.'])

end Input

end CycleCheck.Yaml

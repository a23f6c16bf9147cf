import CycleCheck.Yaml.Input
import CycleCheck.Yaml.Value

/-!
Writing of texts as scalars. A text is written plainly if it is then read as the same text, over
several lines if it has line feeds, and between quotes otherwise; what single quotes cannot keep is
written by escapes between double quotes.
-/

namespace CycleCheck.Yaml

/-- Whether a character is written as itself. -/
def isShown (c : Char) : Bool :=
  let n := c.toNat
  n = 0x0a || (0x20 ≤ n && n ≤ 0x7e) || (0xa0 ≤ n && n ≤ 0xfffd && n ≠ 0xfeff)

/-- Words that other readers take for truth values. -/
def isOldFlag (s : String) : Bool :=
  ["y", "Y", "yes", "Yes", "YES", "on", "On", "ON",
    "n", "N", "no", "No", "NO", "off", "Off", "OFF"].contains s

/-- Groups of a colon and one or two digits, the first of two below six; then possibly a point and
digits. -/
def sexagesimalGroups (some? : Bool) : List Char → Bool
  | ':' :: a :: b :: r =>
      if a.isDigit && b.isDigit then a < '6' && sexagesimalGroups true r
      else a.isDigit && sexagesimalGroups true (b :: r)
  | [':', a] => a.isDigit
  | '.' :: r => some? && r.all fun c => c.isDigit || c = '_'
  | [] => some?
  | _ => false

/-- Whether other readers take a text for a number in base 60. -/
def isSexagesimal (s : String) : Bool :=
  match (Text.splitSign s.toList).2 with
  | c :: r => c.isDigit && sexagesimalGroups false (r.dropWhile fun c => c.isDigit || c = '_')
  | [] => false

/-- Whether the text is read as itself when it stands without quotes. -/
def readsAsText (s : String) : Bool :=
  (valueOf true s).tag = Tag.text && !isSexagesimal s && !isOldFlag s

/-! ## What the characters of a text forbid -/

/-- Whether two neighbours satisfy a relation. -/
def someNeighbours (p : Char → Char → Bool) : List Char → Bool
  | a :: b :: r => p a b || someNeighbours p (b :: r)
  | _ => false

/-- Whether a plain scalar could not start with the text, or would end inside of it. -/
def hasIndicator (cs : List Char) : Bool :=
  let blankNext (r : List Char) : Bool := r.head?.all isBlank
  let leading := match cs with
    | c :: r =>
        "#,[]\x7b\x7d&*!|>'\"%@".toList.contains c || c.toNat = 0x60 ||
          ((c = '?' || c = ':' || c = '-') && blankNext r)
    | [] => false
  let rec inner : List Char → Bool
    | a :: b :: r => (b = ':' && blankNext r) || (b = '#' && isSpacing a) || inner (b :: r)
    | _ => false
  leading || inner cs || cs.take 3 = ['-', '-', '-'] || cs.take 3 = ['.', '.', '.']

/-- Characters that need escapes. -/
def needsEscape (cs : List Char) : Bool := cs.any fun c => c ≠ '\t' && !isShown c

def spaceThenBreak (cs : List Char) : Bool := someNeighbours (fun a b => a = ' ' && isBreak b) cs
def breakThenSpace (cs : List Char) : Bool := someNeighbours (fun a b => isBreak a && b = ' ') cs

def allowsBlock (cs : List Char) : Bool :=
  !cs.isEmpty && cs.getLast? ≠ some ' ' && !spaceThenBreak cs && !needsEscape cs

def allowsSingle (cs : List Char) : Bool :=
  !breakThenSpace cs && !spaceThenBreak cs && !cs.contains '\t' && !needsEscape cs

def allowsPlain (cs : List Char) : Bool :=
  let edge (c : Option Char) : Bool := c.any fun c => c = ' ' || isBreak c
  !edge cs.head? && !edge cs.getLast? && allowsSingle cs && !cs.any isBreak && !hasIndicator cs

/-! ## Styles -/

def indentation (n : Nat) : List Char := List.replicate n ' '

/-- Lines at an indentation. A line break is written as it is, and the first character after it is
indented. -/
def indented (indent : Nat) (quote : Bool) : Bool → List Char → List Char
  | _, [] => []
  | fresh, c :: r =>
      if isBreak c then c :: indented indent quote true r
      else
        (if fresh then indentation indent else []) ++
          (if quote && c = '\'' then ['\'', '\''] else [c]) ++ indented indent quote false r

def single (indent : Nat) (cs : List Char) : List Char :=
  '\'' :: indented indent true false cs ++ ['\'']

/-- The escape of a character between double quotes. -/
def escaped (c : Char) : List Char :=
  let n := c.toNat
  let letter (e : Char) : List Char := ['\\', e]
  let digits (mark : Char) (width : Nat) : List Char :=
    '\\' :: mark :: (Text.padLeft '0' width (Text.digits 16 n)).map Char.toUpper
  if n = 0 then letter '0'
  else if n = 7 then letter 'a'
  else if n = 8 then letter 'b'
  else if n = 9 then letter 't'
  else if n = 10 then letter 'n'
  else if n = 11 then letter 'v'
  else if n = 12 then letter 'f'
  else if n = 13 then letter 'r'
  else if n = 27 then letter 'e'
  else if c = '"' || c = '\\' then letter c
  else if n = 0x85 then letter 'N'
  else if n = 0xa0 then letter '_'
  else if n = 0x2028 then letter 'L'
  else if n = 0x2029 then letter 'P'
  else if n ≤ 0xff then digits 'x' 2
  else if n ≤ 0xffff then digits 'u' 4
  else digits 'U' 8

def double (cs : List Char) : List Char :=
  let one (c : Char) : List Char :=
    if !isShown c || isBreak c || c = '"' || c = '\\' then escaped c else [c]
  '"' :: cs.flatMap one ++ ['"']

/-- The marks of a block scalar: its indentation if it starts with blank space, and what becomes
of the line breaks at its end. -/
def blockMarks (step : Nat) (cs : List Char) : List Char :=
  let start := if cs.head?.any fun c => c = ' ' || isBreak c then Text.digits 10 step else []
  let ending := match cs.reverse with
    | c :: b :: _ => if !isBreak c then ['-'] else if isBreak b then ['+'] else []
    | [c] => if isBreak c then ['+'] else ['-']
    | [] => ['-']
  start ++ ending

/-- Whether a text is written over several lines so that all line breaks at its end are kept. -/
def keepsBreaks (cs : List Char) : Bool :=
  cs.contains '\n' && allowsBlock cs && (blockMarks 0 cs).contains '+'

/-- A text over several lines. The line of the marks ends before the first character of the text,
unless that is a line break itself. -/
def literal (indent step : Nat) (cs : List Char) : List Char :=
  let gap := if cs.head?.any isBreak then [] else ['\n']
  '|' :: blockMarks step cs ++ gap ++ indented indent false true cs

/-- Writes a text as a scalar. `indent` is where its lines start, and `step` how far collections
are indented. -/
def writeText (indent step : Nat) (s : String) : String :=
  let cs := s.toList
  let quoted := if allowsSingle cs then single indent cs else double cs
  String.ofList (
    if cs.contains '\n' then (if allowsBlock cs then literal indent step cs else double cs)
    else if !readsAsText s then double cs
    else if allowsPlain cs then cs
    else quoted)

end CycleCheck.Yaml

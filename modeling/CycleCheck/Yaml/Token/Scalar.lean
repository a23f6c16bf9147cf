import CycleCheck.Text.Digits
import CycleCheck.Yaml.Input

/-!
Scalars as they are written: plain, between quotes, or as an indented block. Line breaks inside
plain and quoted scalars are folded. A reading that fails gives no result, since nothing is said of
the cause.
-/

namespace CycleCheck.Yaml

/-- Blank space between two words of a scalar. -/
inductive Gap where
  | none
  | blanks (cs : List Char)
  /-- a line break, and the breaks of the empty lines after it -/
  | breaks (first : Char) (more : List Char)
  /-- a line break that is escaped, and the breaks of the empty lines after it -/
  | escaped (more : List Char)

namespace Gap

/-- What stands for a gap: a single line feed becomes a blank, other line feeds lose the first. -/
def text : Gap → List Char
  | .none => []
  | .blanks cs => cs
  | .breaks first more =>
      if first = '\n' then (if more.isEmpty then [' '] else more) else first :: more
  | .escaped more => more

def hasBreak : Gap → Bool
  | .breaks _ _ | .escaped _ => true
  | _ => false

/-- Takes the blank space that follows, of which `gap` is the start. In block context a tab to the
left of `indent` on a new line is refused. -/
def read (indent : Option Int) : Nat → Gap → Input → Option (Gap × Input)
  | 0, gap, i => some (gap, i)
  | fuel + 1, gap, i =>
      match i.head? with
      | some c =>
          if isBlank c then
            if gap.hasBreak then
              if c = '\t' && indent.any (fun n => (i.mark.column : Int) < n) then Option.none
              else read indent fuel gap i.skip
            else
              let gap := match gap with
                | .blanks cs => .blanks (cs ++ [c])
                | _ => .blanks [c]
              read indent fuel gap i.skip
          else if isBreak c then
            let (b, i) := i.readBreak
            let gap := match gap with
              | .breaks first more => .breaks first (more ++ [b])
              | .escaped more => .escaped (more ++ [b])
              | _ => .breaks b []
            read indent fuel gap i
          else some (gap, i)
      | .none => some (gap, i)

end Gap

/-- A scalar that was read. -/
structure Reading where
  text : String
  /-- whether a line break follows it that was taken with it -/
  brokenOff : Bool
  input : Input

/-! ## Plain scalars -/

/-- Whether a plain scalar ends before the next character. -/
def endsPlain (flow : Bool) (i : Input) : Bool :=
  match i.head? with
  | none => true
  | some c =>
      isSpacing c || (c = ':' && i.spacingAt 1) ||
        (flow && (c = ',' || c = '?' || c = '[' || c = ']' || c = '{' || c = '}'))

/-- The next word of a plain scalar. -/
def plainWord (flow : Bool) : Nat → Input → List Char → List Char × Input
  | 0, i, acc => (acc, i)
  | fuel + 1, i, acc =>
      match i.head? with
      | some c => if endsPlain flow i then (acc, i) else plainWord flow fuel i.skip (c :: acc)
      | none => (acc, i)

/-- Words and gaps of a plain scalar; the text is collected in reverse. -/
def plainWords (flow : Bool) (indent : Int) :
    Nat → Input → Gap → List Char → Option Reading
  | 0, _, _, _ => none
  | fuel + 1, i, gap, acc =>
      let done : Reading := ⟨String.ofList acc.reverse, gap.hasBreak, i⟩
      if i.atMarker || i.startsWith '#' then some done
      else
        let (word, after) := plainWord flow (i.rest.length + 1) i []
        let acc := if word.isEmpty then acc else word ++ gap.text.reverse ++ acc
        let gap := if word.isEmpty then gap else .none
        if !after.next isSpacing then some ⟨String.ofList acc.reverse, gap.hasBreak, after⟩
        else match Gap.read (some indent) (after.rest.length + 1) gap after with
          | none => none
          | some (gap, i) =>
              if !flow && (i.mark.column : Int) < indent then
                some ⟨String.ofList acc.reverse, gap.hasBreak, i⟩
              else plainWords flow indent fuel i gap acc

/-- Reads a plain scalar inside a collection at an indentation. -/
def readPlain (flow : Bool) (indent : Int) (i : Input) : Option Reading :=
  plainWords flow (indent + 1) (i.rest.length + 1) i .none []

/-! ## Quoted scalars -/

/-- The character of an escape that is one letter. -/
def letterEscape? (c : Char) : Option Char :=
  match c with
  | '0' => some (Char.ofNat 0)
  | 'a' => some (Char.ofNat 7)
  | 'b' => some (Char.ofNat 8)
  | 't' | '\t' => some '\t'
  | 'n' => some '\n'
  | 'v' => some (Char.ofNat 11)
  | 'f' => some (Char.ofNat 12)
  | 'r' => some '\r'
  | 'e' => some (Char.ofNat 27)
  | ' ' => some ' '
  | '"' => some '"'
  | '\'' => some '\''
  | '\\' => some '\\'
  | 'N' => some (Char.ofNat 0x85)
  | '_' => some (Char.ofNat 0xa0)
  | 'L' => some (Char.ofNat 0x2028)
  | 'P' => some (Char.ofNat 0x2029)
  | _ => none

/-- How many digits follow the letter of a numeric escape. -/
def escapeDigits? (c : Char) : Option Nat :=
  match c with
  | 'x' => some 2
  | 'u' => some 4
  | 'U' => some 8
  | _ => none

/-- The character an escape stands for, and how many characters the escape takes. -/
def escape? (i : Input) : Option (Char × Nat) := do
  let c ← i.peek? 1
  match letterEscape? c with
  | some e => pure (e, 2)
  | none =>
      let n ← escapeDigits? c
      let ds := (i.rest.drop 2).take n
      if ds.length < n || ds.any (fun d => (Text.digitValue? d).isNone) then none
      let v := Text.positional 16 ds
      if Nat.isValidChar v then pure (Char.ofNat v, 2 + n) else none

/-- Characters of a quoted scalar up to blank space, the closing quote or an escaped line break;
the last of these is told by the flag. -/
def quotedWord (single : Bool) : Nat → Input → List Char → Option (List Char × Input × Bool)
  | 0, _, _ => none
  | fuel + 1, i, acc =>
      match i.head? with
      | none => some (acc, i, false)
      | some c =>
          if isSpacing c then some (acc, i, false)
          else if single then
            if c = '\'' then
              if i.peek? 1 = some '\'' then quotedWord single fuel (i.skipN 2) ('\'' :: acc)
              else some (acc, i, false)
            else quotedWord single fuel i.skip (c :: acc)
          else if c = '"' then some (acc, i, false)
          else if c = '\\' then
            if (i.peek? 1).any isBreak then some (acc, i.skip.skipBreak, true)
            else match escape? i with
              | none => none
              | some (e, n) => quotedWord single fuel (i.skipN n) (e :: acc)
          else quotedWord single fuel i.skip (c :: acc)

/-- Words and gaps of a quoted scalar up to the closing quote. -/
def quotedWords (single : Bool) : Nat → Input → List Char → Option Reading
  | 0, _, _ => none
  | fuel + 1, i, acc =>
      if i.atMarker || i.atEnd then none
      else match quotedWord single (i.rest.length + 1) i acc with
        | none => none
        | some (acc, i, wrapped) =>
            if i.startsWith (if single then '\'' else '"') then
              some ⟨String.ofList acc.reverse, false, i.skip⟩
            else
              match Gap.read none (i.rest.length + 1) (if wrapped then .escaped [] else .none) i with
              | none => none
              | some (gap, i) => quotedWords single fuel i (gap.text.reverse ++ acc)

/-- Reads a quoted scalar; the input stands at the opening quote. -/
def readQuoted (single : Bool) (i : Input) : Option Reading :=
  quotedWords single (i.rest.length + 1) i.skip []

/-! ## Block scalars -/

/-- What becomes of the line breaks at the end of a block scalar. -/
inductive Chomping where
  | strip
  | clip
  | keep
deriving DecidableEq

def chompingOf? (c : Char) : Option Chomping :=
  if c = '+' then some .keep else if c = '-' then some .strip else none

/-- The digit that gives the indentation of a block scalar. A zero is refused. -/
def readIncrement (i : Input) : Option (Nat × Input) :=
  match i.head? with
  | some c =>
      if !c.isDigit then some (0, i)
      else if c = '0' then none
      else some (c.toNat - '0'.toNat, i.skip)
  | none => some (0, i)

/-- Chomping and indentation of a block scalar, in either order. -/
def readHeader (i : Input) : Option (Chomping × Nat × Input) :=
  match i.head? >>= chompingOf? with
  | some chomping => do
      let (increment, i) ← readIncrement i.skip
      pure (chomping, increment, i)
  | none => do
      let (increment, j) ← readIncrement i
      if increment = 0 then pure (.clip, 0, j)
      else match j.head? >>= chompingOf? with
        | some chomping => pure (chomping, increment, j.skip)
        | none => pure (.clip, increment, j)

/-- Indentation and empty lines before a line of a block scalar: the breaks, the largest column
that was met, and what follows. Without a fixed indentation all blanks are taken. -/
def blockGap (indent : Option Nat) : Nat → Input → List Char → Nat →
    Option (List Char × Nat × Input)
  | 0, _, _, _ => none
  | fuel + 1, i, breaks, widest =>
      let run := (i.rest.takeWhile (· = ' ')).length
      let i := i.skipN (match indent with
        | some n => min run (n - i.mark.column)
        | none => run)
      let widest := max widest i.mark.column
      if i.startsWith '\t' && indent.all (i.mark.column < ·) then none
      else if i.next isBreak then
        let (b, i) := i.readBreak
        blockGap indent fuel i (breaks ++ [b]) widest
      else some (breaks, widest, i)

/-- The lines of a block scalar. `last` is the break of the line before, `breaks` those of the
empty lines after it, and `blankBefore` tells whether that line started with a blank. -/
def blockLines (literal : Bool) (chomping : Chomping) (indent : Nat) :
    Nat → Input → List Char → List Char → List Char → Bool → Option Reading
  | 0, _, _, _, _, _ => none
  | fuel + 1, i, acc, last, breaks, blankBefore =>
      if i.mark.column = indent && !i.atEnd then
        let blank := i.next isBlank
        let joint :=
          if !literal && !blankBefore && !blank && last = ['\n'] then
            (if breaks.isEmpty then [' '] else [])
          else last
        let (line, after) := i.span (!isBreak ·)
        let acc := line.reverse ++ breaks.reverse ++ joint.reverse ++ acc
        let (last, i) := if after.atEnd then ([], after) else
          let (b, i) := after.readBreak
          ([b], i)
        match blockGap (some indent) (i.rest.length + 1) i [] 0 with
        | none => none
        | some (breaks, _, i) => blockLines literal chomping indent fuel i acc last breaks blank
      else
        let ending := match chomping with
          | .strip => []
          | .clip => last
          | .keep => last ++ breaks
        some ⟨String.ofList (acc.reverse ++ ending), false, i⟩

/-- Reads a block scalar inside a collection at an indentation; the input stands at the
indicator. -/
def readBlock (literal : Bool) (outer : Int) (i : Input) : Option Reading := do
  let (chomping, increment, i) ← readHeader i.skip
  let i := i.skipWhile isBlank
  let i := if i.startsWith '#' then i.skipWhile (!isBreak ·) else i
  if !i.atEnd && !i.next isBreak then none
  let i := if i.atEnd then i else i.skipBreak
  let given := if increment = 0 then none else some ((max outer 0).toNat + increment)
  let (breaks, widest, i) ← blockGap given (i.rest.length + 1) i [] 0
  let indent := given.getD (max (max widest (outer + 1).toNat) 1)
  blockLines literal chomping indent (i.rest.length + 1) i [] [] breaks false

end CycleCheck.Yaml

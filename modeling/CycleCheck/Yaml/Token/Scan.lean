import CycleCheck.Yaml.Token
import CycleCheck.Yaml.Token.Scalar

/-!
The tokens of a text. A key without a mark of its own is noticed only at the colon after it, so
tokens are put in front of tokens that were found before. A text with an error in it still has the
tokens that can be told before the error is met: reading is two tokens ahead of use, and further
ahead while a token may turn out to be a key.
-/

namespace CycleCheck.Yaml

/-- A token that is a key if a colon follows on its line. -/
structure PossibleKey where
  /-- the place of its first token -/
  token : Nat
  mark : Mark
  /-- whether nothing but a key can stand there -/
  required : Bool

/-- A key is on one line and at most 1024 characters long. -/
def PossibleKey.isStale (k : PossibleKey) (now : Mark) : Bool :=
  k.mark.line < now.line || k.mark.index + 1024 < now.index

structure Scanner where
  input : Input
  tokens : Array Token := #[]
  /-- the column of the innermost block collection -/
  indent : Int := -1
  outerIndents : List Int := []
  key : Option PossibleKey := none
  /-- the possible keys outside of each open flow collection -/
  outerKeys : List (Option PossibleKey) := []
  keyAllowed : Bool := true
  /-- whether the text is read to its end -/
  finished : Bool := false

namespace Scanner

def inFlow (s : Scanner) : Bool := !s.outerKeys.isEmpty

def mark (s : Scanner) : Mark := s.input.mark

def push (s : Scanner) (kind : TokenKind) : Scanner :=
  { s with tokens := s.tokens.push ⟨kind, s.mark.line⟩ }

/-- Puts a token in front of those from a place on. -/
def insertAt (s : Scanner) (i line : Nat) (kind : TokenKind) : Scanner :=
  { s with
    tokens := if h : i ≤ s.tokens.size then s.tokens.insertIdx i ⟨kind, line⟩ h
              else s.tokens.push ⟨kind, line⟩ }

/-- Takes characters. -/
def skipN (s : Scanner) (n : Nat) : Scanner := { s with input := s.input.skipN n }

/-! ## Indentation -/

/-- Opens a block collection at a column, unless one is open there or in a flow collection. -/
def roll (s : Scanner) (column : Nat) (place : Option Nat) (line : Nat) (kind : TokenKind) :
    Scanner :=
  if !s.inFlow && s.indent < column then
    let s := { s with indent := column, outerIndents := s.indent :: s.outerIndents }
    s.insertAt (place.getD s.tokens.size) line kind
  else s

/-- Closes the innermost block collections, given by their columns, that are right of a column. -/
def closeIndents (column : Int) : Int → List Int → Nat × Int × List Int
  | indent, [] => (0, indent, [])
  | indent, outer :: rest =>
      if indent > column then
        let (n, indent, rest) := closeIndents column outer rest
        (n + 1, indent, rest)
      else (0, indent, outer :: rest)

/-- Closes the block collections right of a column. -/
def unroll (s : Scanner) (column : Int) (line : Nat) : Scanner :=
  if s.inFlow then s
  else
    let (n, indent, outerIndents) := closeIndents column s.indent s.outerIndents
    { s with
      indent, outerIndents
      tokens := s.tokens ++ Array.replicate n ⟨.blockEnd, line⟩ }

/-! ## Keys -/

/-- Gives up the possible key, which is an error if it is required. -/
def dropKey (s : Scanner) : Option Scanner :=
  if s.key.any PossibleKey.required then none else some { s with key := none }

/-- Notes that the next token may be a key, if that is allowed here. -/
def noteKey (s : Scanner) : Option Scanner :=
  if s.keyAllowed then do
    let key : PossibleKey :=
      { token := s.tokens.size
        mark := s.mark
        required := !s.inFlow && s.indent == (s.mark.column : Int) }
    let s ← s.dropKey
    pure { s with key := some key }
  else some s

/-! ## Blank space and comments -/

/-- Takes a comment and the comments on the lines after it. -/
def skipComments : Nat → Input → Input
  | 0, i => i
  | fuel + 1, i =>
      let i := i.skipWhile (!isBreak ·)
      let gap := (i.rest.takeWhile isSpacing).length
      if gap < 512 && i.peek? gap = some '#' then
        match Gap.read none (gap + 1) .none i with
        | some (_, j) => skipComments fuel j
        | none => i
      else i

/-- Takes blank space and comments before a token. A tab is refused where a key may start. -/
def skipToToken : Nat → Scanner → Scanner
  | 0, s => s
  | fuel + 1, s =>
      let tabs := s.inFlow || !s.keyAllowed
      let i := s.input.skipWhile fun c => c = ' ' || (tabs && c = '\t')
      let i := if i.startsWith '#' then skipComments (i.rest.length + 1) i else i
      if i.next isBreak then
        skipToToken fuel
          { s with input := i.skipBreak, keyAllowed := s.keyAllowed || !s.inFlow }
      else { s with input := i }

/-- Takes a comment on the line of the token just read. -/
def skipLineComment (s : Scanner) : Scanner :=
  let gap := (s.input.rest.takeWhile isBlank).length
  if gap < 512 && s.input.peek? gap = some '#' then
    { s with input := s.input.skipWhile (!isBreak ·) }
  else s

/-! ## Directives, anchors and tags -/

/-- A number of one or two digits. -/
def readVersionNumber (i : Input) : Option (Nat × Input) :=
  let (ds, i) := i.span Char.isDigit
  if ds.isEmpty || ds.length > 2 then none else some (Text.positional 10 ds, i)

/-- The characters of a tag beside the word characters and escapes. -/
def isTagMark (c : Char) : Bool := ";/?:@&=+$,.!~*'()[]".toList.contains c

/-- Bytes written as pairs of digits after percent signs. -/
def readTagBytes : Nat → Input → ByteArray → Option (ByteArray × Input)
  | 0, _, _ => none
  | fuel + 1, i, bytes =>
      if i.startsWith '%' then
        match (i.rest.drop 1).take 2 with
        | [a, b] =>
            match Text.digitValue? a, Text.digitValue? b with
            | some x, some y => readTagBytes fuel (i.skipN 3) (bytes.push (x * 16 + y).toUInt8)
            | _, _ => none
        | _ => none
      else some (bytes, i)

/-- The characters of a tag; escapes must stand for whole characters. -/
def readTagText : Nat → Input → List Char → Option (List Char × Input)
  | 0, _, _ => none
  | fuel + 1, i, acc =>
      match i.head? with
      | some c =>
          if c = '%' then do
            let (bytes, j) ← readTagBytes (i.rest.length + 1) i .empty
            let text ← String.fromUTF8? bytes
            readTagText fuel j (text.toList.reverse ++ acc)
          else if isWord c || isTagMark c then readTagText fuel i.skip (c :: acc)
          else some (acc.reverse, i)
      | none => some (acc.reverse, i)

def readTagPart (i : Input) : Option (String × Input) :=
  (readTagText (i.rest.length + 1) i []).map fun (cs, j) => (String.ofList cs, j)

/-- An exclamation mark, a word, and possibly another exclamation mark. -/
def readHandle (i : Input) : Option (String × Input) :=
  if !i.startsWith '!' then none
  else
    let (word, i) := i.skip.span isWord
    if i.startsWith '!' then some (String.ofList ('!' :: word ++ ['!']), i.skip)
    else some (String.ofList ('!' :: word), i)

/-- Reads a tag: between angle brackets, with a handle, or with the primary handle. The tag that
is only an exclamation mark has no handle. -/
def readTag (i : Input) : Option (String × String × Input) := do
  let (handle, ending, i) ←
    if i.peek? 1 = some '<' then do
      let (ending, j) ← readTagPart (i.skipN 2)
      if ending.isEmpty || !j.startsWith '>' then none
      pure ("", ending, j.skip)
    else do
      let (handle, j) ← readHandle i
      if handle.length > 1 && handle.endsWith "!" then do
        let (ending, j) ← readTagPart j
        if ending.isEmpty then none
        pure (handle, ending, j)
      else do
        let (more, j) ← readTagPart j
        let ending := String.ofList (handle.toList.drop 1) ++ more
        pure (if ending.isEmpty then ("", "!", j) else ("!", ending, j))
  if i.spacingAt 0 then pure (handle, ending, i) else none

/-- Reads the name of an anchor, after its indicator. -/
def readAnchor (i : Input) : Option (String × Input) :=
  let (name, i) := i.span isWord
  let ends := i.spacingAt 0 || i.next fun c => "?:,]\x7d%@".toList.contains c || c.toNat = 0x60
  if name.isEmpty || !ends then none else some (String.ofList name, i)

/-- Reads a directive up to the end of its line. -/
def readDirective (i : Input) : Option (TokenKind × Input) := do
  let (name, i) := i.skip.span isWord
  if name.isEmpty || !i.spacingAt 0 then none
  let (kind, i) ←
    if name = "YAML".toList then do
      let (major, i) ← readVersionNumber (i.skipWhile isBlank)
      if !i.startsWith '.' then none
      let (minor, i) ← readVersionNumber i.skip
      pure (TokenKind.version major minor, i)
    else if name = "TAG".toList then do
      let (handle, i) ← readHandle (i.skipWhile isBlank)
      if handle ≠ "!" && !(handle.length > 1 && handle.endsWith "!") then none
      if !i.next isBlank then none
      let (lead, i) ← readTagPart (i.skipWhile isBlank)
      if lead.isEmpty || !i.spacingAt 0 then none
      pure (TokenKind.tagHandle handle lead, i)
    else none
  let i := i.skipWhile isBlank
  let i := if i.startsWith '#' then i.skipWhile (!isBreak ·) else i
  if i.atEnd then pure (kind, i)
  else if i.next isBreak then pure (kind, i.skipBreak)
  else none

/-! ## Tokens -/

/-- The end of the text closes everything. -/
def finish (s : Scanner) : Option Scanner := do
  let line := if s.mark.column = 0 then s.mark.line else s.mark.line + 1
  let s ← (s.unroll (-1) line).dropKey
  pure { s with finished := true, tokens := s.tokens.push ⟨.streamEnd, line⟩ }

/-- A token that stands outside of all collections. -/
def toplevel (s : Scanner) : Option Scanner := do
  let s ← (s.unroll (-1) s.mark.line).dropKey
  pure { s with keyAllowed := false }

def openFlow (s : Scanner) (kind : TokenKind) : Option Scanner := do
  let s ← s.noteKey
  let s := s.push kind
  pure { s with key := none, outerKeys := s.key :: s.outerKeys, keyAllowed := true }

def closeFlow (s : Scanner) (kind : TokenKind) : Option Scanner := do
  let s ← s.dropKey
  let s := s.push kind
  pure (match s.outerKeys with
    | key :: outerKeys => { s with key, outerKeys, keyAllowed := false }
    | [] => { s with keyAllowed := false })

/-- An indicator of an item or of a key: it may open a block collection. -/
def openBlock (s : Scanner) (collection kind : TokenKind) (allowKey : Bool) : Option Scanner := do
  if !s.inFlow && !s.keyAllowed then none
  let s := s.roll s.mark.column none s.mark.line collection
  let s ← s.dropKey
  pure { s.push kind with keyAllowed := allowKey }

/-- A colon after a key that has a mark of its own, or after none. -/
def openValue (s : Scanner) : Option Scanner :=
  if !s.inFlow && !s.keyAllowed then none
  else
    let s := s.roll s.mark.column none s.mark.line .blockMappingStart
    some { s.push .value with keyAllowed := !s.inFlow }

/-- A colon: what may have been a key is one. -/
def colon (s : Scanner) : Option Scanner :=
  match s.key with
  | some k =>
      if k.isStale s.mark then
        if k.required then none else { s with key := none }.openValue
      else
        let s := s.insertAt k.token k.mark.line .key
        let s := s.roll k.mark.column (some k.token) k.mark.line .blockMappingStart
        some { s.push .value with key := none, keyAllowed := false }
  | none => s.openValue

/-- A token that may be a key. Its kind and the input after it are given. -/
def keyToken (s : Scanner) (read : Option (TokenKind × Input)) : Option Scanner := do
  let s ← s.noteKey
  let (kind, input) ← read
  pure { s.push kind with input, keyAllowed := false }

def plainScalar (s : Scanner) : Option Scanner := do
  let s ← s.noteKey
  let r ← readPlain s.inFlow s.indent s.input
  pure { s.push (.scalar r.text true) with input := r.input, keyAllowed := r.brokenOff }

def blockScalar (s : Scanner) (literal : Bool) : Option Scanner := do
  let s ← s.dropKey
  let r ← readBlock literal s.indent s.input
  pure { s.push (.scalar r.text false) with input := r.input, keyAllowed := true }

/-- Whether a plain scalar may start with a character. -/
def startsPlain (s : Scanner) (c : Char) : Bool :=
  if c = '-' then !(s.input.peek? 1).any isBlank
  else if c = '?' || c = ':' then !s.inFlow && !s.input.spacingAt 1
  else !isSpacing c && !("-?:,[]\x7b\x7d#&*!|>'\"%@".toList.contains c) && c.toNat ≠ 0x60

/-- The token that starts with a character. -/
def token (s : Scanner) (c : Char) : Option Scanner :=
  let i := s.input
  let one (s : Option Scanner) : Option Scanner := s.map (·.skipN 1)
  if c = '[' then one (s.openFlow .flowSequenceStart)
  else if c = '{' then one (s.openFlow .flowMappingStart)
  else if c = ']' then one (s.closeFlow .flowSequenceEnd)
  else if c = '}' then one (s.closeFlow .flowMappingEnd)
  else if c = ',' then
    one (s.dropKey.map fun s => { s.push .comma with keyAllowed := true })
  else if c = '-' && i.spacingAt 1 then one (s.openBlock .blockSequenceStart .item true)
  else if c = '?' && (s.inFlow || i.spacingAt 1) then
    one (s.openBlock .blockMappingStart .key (!s.inFlow))
  else if c = ':' && (s.inFlow || i.spacingAt 1) then one s.colon
  else if c = '*' then s.keyToken ((readAnchor i.skip).map fun (n, j) => (.reference n, j))
  else if c = '&' then s.keyToken ((readAnchor i.skip).map fun (n, j) => (.anchor n, j))
  else if c = '!' then s.keyToken ((readTag i).map fun (h, e, j) => (.tag h e, j))
  else if c = '|' && !s.inFlow then s.blockScalar true
  else if c = '>' && !s.inFlow then s.blockScalar false
  else if c = '\'' then
    s.keyToken ((readQuoted true i).map fun r => (.scalar r.text false, r.input))
  else if c = '"' then
    s.keyToken ((readQuoted false i).map fun r => (.scalar r.text false, r.input))
  else if s.startsPlain c then s.plainScalar
  else none

/-- Reads on by one token, with the tokens that indentation puts before it. -/
def step (s : Scanner) : Option Scanner := do
  let line := s.mark.line
  let s := skipToToken (s.input.rest.length + 1) s
  let s := s.unroll s.mark.column line
  match s.input.head? with
  | none => s.finish
  | some c =>
      if s.mark.column = 0 && c = '%' then do
        let s ← s.toplevel
        let (kind, input) ← readDirective s.input
        pure { s.push kind with input }
      else if s.input.atMarker then do
        let s ← s.toplevel
        pure ((s.push (if c = '-' then .documentStart else .documentEnd)).skipN 3)
      else do
        let s ← s.token c
        pure (if s.tokens.back?.any (·.kind = .item) then s else s.skipLineComment)

/-- How many tokens can be used although the token after them cannot be read. -/
def usable (s : Scanner) : Nat :=
  (s.key :: s.outerKeys).foldl (fun n key =>
    match key with
    | some k => if k.required || !k.isStale s.mark then min n k.token else n
    | none => n) (s.tokens.size - 2)

/-- Reads tokens until the text ends or an error is met. -/
def run : Nat → Scanner → List Token
  | 0, s => s.tokens.toList
  | fuel + 1, s =>
      if s.finished then s.tokens.toList
      else match s.step with
        | some s => run fuel s
        | none => s.tokens.toList.take s.usable

end Scanner

/-- The tokens of a text. They end with the end of the text unless there is an error. -/
def tokensOf (text : String) : List Token :=
  let cs := match text.toList with
    | c :: rest => if c.toNat = 0xfeff then rest else c :: rest
    | [] => []
  if cs.all isAllowed then Scanner.run (cs.length + 2) { input := { rest := cs } } else []

end CycleCheck.Yaml

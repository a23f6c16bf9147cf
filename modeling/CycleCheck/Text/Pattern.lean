import CycleCheck.Text.Quoted

/-!
Patterns: texts with directives that stand for values. A directive is a percent sign, flags, an
optional argument number, width and precision, and a verb. What cannot be formatted is described
in place, so that formatting always gives a text.
-/

namespace CycleCheck.Text.Pattern

/-- What a directive can be given. A `record` has a text of its own and is made of fields. -/
inductive Arg where
  | text (s : String)
  | int (i : Int)
  | flag (b : Bool)
  | absent
  | list (items : List Arg)
  | record (kind : String) (byReference : Bool) (own : String) (fields : List Arg)

/-- The name of the kind of a value. -/
def Arg.kind : Arg → String
  | .text _ => "string"
  | .int _ => "int"
  | .flag _ => "bool"
  | .absent => "<nil>"
  | .list _ => "[]interface \x7b\x7d"
  | .record k byReference _ _ => if byReference then "*" ++ k else k

/-- Flags, width and precision of a directive. -/
structure Layout where
  sharp : Bool := false
  zero : Bool := false
  plus : Bool := false
  minus : Bool := false
  space : Bool := false
  plusV : Bool := false
  sharpV : Bool := false
  width : Option Nat := none
  precision : Option Nat := none

/-! ## Values under a layout -/

def Layout.fill (l : Layout) (n : Nat) : List Char :=
  List.replicate n (if l.zero && !l.minus then '0' else ' ')

/-- Pads to the width, on the left unless the minus flag is set. -/
def Layout.pad (l : Layout) (s : List Char) : List Char :=
  match l.width with
  | none => s
  | some w => if l.minus then s ++ l.fill (w - s.length) else l.fill (w - s.length) ++ s

/-- The part of a text that the precision admits. -/
def Layout.truncate (l : Layout) (s : List Char) : List Char :=
  match l.precision with
  | none => s
  | some p => s.take p

def upperHex (c : Char) : Char := if 'a' ≤ c ∧ c ≤ 'f' then c.toUpper else c

/-- An integer in a base. A precision, or a zero flag with a width, asks for leading zeros. -/
def Layout.integer (l : Layout) (base : Nat) (verb : Char) (i : Int) : List Char :=
  let negative := i < 0
  let n := i.natAbs
  if l.precision = some 0 && n = 0 then
    { l with zero := false }.fill (l.width.getD 0)
  else
    let least :=
      match l.precision, l.width with
      | some p, _ => p
      | none, some w =>
          if l.zero && !l.minus then w - (if negative || l.plus || l.space then 1 else 0) else 0
      | none, none => 0
    let body := padLeft '0' least (digits base n)
    let body := if verb = 'X' then body.map upperHex else body
    let body :=
      if !l.sharp then body
      else if base = 2 then '0' :: 'b' :: body
      else if base = 8 then (if body.head? = some '0' then body else '0' :: body)
      else if base = 16 then '0' :: (if verb = 'X' then 'X' else 'x') :: body
      else body
    let body := if verb = 'O' then '0' :: 'o' :: body else body
    let body :=
      if negative then '-' :: body
      else if l.plus then '+' :: body
      else if l.space then ' ' :: body
      else body
    { l with zero := false }.pad body

/-- The character with a number, or the replacement character. -/
def character (i : Int) : Char :=
  if i < 0 then Char.ofNat 0xFFFD
  else if Nat.isValidChar i.toNat then Char.ofNat i.toNat
  else Char.ofNat 0xFFFD

/-- A code point as `U+` and at least four digits. -/
def Layout.codePoint (l : Layout) (i : Int) : List Char :=
  let n : Nat := if i < 0 then 18446744073709551616 - i.natAbs else i.natAbs
  let body := padLeft '0' (max 4 (l.precision.getD 4)) ((digits 16 n).map upperHex)
  let shown := character i
  let tail := if l.sharp && n ≤ 0x10FFFF && isPrintable shown then [' ', '\'', shown, '\''] else []
  { l with zero := false }.pad ('U' :: '+' :: body ++ tail)

/-- The bytes of a text in hexadecimal. -/
def Layout.hexBytes (l : Layout) (upper : Bool) (s : String) : List Char :=
  let bytes := s.toUTF8.toList
  let bytes := match l.precision with
    | none => bytes
    | some p => bytes.take p
  let mark := ['0', if upper then 'X' else 'x']
  let pair (b : UInt8) : List Char :=
    let d := padLeft '0' 2 (digits 16 b.toNat)
    if upper then d.map upperHex else d
  if bytes.isEmpty then l.fill (l.width.getD 0)
  else
    let body :=
      if l.space then
        List.intercalate [' '] (bytes.map fun b => (if l.sharp then mark else []) ++ pair b)
      else (if l.sharp then mark else []) ++ bytes.flatMap pair
    l.pad body

/-- A text that can stand between backquotes. -/
def plainlyQuotable (s : List Char) : Bool :=
  s.all fun c =>
    c = '\t' || (0x20 ≤ c.toNat && c.toNat ≠ 0x7f && c.toNat ≠ 0x60 && c.toNat ≠ 0xFEFF)

def Layout.quotedText (l : Layout) (s : String) : List Char :=
  let cs := l.truncate s.toList
  if l.sharp && plainlyQuotable cs then l.pad (Char.ofNat 0x60 :: cs ++ [Char.ofNat 0x60])
  else l.pad (quotedBy '"' l.plus (String.ofList cs)).toList

def Layout.quotedChar (l : Layout) (i : Int) : List Char :=
  l.pad (quotedBy '\'' l.plus (String.singleton (character i))).toList

/-- A text under a verb, if texts have that verb. -/
def Layout.text? (l : Layout) (verb : Char) (s : String) : Option (List Char) :=
  if verb = 'v' then some (if l.sharpV then l.quotedText s else l.pad (l.truncate s.toList))
  else if verb = 's' then some (l.pad (l.truncate s.toList))
  else if verb = 'x' then some (l.hexBytes false s)
  else if verb = 'X' then some (l.hexBytes true s)
  else if verb = 'q' then some (l.quotedText s)
  else none

/-- An integer under a verb, if integers have that verb. -/
def Layout.integer? (l : Layout) (verb : Char) (i : Int) : Option (List Char) :=
  if verb = 'v' || verb = 'd' then some (l.integer 10 verb i)
  else if verb = 'b' then some (l.integer 2 verb i)
  else if verb = 'o' || verb = 'O' then some (l.integer 8 verb i)
  else if verb = 'x' || verb = 'X' then some (l.integer 16 verb i)
  else if verb = 'c' then some (l.pad [character i])
  else if verb = 'q' then some (l.quotedChar i)
  else if verb = 'U' then some (l.codePoint i)
  else none

/-- A truth value under a verb, if truth values have that verb. -/
def Layout.flag? (l : Layout) (verb : Char) (b : Bool) : Option (List Char) :=
  if verb = 't' || verb = 'v' then some (l.pad (if b then "true" else "false").toList) else none

def unsuitable (verb : Char) (kind : String) (shown : List Char) : List Char :=
  '%' :: '!' :: verb :: '(' :: kind.toList ++ '=' :: shown ++ [')']

mutual

/-- A value by its parts, without the text it may have of its own. -/
def Layout.parts (l : Layout) (verb : Char) (top : Bool) : Arg → List Char
  | .text s => (l.text? verb s).getD
      (unsuitable verb "string" ((l.text? 'v' s).getD []))
  | .int i => (l.integer? verb i).getD
      (unsuitable verb "int" ((l.integer? 'v' i).getD []))
  | .flag b => (l.flag? verb b).getD
      (unsuitable verb "bool" ((l.flag? 'v' b).getD []))
  | .absent => "<nil>".toList
  | .list items => '[' :: l.partsOf verb items ++ [']']
  | .record _ byReference _ fields =>
      if byReference && top then '&' :: '{' :: l.partsOf verb fields ++ ['}']
      else '{' :: l.partsOf verb fields ++ ['}']

/-- Parts separated by blanks. -/
def Layout.partsOf (l : Layout) (verb : Char) : List Arg → List Char
  | [] => []
  | [a] => l.parts verb false a
  | a :: rest => l.parts verb false a ++ ' ' :: l.partsOf verb rest

end

/-- A value under a verb. -/
def Layout.value (l : Layout) (verb : Char) (a : Arg) : List Char :=
  match a with
  | .absent =>
      if verb = 'T' || verb = 'v' then l.pad "<nil>".toList
      else '%' :: '!' :: verb :: "(<nil>)".toList
  | _ =>
      if verb = 'T' then l.pad (l.truncate a.kind.toList)
      else match a with
        | .record _ _ own _ =>
            if verb = 'w' then unsuitable verb a.kind (l.parts 'v' true a)
            else (if l.sharpV then none else l.text? verb own).getD (l.parts verb true a)
        | _ =>
            if verb = 'p' then unsuitable verb a.kind (l.parts 'v' true a)
            else l.parts verb true a

/-! ## Directives -/

/-- An argument number as written: absent, a number in brackets, or brackets that hold none. -/
inductive Selector where
  | none
  | position (n : Nat)
  | malformed

/-- A width or precision as written. -/
inductive Measure where
  | none
  | number (n : Nat)
  | argument

structure Directive where
  layout : Layout
  first : Selector
  width : Measure
  hasPrecision : Bool
  second : Selector
  precision : Measure
  third : Selector
  verb : Option Char

inductive Piece where
  | literal (c : Char)
  | directive (d : Directive)

/-- Reads flags. -/
def readFlags : Layout → List Char → Layout × List Char
  | l, '#' :: r => readFlags { l with sharp := true } r
  | l, '0' :: r => readFlags { l with zero := true } r
  | l, '+' :: r => readFlags { l with plus := true } r
  | l, '-' :: r => readFlags { l with minus := true } r
  | l, ' ' :: r => readFlags { l with space := true } r
  | l, cs => (l, cs)

/-- Reads a number of at most seven digits; a longer one swallows all that follows. -/
def readNumber (cs : List Char) : Option Nat × List Char :=
  let run := cs.takeWhile Char.isDigit
  if run.isEmpty then (none, cs)
  else if positional 10 run.dropLast > 1000000 then (none, [])
  else (some (positional 10 run), cs.dropWhile Char.isDigit)

def readSelector : List Char → Selector × List Char
  | '[' :: r =>
      let inside := r.takeWhile (· ≠ ']')
      match r.dropWhile (· ≠ ']') with
      | [] => (.malformed, r)
      | _ :: rest =>
          if r.length < 2 then (.malformed, r)
          else match readNumber inside with
            | (some n, []) => (.position n, rest)
            | _ => (.malformed, rest)
  | cs => (.none, cs)

def readMeasure : List Char → Measure × List Char
  | '*' :: r => (.argument, r)
  | cs =>
      match readNumber cs with
      | (some n, r) => (.number n, r)
      | (none, r) => (.none, r)

/-- Reads what follows a percent sign. -/
def readDirective (cs : List Char) : Directive × List Char :=
  let (layout, cs) := readFlags {} cs
  let (first, cs) := readSelector cs
  let (width, cs) := readMeasure cs
  let (hasPrecision, second, precision, cs) :=
    match cs with
    | '.' :: r =>
        let (second, r) := readSelector r
        let (precision, r) := readMeasure r
        (true, second, precision, r)
    | _ => (false, Selector.none, Measure.none, cs)
  -- a number may stand right before the verb only if none was read just before
  let pending :=
    match hasPrecision, second, precision, first, width with
    | true, .position _, .argument, _, _ => true
    | true, .position _, _, _, _ => false
    | true, _, _, _, _ => true
    | false, _, _, .position _, .argument => true
    | false, _, _, .position _, _ => false
    | false, _, _, _, _ => true
  let (third, cs) := if pending then readSelector cs else (Selector.none, cs)
  match cs with
  | [] => (⟨layout, first, width, hasPrecision, second, precision, third, none⟩, [])
  | v :: r => (⟨layout, first, width, hasPrecision, second, precision, third, some v⟩, r)

/-- The pieces of a pattern. Each step takes at least one character, so the length of the text is
fuel enough. -/
def readPieces : Nat → List Char → List Piece
  | 0, _ => []
  | _, [] => []
  | n + 1, '%' :: r =>
      let (d, rest) := readDirective r
      .directive d :: readPieces n rest
  | n + 1, c :: r => .literal c :: readPieces n r

def pieces (s : String) : List Piece := readPieces s.length s.toList

/-! ## Formatting -/

/-- Where formatting stands among its arguments. -/
structure Cursor where
  next : Nat := 0
  reordered : Bool := false
  /-- whether the argument numbers of the current directive make sense -/
  good : Bool := true
  /-- whether an argument number was read just before -/
  afterNumber : Bool := false

def Cursor.select (c : Cursor) (count : Nat) : Selector → Cursor
  | .none => { c with afterNumber := false }
  | .position n =>
      if 0 < n && n ≤ count then ⟨n - 1, true, c.good, true⟩ else ⟨c.next, true, false, true⟩
  | .malformed => ⟨c.next, true, false, false⟩

/-- The integer argument at the cursor, if there is one of reasonable size. -/
def Cursor.integer (c : Cursor) (args : Array Arg) : Option Int × Cursor :=
  match args[c.next]? with
  | none => (none, c)
  | some (.int i) =>
      (if -1000000 ≤ i ∧ i ≤ 1000000 then some i else none, { c with next := c.next + 1 })
  | some _ => (none, { c with next := c.next + 1 })

/-- Formats one directive. -/
def Directive.format (d : Directive) (args : Array Arg) (c : Cursor) : List Char × Cursor :=
  let count := args.size
  let c := { c with good := true }
  let c := c.select count d.first
  let (before, layout, c) :=
    match d.width with
    | .argument =>
        match c.integer args with
        | (some i, c) =>
            let layout := { d.layout with width := some i.natAbs }
            let layout := if i < 0 then { layout with minus := true, zero := false } else layout
            ([], layout, { c with afterNumber := false })
        | (none, c) => ("%!(BADWIDTH)".toList, d.layout, { c with afterNumber := false })
    | .number n =>
        ([], { d.layout with width := some n },
          if c.afterNumber then { c with good := false } else c)
    | .none => ([], d.layout, c)
  let (before, layout, c) :=
    if !d.hasPrecision then (before, layout, c)
    else
      let c := if c.afterNumber then { c with good := false } else c
      let c := c.select count d.second
      match d.precision with
      | .argument =>
          match c.integer args with
          | (some (.ofNat p), c) =>
              (before, { layout with precision := some p }, { c with afterNumber := false })
          | (_, c) => (before ++ "%!(BADPREC)".toList, layout, { c with afterNumber := false })
      | .number n => (before, { layout with precision := some n }, c)
      | .none => (before, { layout with precision := some 0 }, c)
  let c := if c.afterNumber then c else c.select count d.third
  match d.verb with
  | none => (before ++ "%!(NOVERB)".toList, c)
  | some verb =>
      if verb = '%' then (before ++ ['%'], c)
      else if !c.good then (before ++ '%' :: '!' :: verb :: "(BADINDEX)".toList, c)
      else match args[c.next]? with
        | none => (before ++ '%' :: '!' :: verb :: "(MISSING)".toList, c)
        | some a =>
            let layout :=
              if verb = 'v' || verb = 'w' then
                { layout with sharpV := layout.sharp, sharp := false,
                              plusV := layout.plus, plus := false }
              else layout
            (before ++ layout.value verb a, { c with next := c.next + 1 })

def surplus (args : List Arg) : List Char :=
  let one (a : Arg) : List Char :=
    match a with
    | .absent => "<nil>".toList
    | a => a.kind.toList ++ '=' :: ({} : Layout).value 'v' a
  "%!(EXTRA ".toList ++ List.intercalate [',', ' '] (args.map one) ++ [')']

/-- The text of a pattern for given arguments. -/
def format (pattern : String) (args : List Arg) : String :=
  let arr := args.toArray
  let step (acc : List (List Char) × Cursor) (p : Piece) : List (List Char) × Cursor :=
    match p with
    | .literal ch => ([ch] :: acc.1, acc.2)
    | .directive d =>
        let (out, c) := d.format arr acc.2
        (out :: acc.1, c)
  let (out, c) := (pieces pattern).foldl step ([], {})
  let tail := if !c.reordered && c.next < args.length then surplus (args.drop c.next) else []
  String.ofList (out.reverse.flatten ++ tail)

end CycleCheck.Text.Pattern

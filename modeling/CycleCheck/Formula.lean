import CycleCheck.Term.Build
import CycleCheck.Digest.XXHash64

/-!
Formulas are lists of commands. A formula is written one command a line, and its digest is the
hash of what is written, comments left out.
-/

namespace CycleCheck

inductive Command where
  | declareBits (symbol : Symbol) (width : Numeral)
  | declareArray (symbol : Symbol) (address data : Numeral)
  | assert (t : Term)
  | logic (name : Symbol)
  | checkSat
  | exit
  | comment (text : String)
deriving Inhabited

abbrev Formula := List Command

namespace Command

/-- Declares a bit-vector of a positive width. -/
def bits? (symbol : Symbol) (width : Int) : Except TermError Command :=
  if width ≤ 0 then .error (.invalidWidth width)
  else if symbol.name.isEmpty then .error .emptySymbol
  else .ok (.declareBits symbol ⟨width.toNat.toUInt64⟩)

/-- Declares an array with positive widths of addresses and data. -/
def array? (symbol : Symbol) (address data : Int) : Except TermError Command :=
  if address ≤ 0 then .error (.invalidWidth address)
  else if data ≤ 0 then .error (.invalidWidth data)
  else if symbol.name.isEmpty then .error .emptySymbol
  else .ok (.declareArray symbol ⟨address.toNat.toUInt64⟩ ⟨data.toNat.toUInt64⟩)

/-- Asserts a term, which may be missing. -/
def assert? : Option Term → Except TermError Command
  | none => .error (.missingTerm 0 "assert")
  | some t => .ok (.assert t)

/-- Chooses the logic. -/
def logic? (name : String) : Except TermError Command := do
  let s ← Symbol.parse name
  pure (.logic s)

/-- A comment. It must stay on its line, so a line feed becomes a blank. -/
def note (text : String) : Command :=
  .comment (String.ofList (text.toList.map fun c => if c = '\n' then ' ' else c))

/-- Appends the text of a command. -/
def appendText (acc : String) : Command → String
  | .declareBits s width =>
      acc ++ "(declare-fun " ++ s.name ++ " () (_ BitVec " ++ width.text ++ "))"
  | .declareArray s address data =>
      acc ++ "(declare-fun " ++ s.name ++ " () (Array (_ BitVec " ++ address.text ++
        ") (_ BitVec " ++ data.text ++ ")))"
  | .assert t => Term.appendText (acc ++ "(assert ") t ++ ")"
  | .logic s => acc ++ "(set-logic " ++ s.name ++ ")"
  | .checkSat => acc ++ "(check-sat)"
  | .exit => acc ++ "(exit)"
  | .comment t => acc ++ "; " ++ t

def text (c : Command) : String := appendText "" c

def isComment : Command → Bool
  | .comment _ => true
  | _ => false

def isDeclaration : Command → Bool
  | .declareBits _ _ | .declareArray _ _ _ => true
  | _ => false

def isAssertion : Command → Bool
  | .assert _ => true
  | _ => false

end Command

namespace Formula

def lines (f : Formula) : List String := f.map Command.text

/-- The formula as a text, a line feed after every command. -/
def write (f : Formula) : String := f.foldl (fun acc c => Command.appendText acc c ++ "\n") ""

def withoutComments (f : Formula) : Formula := f.filter (!·.isComment)

/-- Identifies a formula up to its comments. -/
def digest (f : Formula) : UInt64 := Digest.XXHash64.sum (write (withoutComments f)).toUTF8

/-- A digest in hexadecimal. -/
def digestHex (digest : UInt64) : String := Text.hexPadded 16 digest.toNat

def digestText (f : Formula) : String := digestHex f.digest

def declarations (f : Formula) : Nat := f.countP Command.isDeclaration

def assertions (f : Formula) : Nat := f.countP Command.isAssertion

end Formula

end CycleCheck

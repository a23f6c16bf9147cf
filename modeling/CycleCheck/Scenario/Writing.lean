import CycleCheck.Scenario.Basic
import CycleCheck.Yaml.Style

/-!
Scenarios as documents. Fields stand in a fixed order; what has the value it has when nothing is
given is left out, where that is allowed.
-/

namespace CycleCheck.Scenario

open Yaml

/-- How far collections are indented. -/
def indentStep : Nat := 2

/-- A value in a document: text on the line of its key, or lines below it. -/
inductive Written where
  | inline (text : String)
  | below (lines : List String)

/-- A field of a mapping at an indentation. -/
def fieldLines (key : String) : Written → List String
  | .inline text => [key ++ ": " ++ text]
  | .below lines => (key ++ ":") :: lines.map (String.ofList (indentation indentStep) ++ ·)

def number (n : Nat) : Written := .inline (Text.decimal n)

/-- Fields of a mapping; a mapping without fields is written between braces. -/
def mappingOf (fields : List (String × Written)) : Written :=
  if fields.isEmpty then .inline "\x7b\x7d" else .below (fields.flatMap fun f => fieldLines f.1 f.2)

def byteMapFields (m : ByteMap) : List (String × Written) :=
  m.entries.map fun e => (Text.decimal e.1.toNat, number e.2.toNat)

def optional {α : Type} (key : String) (write : α → Written) : Option α → List (String × Written)
  | some a => [(key, write a)]
  | none => []

/-- A map of bytes, unless it is empty. -/
def optionalBytes (key : String) (m : Option ByteMap) : List (String × Written) :=
  if (ByteMap.entriesOf m).isEmpty then [] else optional key (mappingOf ∘ byteMapFields) m

/-- A text in a mapping that is nested to a depth. -/
def writtenText (depth : Nat) (s : String) : Written :=
  .inline (writeText (indentStep * (depth + 1)) indentStep s)

/-- The name of the second index register would be read as a truth value by some. -/
def yKey : String := "\"y\""

def registerFields (r : Registers) : List (String × Written) :=
  [("a", number r.a.toNat), ("x", number r.x.toNat), (yKey, number r.y.toNat),
    ("sp", number r.sp.toNat), ("p", number r.p.toNat), ("pc", number r.pc.toNat)]

def expectationFields (e : Expectation) : List (String × Written) :=
  let byte (key : String) (v : Option UInt8) := optional key (fun v => number v.toNat) v
  byte "a" e.a ++ byte "x" e.x ++ byte yKey e.y ++ byte "sp" e.sp ++
    optional "pc" (fun v : UInt16 => number v.toNat) e.pc ++
    (if e.p.isEmpty then [] else [("p", writtenText 2 e.p)]) ++ optionalBytes "ram" e.ram

def Registers.isZero (r : Registers) : Bool :=
  r.a = 0 && r.x = 0 && r.y = 0 && r.sp = 0 && r.p = 0 && r.pc = 0

def fields (s : Scenario) : List (String × Written) :=
  [("name", writtenText 1 s.name)] ++
    (if s.description.isEmpty then [] else [("description", writtenText 1 s.description)]) ++
    [("origin", number s.origin.toNat),
      ("program", if s.program.isEmpty then .inline "[]"
        else .below (s.program.map fun v => "- " ++ Text.decimal v.toNat))] ++
    optional "vector" (fun v : UInt16 => number v.toNat) s.vector ++
    optionalBytes "ram" s.ram ++ optionalBytes "prg" s.prg ++
    (if Registers.isZero s.registers then []
     else [("registers", mappingOf (registerFields s.registers))]) ++
    [("cycles", .inline (Text.integer s.cycles)),
      ("expect", mappingOf (expectationFields s.expect))]

/-- One item of the document: the first line has the dash. -/
def itemLines (s : Scenario) : List String :=
  match s.fields.flatMap fun f => fieldLines f.1 f.2 with
  | first :: rest => ("- " ++ first) :: rest.map ("  " ++ ·)
  | [] => []

/-- A line with its break; a text over several lines may have brought its own. -/
def ended (line : String) : String :=
  if line.toList.getLast?.any isBreak then line else line ++ "\n"

/-- Whether the last text of the document keeps all its line breaks, so that the end of the document
must be marked. -/
def endsOpen (s : Scenario) : Bool :=
  (ByteMap.entriesOf s.expect.ram).isEmpty && keepsBreaks s.expect.p.toList

/-- The document of scenarios. -/
def write (ss : List Scenario) : String :=
  if ss.isEmpty then "[]\n"
  else String.join ((ss.flatMap itemLines).map ended) ++
    (if ss.getLast?.any endsOpen then "...\n" else "")

end CycleCheck.Scenario

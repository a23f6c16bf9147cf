import CycleCheck.Files
import CycleCheck.Scenario.Compile
import CycleCheck.Text.Base64
import CycleCheck.Text.Bytes
import CycleCheck.Yaml.Graph.Read

/-!
Scenarios from documents. A document is a sequence of mappings. All values that do not fit are
reported together; the scenarios are checked only when all of them fit.
-/

namespace CycleCheck

open Yaml

/-- A value in a document that does not fit. -/
inductive Misfit where
  /-- a value of the wrong kind; collections are not shown -/
  | kind (line : Nat) (tag : String) (shown : Option String) (target : String)
  | unknownField (line : Nat) (name target : String)
  | fieldTwice (line : Nat) (name target : String)
  | keyTwice (line : Nat) (key : String) (first : Nat)

/-- The start of a text in at most seven bytes, if it is longer than ten. -/
def Misfit.shorten (s : String) : String :=
  if s.utf8ByteSize > 10 then Text.decodeBytes (s.toUTF8.toList.take 7) ++ "..." else s

def Misfit.message : Misfit → String
  | .kind line tag shown target =>
      let quote := String.singleton (Char.ofNat 0x60)
      let value := shown.elim "" fun s => " " ++ quote ++ shorten s ++ quote
      "line " ++ Text.decimal line ++ ": cannot unmarshal " ++ tag ++ value ++ " into " ++ target
  | .unknownField line name target =>
      "line " ++ Text.decimal line ++ ": field " ++ name ++ " not found in type " ++ target
  | .fieldTwice line name target =>
      "line " ++ Text.decimal line ++ ": field " ++ name ++ " already set in type " ++ target
  | .keyTwice line key first =>
      "line " ++ Text.decimal line ++ ": mapping key " ++ Text.quoted key ++
        " already defined at line " ++ Text.decimal first

/-- Why no scenarios can be loaded. -/
inductive LoadError where
  | unreadable (e : FileError)
  | malformed
  | misfits (ms : List Misfit)
  | noScenarios
  | invalid (e : ScenarioError)

def LoadError.fault : LoadError → Fault
  | .unreadable (.isDirectory path) => .patterned "verification: %v"
      [.fault (.plain ("yaml: input error: " ++ (FileError.isDirectory path).message))]
  | .unreadable e => .patterned "verification: %v" [.fault e.fault]
  | .malformed => .patterned "verification: %v" [.fault (.plain "yaml")]
  | .misfits ms => .patterned "verification: %v" [.fault (.plain
      ("yaml: unmarshal errors:\n  " ++ "\n  ".intercalate (ms.map Misfit.message)))]
  | .noScenarios => .patterned "verification: %v" [.text "no scenarios"]
  | .invalid e => e.fault

/-- Taking values out of a document. Misfits are collected; a document that is not sound gives no
result. -/
abbrev Extract := StateT (List Misfit) Option

namespace Extract

def report (m : Misfit) : Extract Unit := modify (· ++ [m])

def misfit (n : Node) (target : String) : Extract Unit :=
  let shown := if n.tag = Tag.sequence || n.tag = Tag.mapping then none else some n.spelling
  report (.kind n.line (Tag.short n.tag) shown target)

/-- The value of a scalar node. -/
def scalarValue (n : Node) (text : String) : Extract Value :=
  if n.tag = Tag.text then pure (.text text)
  else match resolve? n.tag text with
    | none => failure
    | some (tag, v) =>
        if tag = Tag.binary then
          match Text.base64? text with
          | some bytes => pure (.text (Text.decodeBytes bytes))
          | none => failure
        else pure v

/-- A misfit for every two keys with the same spelling. -/
def keysTwice : List Node → List Misfit
  | [] => []
  | a :: rest =>
      (rest.filter a.sameSpelling).map (fun b => Misfit.keyTwice b.line b.spelling a.line) ++
        keysTwice rest

/-- Reports the keys of a mapping that are written twice, and tells whether there are none. -/
def keysDiffer (d : Document) (entries : List (Nat × Nat)) : Extract Bool := do
  let found := keysTwice (entries.map fun e => d.node e.1)
  modify (· ++ found)
  pure found.isEmpty

/-- A value for a place that holds no collection. -/
def single {α : Type} (target : String) (convert : Node → Value → Option α) (d : Document)
    (id : Nat) : Extract (Option α) := do
  let n := d.behind id
  match n.content with
  | .scalar text => do
      match ← scalarValue n text with
      | .nothing => pure none
      | v =>
          match convert n v with
          | some a => pure (some a)
          | none => do
              misfit n target
              pure none
  | .mapping entries => do
      if ← keysDiffer d entries then misfit n target
      pure none
  | _ => do
      misfit n target
      pure none

/-- A natural number below a limit. A real number counts with its integer part, and one of two to
the power 64 is zero. -/
def below (limit : Nat) (_ : Node) (v : Value) : Option Nat :=
  let fits (i : Int) : Option Nat := if 0 ≤ i ∧ i < limit then some i.toNat else none
  match v with
  | .int i => fits i
  | .real (.finite i) => if i = 0x10000000000000000 then some 0 else fits i
  | _ => none

def byte : Document → Nat → Extract (Option UInt8) := fun d id => do
  pure ((← single "uint8" (below 256) d id).map Nat.toUInt8)

def word : Document → Nat → Extract (Option UInt16) := fun d id => do
  pure ((← single "uint16" (below 65536) d id).map Nat.toUInt16)

/-- An integer of 64 bits. Real numbers count with their integer part; those below the least
integer, and the one just above the greatest, become the least. -/
def integer : Document → Nat → Extract (Option Int) := single "int" fun _ v =>
  let least : Int := -0x8000000000000000
  match v with
  | .int i => if i < 0x8000000000000000 then some i else none
  | .real (.finite i) =>
      if i > 0x8000000000000000 then none
      else if i = 0x8000000000000000 || i < least then some least
      else some i
  | .real (.infinite true) => some least
  | _ => none

/-- Any scalar is a text, as it is written. -/
def text : Document → Nat → Extract (Option String) := single "string" fun n v =>
  match v with
  | .text s => some s
  | _ => some n.spelling

/-- The elements of a sequence, without those that are nothing. A scalar that is nothing is an
empty sequence. -/
def list {α : Type} (target : String) (element : Document → Nat → Extract (Option α))
    (d : Document) (id : Nat) : Extract (Option (List α)) := do
  let n := d.behind id
  match n.content with
  | .sequence items => do
      let mut found := #[]
      for i in items do
        if let some a ← element d i then found := found.push a
      pure (some found.toList)
  | .scalar text => do
      if (← scalarValue n text) = .nothing then pure (some [])
      else do
        misfit n target
        pure none
  | .mapping entries => do
      if ← keysDiffer d entries then misfit n target
      pure none
  | .reference .. => failure

/-! ## Mappings

A mapping may take in others under the merge key, after its own entries. What was taken in once is
not taken in again. -/

/-- The mappings under a merge key. -/
def merged (d : Document) (id : Nat) : Extract (List Nat) :=
  let isMapping (n : Node) : Bool := match n.content with
    | .mapping _ => true
    | _ => false
  match (d.node id).content with
  | .sequence items => if items.all (isMapping <| d.behind ·) then pure items else failure
  | _ => if isMapping (d.behind id) then pure [id] else failure

/-- The last merge key among entries. -/
def mergeEntry? (d : Document) (entries : List (Nat × Nat)) : Option Nat :=
  (entries.reverse.find? fun e => (d.node e.1).isMergeKey).map Prod.snd

def ownEntries (d : Document) (entries : List (Nat × Nat)) : List (Nat × Nat) :=
  entries.filter fun e => !(d.node e.1).isMergeKey

/-- Whether the node behind a number is a scalar that stands for nothing. -/
def isNothing (d : Document) (id : Nat) : Bool := (d.behind id).tag = Tag.null

open Scenario in
/-- Adds the entries of a mapping to a map of bytes. `taken` are the addresses taken in already,
while taking in. A value that is nothing counts as zero, unless a byte taken in later would
replace another one by it. -/
def intoBytes (d : Document) : Nat → Nat → Option (List UInt16) → Bool → ByteMap →
    Extract (ByteMap × Option (List UInt16))
  | 0, _, _, _, _ => failure
  | fuel + 1, id, taken, fresh, m => do
      let n := d.behind id
      match n.content with
      | .mapping entries => do
          if !(← keysDiffer d entries) then return (m, taken)
          let mut m := m
          let mut taken := taken
          for (key, value) in ownEntries d entries do
            if let some a ← word d key then
              if taken.any (·.contains a) then continue
              taken := taken.map (a :: ·)
              match ← byte d value with
              | some v => m := m.insert a v
              | none =>
                  if isNothing d value && (fresh || !m.entries.any (·.1 = a)) then
                    m := m.insert a 0
          match mergeEntry? d entries with
          | none => return (m, taken)
          | some source => do
              let mut inside := some (taken.getD [])
              for other in ← merged d source do
                let (m', inside') ← intoBytes d fuel other inside false m
                m := m'
                inside := inside'
              return (m, if taken.isSome then inside else none)
      | _ => failure

open Scenario in
/-- A map of bytes; a scalar that is nothing means that there is none. -/
def byteMap (d : Document) (old : Option ByteMap) (id : Nat) : Extract (Option ByteMap) := do
  let target := "map[uint16]uint8"
  let n := d.behind id
  match n.content with
  | .mapping _ => do
      pure (some (← intoBytes d (d.nodes.size + 1) id none old.isNone (old.getD .empty)).1)
  | .scalar text => do
      if (← scalarValue n text) = .nothing then pure none
      else do
        misfit n target
        pure old
  | _ => do
      misfit n target
      pure old

/-- How a record is filled: the name of its kind, and for every field what a node does to it. -/
structure Shape (α : Type) where
  target : String
  field : String → Option (Document → Nat → α → Extract α)

/-- The keys of a mapping that are texts. -/
def textKeys (d : Document) (entries : List (Nat × Nat)) : List String :=
  entries.filterMap fun e =>
    let n := d.behind e.1
    match n.content with
    | .scalar text => if n.tag = Tag.text || n.tag = Tag.merge then some text else none
    | _ => none

/-- Fills a record from a mapping. `taken` are the fields taken in already, while taking in. -/
def intoRecord {α : Type} (shape : Shape α) (d : Document) :
    Nat → Nat → Option (List String) → α → Extract (Option α × Option (List String))
  | 0, _, _, _ => failure
  | fuel + 1, id, taken, a => do
      let n := d.behind id
      match n.content with
      | .mapping entries => do
          if !(← keysDiffer d entries) then return (none, taken)
          let mut a := a
          let mut taken := taken
          let mut done : List String := []
          for (key, value) in ownEntries d entries do
            if let some name ← text d key then
              if taken.any (·.contains name) then continue
              taken := taken.map (name :: ·)
              match shape.field name with
              | some set =>
                  if done.contains name then
                    report (.fieldTwice (d.node key).line name shape.target)
                  else
                    done := name :: done
                    a ← set d value a
              | none => report (.unknownField (d.node key).line name shape.target)
          match mergeEntry? d entries with
          | none => return (some a, taken)
          | some source => do
              let mut inside := some (taken.getD (textKeys d entries))
              for other in ← merged d source do
                let (a', inside') ← intoRecord shape d fuel other inside a
                a := a'.getD a
                inside := inside'
              return (some a, if taken.isSome then inside else none)
      | .scalar text => do
          if (← scalarValue n text) = .nothing then return (none, taken)
          misfit n shape.target
          return (none, taken)
      | _ => do
          misfit n shape.target
          return (none, taken)

def record {α : Type} (shape : Shape α) (a : α) (d : Document) (id : Nat) : Extract (Option α) := do
  pure (← intoRecord shape d (d.nodes.size + 1) id none a).1

/-! ## Scenarios -/

/-- A field that keeps its value when nothing is given. -/
def plainField {α β : Type} (get : Document → Nat → Extract (Option β)) (set : α → β → α) :
    Document → Nat → α → Extract α :=
  fun d id a => do pure ((← get d id).elim a (set a))

/-- A field that is absent when nothing is given. A misfit leaves it at some value, which is never
used. -/
def optionalField {α β : Type} (get : Document → Nat → Extract (Option β))
    (set : α → Option β → α) : Document → Nat → α → Extract α :=
  fun d id a => do pure (set a (← get d id))

def registers : Shape Registers where
  target := "verification.Registers"
  field := fun name => match name with
    | "a" => some (plainField byte fun r v => { r with a := v })
    | "x" => some (plainField byte fun r v => { r with x := v })
    | "y" => some (plainField byte fun r v => { r with y := v })
    | "sp" => some (plainField byte fun r v => { r with sp := v })
    | "p" => some (plainField byte fun r v => { r with p := v })
    | "pc" => some (plainField word fun r v => { r with pc := v })
    | _ => none

def expectation : Shape Scenario.Expectation where
  target := "verification.Expect"
  field := fun name => match name with
    | "a" => some (optionalField byte fun e v => { e with a := v })
    | "x" => some (optionalField byte fun e v => { e with x := v })
    | "y" => some (optionalField byte fun e v => { e with y := v })
    | "sp" => some (optionalField byte fun e v => { e with sp := v })
    | "pc" => some (optionalField word fun e v => { e with pc := v })
    | "p" => some (plainField text fun e v => { e with p := v })
    | "ram" => some fun d id e => do pure { e with ram := ← byteMap d e.ram id }
    | _ => none

def scenario : Shape Scenario where
  target := "verification.Scenario"
  field := fun name => match name with
    | "name" => some (plainField text fun s v => { s with name := v })
    | "description" => some (plainField text fun s v => { s with description := v })
    | "origin" => some (plainField word fun s v => { s with origin := v })
    | "program" => some (plainField (list "[]uint8" byte) fun s v => { s with program := v })
    | "vector" => some (optionalField word fun s v => { s with vector := v })
    | "ram" => some fun d id s => do pure { s with ram := ← byteMap d s.ram id }
    | "prg" => some fun d id s => do pure { s with prg := ← byteMap d s.prg id }
    | "registers" => some fun d id s => do
        pure { s with registers := (← record registers s.registers d id).getD s.registers }
    | "cycles" => some (plainField integer fun s v => { s with cycles := v })
    | "expect" => some fun d id s => do
        pure { s with expect := (← record expectation s.expect d id).getD s.expect }
    | _ => none

def scenarios (d : Document) : Extract (List Scenario) := do
  pure ((← list "[]verification.Scenario" (record scenario {}) d d.root).getD [])

end Extract

namespace Scenario

/-- The first scenario that makes no sense stops the loading. -/
def validateAll : List Scenario → Except LoadError Unit
  | [] => .ok ()
  | s :: rest =>
      match s.validate with
      | .error e => .error (.invalid e)
      | .ok () => validateAll rest

/-- The scenarios of a document. -/
def load (text : String) : Except LoadError (List Scenario) :=
  match readDocument text with
  | .malformed => .error .malformed
  | .noDocument => .error .noScenarios
  | .document d =>
      match (Extract.scenarios d).run [] with
      | none => .error .malformed
      | some (_, m :: ms) => .error (.misfits (m :: ms))
      | some (ss, []) =>
          if ss.isEmpty then .error .noScenarios
          else do
            validateAll ss
            pure ss

/-- The scenarios of a file. Bytes that are no text cannot be read. -/
def loadFile {m : Type → Type} [Monad m] (read : String → m (Except FileError ByteArray))
    (path : String) : m (Except LoadError (List Scenario)) := do
  match ← read path with
  | .error e => pure (.error (.unreadable e))
  | .ok data => pure (match String.fromUTF8? data with
      | some text => load text
      | none => .error .malformed)

end Scenario

end CycleCheck

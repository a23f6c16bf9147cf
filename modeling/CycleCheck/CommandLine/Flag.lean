import CycleCheck.Text.Duration
import CycleCheck.Text.Folding
import CycleCheck.Text.Literal
import CycleCheck.Text.Quoted

/-!
Flags of a command line. Flags come before other arguments, with one or two dashes; a value follows
an equals sign or is the next argument, and a truth value may be left out.
-/

namespace CycleCheck.CommandLine

/-- Why a value is refused. -/
inductive ValueProblem where
  | malformed
  | outOfRange
  | notAmong (choices : List String)

def ValueProblem.message : ValueProblem → String
  | .malformed => "parse error"
  | .outOfRange => "value out of range"
  | .notAmong choices => "must be one of " ++ ", ".intercalate choices

inductive FlagValue where
  | bool (b : Bool)
  | int (i : Int)
  | text (s : String)
  /-- in nanoseconds -/
  | duration (d : Int)
  | choice (s : String) (choices : List String)

namespace FlagValue

def toText : FlagValue → String
  | .bool b => if b then "true" else "false"
  | .int i => Text.integer i
  | .text s => s
  | .duration d => Text.Duration.text d
  | .choice s _ => s

/-- The text of the value that a flag of this kind has by itself. -/
def zeroText : FlagValue → String
  | .bool _ => "false"
  | .int _ => "0"
  | .duration _ => "0s"
  | .text _ | .choice .. => ""

/-- What usage texts call a value of this kind. -/
def kindName : FlagValue → String
  | .bool _ => ""
  | .int _ => "int"
  | .text _ => "string"
  | .duration _ => "duration"
  | .choice .. => "value"

def isBool : FlagValue → Bool
  | .bool _ => true
  | _ => false

def bool? (s : String) : Option Bool :=
  if ["1", "t", "T", "true", "TRUE", "True"].contains s then some true
  else if ["0", "f", "F", "false", "FALSE", "False"].contains s then some false
  else none

/-- Reads a value. A value that cannot be read gives the reason, and may change the flag all the
same. -/
def set (v : FlagValue) (s : String) : FlagValue × Option ValueProblem :=
  match v with
  | .bool _ =>
      match bool? s with
      | some b => (.bool b, none)
      | none => (.bool false, some .malformed)
  | .int _ =>
      match Text.integerLiteral s with
      | (i, none) => (.int i, none)
      | (i, some .malformed) => (.int i, some .malformed)
      | (i, some .outOfRange) => (.int i, some .outOfRange)
  | .text _ => (.text s, none)
  | .duration _ =>
      match Text.Duration.parse? s with
      | some d => (.duration d, none)
      | none => (.duration 0, some .malformed)
  | .choice _ choices =>
      match choices.find? (Text.equalFold · s) with
      | some c => (.choice c choices, none)
      | none => (v, some (.notAmong choices))

end FlagValue

structure Flag where
  name : String
  usage : String
  value : FlagValue
  /-- the text of the value before anything is read -/
  initial : String

namespace Flag

def make (name usage : String) (value : FlagValue) : Flag := ⟨name, usage, value, value.toText⟩

/-- A flag that must be one of some words, which the usage lists. -/
def choose (name usage value : String) (choices : List String) : Flag :=
  make name (usage ++ " (" ++ ", ".intercalate choices ++ ")") (.choice value choices)

/-- The name of the value and the usage without its quotes: the name stands in the usage between
backquotes, or is that of the kind. -/
def unquoted (f : Flag) : String × String :=
  let isQuote (c : Char) : Bool := c.toNat = 0x60
  let cs := f.usage.toList
  let before := cs.takeWhile (!isQuote ·)
  match cs.dropWhile (!isQuote ·) with
  | _ :: r =>
      let name := r.takeWhile (!isQuote ·)
      match r.dropWhile (!isQuote ·) with
      | _ :: after => (String.ofList name, String.ofList (before ++ name ++ after))
      | [] => (f.value.kindName, f.usage)
  | [] => (f.value.kindName, f.usage)

/-- The lines about a flag in a usage text. -/
def help (f : Flag) : String :=
  let (name, usage) := f.unquoted
  let start := "  -" ++ f.name ++ (if name.isEmpty then "" else " " ++ name)
  let gap := if start.utf8ByteSize ≤ 4 then "\t" else "\n    \t"
  let shown := match f.value with
    | .text _ => Text.quoted f.initial
    | _ => f.initial
  let ending := if f.initial = f.value.zeroText then "" else " (default " ++ shown ++ ")"
  start ++ gap ++ "\n    \t".intercalate (usage.splitOn "\n") ++ ending ++ "\n"

end Flag

inductive FlagError where
  | badSyntax (arg : String)
  | notDefined (name : String)
  | needsArgument (name : String)
  | badBool (value name : String) (why : ValueProblem)
  | badValue (value name : String) (why : ValueProblem)

def FlagError.message : FlagError → String
  | .badSyntax arg => "bad flag syntax: " ++ arg
  | .notDefined name => "flag provided but not defined: -" ++ name
  | .needsArgument name => "flag needs an argument: -" ++ name
  | .badBool value name why =>
      "invalid boolean value " ++ Text.quoted value ++ " for -" ++ name ++ ": " ++ why.message
  | .badValue value name why =>
      "invalid value " ++ Text.quoted value ++ " for flag -" ++ name ++ ": " ++ why.message

/-- What an argument is. -/
inductive Argument where
  | positional
  /-- two dashes, after which there are no flags -/
  | terminator
  | malformed
  | flag (name : String) (value : Option String)

/-- Reads an argument. -/
def Argument.read (s : String) : Argument :=
  let named (cs : List Char) : Argument :=
    match cs with
    | [] => .malformed
    | c :: r =>
        if c = '-' || c = '=' then .malformed
        else
          let name := c :: r.takeWhile (· ≠ '=')
          match r.dropWhile (· ≠ '=') with
          | _ :: value => .flag (String.ofList name) (some (String.ofList value))
          | [] => .flag (String.ofList name) none
  match s.toList with
  | ['-', '-'] => .terminator
  | '-' :: '-' :: r => named r
  | '-' :: c :: r => named (c :: r)
  | _ => .positional

inductive FlagOutcome where
  | done
  | help
  | failed (e : FlagError)

/-- Flags in the order of their definition, and the names of those that were given. -/
structure FlagSet where
  flags : List Flag := []
  given : List String := []

namespace FlagSet

def find? (fs : FlagSet) (name : String) : Option Flag := fs.flags.find? (·.name = name)

def value? (fs : FlagSet) (name : String) : Option FlagValue := (fs.find? name).map Flag.value

def update (fs : FlagSet) (name : String) (v : FlagValue) : FlagSet :=
  { fs with flags := fs.flags.map fun f => if f.name = name then { f with value := v } else f }

def note (fs : FlagSet) (name : String) : FlagSet :=
  if fs.given.contains name then fs else { fs with given := name :: fs.given }

/-- Gives a value to a flag. -/
def assign (fs : FlagSet) (f : Flag) (s : String) : FlagSet × Option FlagError :=
  match f.value.set s with
  | (v, none) => ((fs.update f.name v).note f.name, none)
  | (v, some why) =>
      (fs.update f.name v,
        some (if f.value.isBool then .badBool s f.name why else .badValue s f.name why))

/-- Takes flags from the front of arguments; gives back the arguments that are left. -/
def parse : FlagSet → List String → FlagSet × List String × FlagOutcome
  | fs, [] => (fs, [], .done)
  | fs, s :: rest =>
      match Argument.read s with
      | .positional => (fs, s :: rest, .done)
      | .terminator => (fs, rest, .done)
      | .malformed => (fs, s :: rest, .failed (.badSyntax s))
      | .flag name value =>
          match fs.find? name with
          | none =>
              if name = "help" || name = "h" then (fs, rest, .help)
              else (fs, rest, .failed (.notDefined name))
          | some f =>
              match f.value.isBool, value, rest with
              | true, _, rest =>
                  match fs.assign f (value.getD "true") with
                  | (fs, none) => parse fs rest
                  | (fs, some e) => (fs, rest, .failed e)
              | false, some v, rest =>
                  match fs.assign f v with
                  | (fs, none) => parse fs rest
                  | (fs, some e) => (fs, rest, .failed e)
              | false, none, v :: rest =>
                  match fs.assign f v with
                  | (fs, none) => parse fs rest
                  | (fs, some e) => (fs, rest, .failed e)
              | false, none, [] => (fs, [], .failed (.needsArgument name))

/-- Flags in the order of their names. -/
def sorted (fs : FlagSet) : List Flag := fs.flags.mergeSort fun a b => !(b.name < a.name)

/-- The names of the flags that were given, in order. -/
def visited (fs : FlagSet) : List String := fs.given.mergeSort fun a b => !(b < a)

/-- The lines about all flags. -/
def help (fs : FlagSet) : String := String.join (fs.sorted.map Flag.help)

end FlagSet

end CycleCheck.CommandLine

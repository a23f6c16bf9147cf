import CycleCheck.CommandLine.Flag

/-!
Modes of a command line. A mode has flags of its own and may have sub-modes; arguments are taken
from left to right, and `position` tells how many are taken. The first sub-mode is the default.
-/

namespace CycleCheck.CommandLine

structure Modes where
  /-- the flags of the current mode, once there is one -/
  flags : Option FlagSet := none
  args : List String := []
  position : Nat := 0
  subModes : List String := []
  /-- the modes found so far -/
  path : List String := []
  additionalHelp : String := ""
  parsed : Bool := false

/-- Misuse of modes. -/
inductive ModesError where
  | noFlags
  /-- more arguments are taken than there are -/
  | outOfRange
  | dashFlag (name : String)
  | equalsFlag (name : String)
  | redefinedFlag (name : String)

def ModesError.message : ModesError → String
  | .noFlags => "no mode"
  | .outOfRange => "too few arguments"
  | .dashFlag name => "flag " ++ Text.quoted name ++ " begins with -"
  | .equalsFlag name => "flag " ++ Text.quoted name ++ " contains ="
  | .redefinedFlag name => "flag redefined: " ++ name

/-- The result of parsing. -/
inductive ParseResult where
  | proceed
  | help (text : String)
  | failed (e : FlagError)

/-- The text of a result by its number. -/
def parseResultText : Int → String
  | 0 => "continue"
  | 1 => "help"
  | 2 => "error"
  | _ => "unknown"

def ParseResult.number : ParseResult → Int
  | .proceed => 0
  | .help _ => 1
  | .failed _ => 2

namespace Modes

/-- The latest mode. -/
def mode (md : Modes) : String := md.path.getLast?.getD ""

def pathText (md : Modes) : String := "/".intercalate md.path

/-- Starts a new set of flags and sub-modes. -/
def newMode (md : Modes) : Modes :=
  { md with flags := some {}, subModes := [], additionalHelp := "", parsed := false }

/-- Starts with new arguments. -/
def newArgs (md : Modes) (args : List String) : Modes :=
  { md with args, position := 0, path := [] }.newMode

def addSubModes (md : Modes) (names : List String) : Modes :=
  { md with subModes := md.subModes ++ names.map Text.upper }

/-- Adds a sub-mode that is the default. -/
def addDefaultSubMode (md : Modes) (name : String) : Modes :=
  { md with subModes := Text.upper name :: md.subModes }

def addFlag (md : Modes) (f : Flag) : Except ModesError Modes :=
  match md.flags with
  | none => .error .noFlags
  | some fs =>
      if f.name.startsWith "-" then .error (.dashFlag f.name)
      else if f.name.contains '=' then .error (.equalsFlag f.name)
      else if (fs.find? f.name).isSome then .error (.redefinedFlag f.name)
      else .ok { md with flags := some { fs with flags := fs.flags ++ [f] } }

/-- The arguments that are not taken. -/
def remaining (md : Modes) : Except ModesError (List String) :=
  if md.position ≤ md.args.length then .ok (md.args.drop md.position) else .error .outOfRange

/-- An argument that is not taken, by its number. -/
def argument (md : Modes) (i : Int) : Except ModesError String := do
  let rest ← md.remaining
  pure (if i < 0 then "" else rest.getD i.toNat "")

def visited (md : Modes) : List String := (md.flags.map FlagSet.visited).getD []

def value? (md : Modes) (name : String) : Option FlagValue := md.flags.bind (·.value? name)

/-- The help of the current mode. -/
def help (md : Modes) (flags : String) : String :=
  let banner := md.pathText
  if flags.isEmpty && md.subModes.isEmpty && md.additionalHelp.isEmpty then
    if banner.isEmpty then "No help available\n" else "No help available for " ++ banner ++ "\n"
  else
    (if banner.isEmpty then "Usage:\n" else "Usage: for " ++ banner ++ " mode\n") ++ flags ++
      (match md.subModes with
      | [] => ""
      | first :: _ =>
          (if flags.isEmpty then "" else "\n") ++
            "  available sub-modes: " ++ ", ".intercalate md.subModes ++ "\n" ++
            "    default: " ++ first ++ "\n") ++
      (if md.additionalHelp.isEmpty then "" else "\n" ++ md.additionalHelp ++ "\n")

/-- Finds the sub-mode after the flags. It is the next argument in upper case, or the default, for
which no argument is taken. -/
def enter (md : Modes) (next : String) : Modes :=
  match md.subModes with
  | [] => md
  | first :: _ =>
      if md.subModes.contains (Text.upper next) then
        { md with path := md.path ++ [Text.upper next], position := md.position + 1 }
      else { md with path := md.path ++ [first] }

/-- Takes the flags of the current mode and looks for a sub-mode. Asking for help takes nothing. -/
def parse (md : Modes) : Modes × Except ModesError ParseResult :=
  let md := { md with parsed := true }
  match md.flags, md.remaining with
  | none, _ => (md, .error .noFlags)
  | _, .error e => (md, .error e)
  | some fs, .ok args =>
      match fs.parse args with
      | (fs, _, .help) => ({ md with flags := some fs }, .ok (.help (md.help fs.help)))
      | (fs, rest, outcome) =>
          let md := { md with flags := some fs, position := md.args.length - rest.length }
          match outcome with
          | .failed e => (md, .ok (.failed e))
          | _ => (md.enter (rest.headD ""), .ok .proceed)

end Modes

end CycleCheck.CommandLine

import CycleCheck.Breakdown
import CycleCheck.Fault

/-!
Logs. A log keeps a limited number of entries, the latest ones; an entry equal to the one before
it is counted and not kept twice. Entries have no line feeds.
-/

namespace CycleCheck

structure LogEntry where
  tag : String
  detail : String
  /-- how many times the entry came again -/
  repeated : Nat := 0

def LogEntry.text (e : LogEntry) : String :=
  e.tag ++ ": " ++ e.detail ++
    (if e.repeated > 0 then " (repeat x" ++ Text.decimal (e.repeated + 1) ++ ")" else "") ++ "\n"

/-- Whether a message may be logged. Who has no permission is denied. -/
inductive Permission where
  | allow
  | deny
deriving DecidableEq

structure Log where
  limit : Nat
  entries : Array LogEntry := #[]
  /-- whether every entry is also written out at once -/
  echo : Bool := false
  /-- what was written out -/
  echoed : String := ""

namespace Log

/-- The log that all parts of the program share. -/
def central : Log := { limit := 512 }

def withoutLineFeeds (s : String) : String := String.ofList (s.toList.filter (· ≠ '\n'))

/-- Takes a message. -/
def add (l : Log) (tag detail : String) : Log :=
  let tag := withoutLineFeeds tag
  let detail := withoutLineFeeds detail
  let (entries, e) :=
    match l.entries.back? with
    | some e =>
        if e.tag = tag ∧ e.detail = detail then
          let e := { e with repeated := e.repeated + 1 }
          (l.entries.pop.push e, e)
        else (l.entries.push ⟨tag, detail, 0⟩, ⟨tag, detail, 0⟩)
    | none => (l.entries.push ⟨tag, detail, 0⟩, ⟨tag, detail, 0⟩)
  { l with
    entries :=
      if entries.size > l.limit then entries.extract (entries.size - l.limit) entries.size
      else entries
    echoed := if l.echo then l.echoed ++ e.text else l.echoed }

/-- The text of a value in a log. -/
def detailText : Datum → String
  | .text s => s
  | .named s => s
  | .fault f => f.message
  | d => Text.Pattern.format "%v" [d.arg]

def log (l : Log) (permission : Option Permission) (tag : String) (detail : Datum) : Log :=
  if permission = some .allow then l.add tag (detailText detail) else l

def logf (l : Log) (permission : Option Permission) (tag pattern : String) (values : List Datum) :
    Log :=
  if permission = some .allow then l.add tag (Text.Pattern.format pattern (Datum.args values))
  else l

def clear (l : Log) : Log := { l with entries := #[] }

def textOf (entries : List LogEntry) : String := String.join (entries.map LogEntry.text)

/-- All entries. -/
def text (l : Log) : String := textOf l.entries.toList

/-- The last entries, at most a number of them; none for a negative number. The place of the first one
is counted in 64-bit integers, and a place before the log stops the program. -/
def tail (l : Log) (number : Int) : Except Breakdown String :=
  let size := Int64.ofNat l.entries.size
  let count := if Int64.ofInt number > size then size else Int64.ofInt number
  let first := size - count
  if first < 0 then .error .outOfRange
  else .ok (textOf (l.entries.toList.drop first.toNatClampNeg))

end Log

end CycleCheck

import CycleCheck.Yaml.Input

/-!
Tokens of documents. Indentation becomes explicit: a block collection starts and ends with a token
of its own.
-/

namespace CycleCheck.Yaml

inductive TokenKind where
  | version (major minor : Nat)
  | tagHandle (handle lead : String)
  | documentStart
  | documentEnd
  | blockSequenceStart
  | blockMappingStart
  | blockEnd
  | flowSequenceStart
  | flowSequenceEnd
  | flowMappingStart
  | flowMappingEnd
  /-- the dash before an item -/
  | item
  /-- the comma between items -/
  | comma
  | key
  | value
  | anchor (name : String)
  | reference (name : String)
  | tag (handle ending : String)
  | scalar (text : String) (plain : Bool)
  | streamEnd
deriving DecidableEq

structure Token where
  kind : TokenKind
  /-- the line it starts on -/
  line : Nat

end CycleCheck.Yaml

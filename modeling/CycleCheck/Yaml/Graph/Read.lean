import CycleCheck.Yaml.Graph
import CycleCheck.Yaml.Token.Scan

/-!
Documents from tokens. A document is a node and what belongs to it; a text may hold several
documents, of which the first is read.
-/

namespace CycleCheck.Yaml

structure GraphState where
  tokens : List Token
  nodes : Array Node := #[]
  /-- the latest anchors stand first -/
  anchors : List (String × Nat) := []
  handles : List (String × String) := []

/-- Building of graphs. A failure has no text. -/
abbrev Build := StateT GraphState Option

namespace Build

/-- The next token; running out of tokens is an error. -/
def peek : Build Token := do
  match (← get).tokens with
  | t :: _ => pure t
  | [] => failure

def drop : Build Unit := modify fun s => { s with tokens := s.tokens.drop 1 }

/-- Takes the next token if it is of a kind. -/
def takes (kind : TokenKind) : Build Bool := do
  let t ← peek
  if t.kind = kind then
    drop
    pure true
  else pure false

/-- Adds a node. -/
def add (n : Node) : Build Nat :=
  modifyGet fun s => (s.nodes.size, { s with nodes := s.nodes.push n })

def put (id : Nat) (n : Node) : Build Unit :=
  modify fun s => { s with nodes := s.nodes.setIfInBounds id n }

def anchored (id : Nat) : Option String → Build Unit
  | some name => modify fun s => { s with anchors := (name, id) :: s.anchors }
  | none => pure ()

/-- A node that is not written. -/
def emptyNode (line : Nat) : Build Nat := add ⟨line + 1, Tag.null, .scalar ""⟩

/-- Anchor and tag of a node. -/
structure Properties where
  line : Nat
  anchor : Option String := none
  tag : Option (String × String) := none

/-- Reads an anchor and a tag, in either order. -/
def properties : Build Properties := do
  let t ← peek
  match t.kind with
  | .anchor name => do
      drop
      match (← peek).kind with
      | .tag handle ending => do
          drop
          pure ⟨t.line, some name, some (handle, ending)⟩
      | _ => pure ⟨t.line, some name, none⟩
  | .tag handle ending => do
      drop
      match (← peek).kind with
      | .anchor name => do
          drop
          pure ⟨t.line, some name, some (handle, ending)⟩
      | _ => pure ⟨t.line, none, some (handle, ending)⟩
  | _ => pure ⟨t.line, none, none⟩

/-- The tag as a whole; a handle must be known. -/
def fullTag : Option (String × String) → Build String
  | none => pure ""
  | some (handle, ending) => do
      if handle.isEmpty then pure ending
      else match (← get).handles.lookup handle with
        | some lead =>
            let tag := lead ++ ending
            if tag.isEmpty then failure else pure tag
        | none => failure

/-- The tag of a node: the one that is written, unless it says nothing. -/
def nodeTag (written default : String) : String :=
  if written.isEmpty || written = "!" then default else Tag.short written

def scalarTag (written text : String) (plain : Bool) : String :=
  nodeTag written
    (if !plain then Tag.text
     else if text = "<<" then Tag.merge
     else (valueOf true text).tag)

mutual

/-- Reads a node. Block collections may stand in it only in block context; a sequence whose items
are not indented may be the value of a mapping. -/
def node (block indentless : Bool) : Nat → Build Nat
  | 0 => failure
  | fuel + 1 => do
      let t ← peek
      match t.kind with
      | .reference name => do
          drop
          match (← get).anchors.lookup name with
          | some target => add ⟨t.line + 1, "", .reference name target⟩
          | none => failure
      | _ => do
          let props ← properties
          let tag ← fullTag props.tag
          let line := props.line + 1
          let start (default : String) : Build Nat := do
            let id ← add ⟨line, nodeTag tag default, .scalar ""⟩
            anchored id props.anchor
            pure id
          let sequence (items : Build (List Nat)) : Build Nat := do
            let id ← start Tag.sequence
            put id ⟨line, nodeTag tag Tag.sequence, .sequence (← items)⟩
            pure id
          let mapping (entries : Build (List (Nat × Nat))) : Build Nat := do
            let id ← start Tag.mapping
            put id ⟨line, nodeTag tag Tag.mapping, .mapping (← entries)⟩
            pure id
          let scalar (text : String) (plain : Bool) : Build Nat := do
            let id ← add ⟨line, scalarTag tag text plain, .scalar text⟩
            anchored id props.anchor
            pure id
          let t ← peek
          match t.kind with
          | .item =>
              if indentless then sequence (looseItems fuel)
              else if props.anchor.isSome || !tag.isEmpty then scalar "" true
              else failure
          | .scalar text plain => do
              drop
              scalar text plain
          | .flowSequenceStart => do
              drop
              sequence (flowItems true fuel)
          | .flowMappingStart => do
              drop
              mapping (flowEntries true fuel)
          | .blockSequenceStart =>
              if block then do
                drop
                sequence (blockItems fuel)
              else if props.anchor.isSome || !tag.isEmpty then scalar "" true
              else failure
          | .blockMappingStart =>
              if block then do
                drop
                mapping (blockEntries fuel)
              else if props.anchor.isSome || !tag.isEmpty then scalar "" true
              else failure
          | _ => if props.anchor.isSome || !tag.isEmpty then scalar "" true else failure

/-- Items of a block sequence up to its end. -/
def blockItems : Nat → Build (List Nat)
  | 0 => failure
  | fuel + 1 => do
      let t ← peek
      match t.kind with
      | .item => do
          drop
          let next ← peek
          let item ← match next.kind with
            | .item | .blockEnd => emptyNode t.line
            | _ => node true false fuel
          pure (item :: (← blockItems fuel))
      | .blockEnd => do
          drop
          pure []
      | _ => failure

/-- Items of a sequence that is not indented. -/
def looseItems : Nat → Build (List Nat)
  | 0 => failure
  | fuel + 1 => do
      let t ← peek
      match t.kind with
      | .item => do
          drop
          let next ← peek
          let item ← match next.kind with
            | .item | .key | .value | .blockEnd => emptyNode t.line
            | _ => node true false fuel
          pure (item :: (← looseItems fuel))
      | _ => pure []

/-- Entries of a block mapping up to its end. -/
def blockEntries : Nat → Build (List (Nat × Nat))
  | 0 => failure
  | fuel + 1 => do
      let t ← peek
      match t.kind with
      | .key => do
          drop
          let next ← peek
          let key ← match next.kind with
            | .key | .value | .blockEnd => emptyNode t.line
            | _ => node true true fuel
          let t ← peek
          let value ←
            if t.kind = .value then do
              drop
              let next ← peek
              match next.kind with
              | .key | .value | .blockEnd => emptyNode t.line
              | _ => node true true fuel
            else emptyNode t.line
          pure ((key, value) :: (← blockEntries fuel))
      | .blockEnd => do
          drop
          pure []
      | _ => failure

/-- Items of a flow sequence up to its end. An item with a colon is a mapping of one entry. -/
def flowItems (first : Bool) : Nat → Build (List Nat)
  | 0 => failure
  | fuel + 1 => do
      if ← takes .flowSequenceEnd then pure []
      else do
        if !first then
          if !(← takes .comma) then failure
        let t ← peek
        match t.kind with
        | .key => do
            drop
            let item ← flowPair t.line fuel
            pure (item :: (← flowItems false fuel))
        | .flowSequenceEnd => do
            drop
            pure []
        | _ => do
            let item ← node false false fuel
            pure (item :: (← flowItems false fuel))

/-- The mapping of one entry that an item of a flow sequence can be, after its key mark. -/
def flowPair (line : Nat) : Nat → Build Nat
  | 0 => failure
  | fuel + 1 => do
      let id ← add ⟨line + 1, Tag.mapping, .scalar ""⟩
      let t ← peek
      let key ← match t.kind with
        | .value | .comma | .flowSequenceEnd => do
            drop
            emptyNode t.line
        | _ => node false false fuel
      let value ← flowValue [.comma, .flowSequenceEnd] fuel
      put id ⟨line + 1, Tag.mapping, .mapping [(key, value)]⟩
      pure id

/-- A colon and a value in a flow collection; both may be left out before certain tokens. -/
def flowValue (ends : List TokenKind) : Nat → Build Nat
  | 0 => failure
  | fuel + 1 => do
      if ← takes .value then
        let t ← peek
        if ends.contains t.kind then emptyNode t.line else node false false fuel
      else emptyNode (← peek).line

/-- Entries of a flow mapping up to its end. -/
def flowEntries (first : Bool) : Nat → Build (List (Nat × Nat))
  | 0 => failure
  | fuel + 1 => do
      if ← takes .flowMappingEnd then pure []
      else do
        if !first then
          if !(← takes .comma) then failure
        let t ← peek
        match t.kind with
        | .key => do
            drop
            let next ← peek
            let key ← match next.kind with
              | .value | .comma | .flowMappingEnd => emptyNode next.line
              | _ => node false false fuel
            let value ← flowValue [.comma, .flowMappingEnd] fuel
            pure ((key, value) :: (← flowEntries false fuel))
        | .flowMappingEnd => do
            drop
            pure []
        | _ => do
            let key ← node false false fuel
            let value ← emptyNode (← peek).line
            pure ((key, value) :: (← flowEntries false fuel))

end

/-- The handles every document knows. -/
def commonHandles : List (String × String) := [("!", "!"), ("!!", Tag.common)]

/-- Directives before a document. There is at most one version, which must be 1.1, and no handle
is given twice. -/
def directives (versioned : Bool) : Nat → Build Unit
  | 0 => failure
  | fuel + 1 => do
      match (← peek).kind with
      | .version major minor =>
          if versioned || major ≠ 1 || minor ≠ 1 then failure
          else do
            drop
            directives true fuel
      | .tagHandle handle lead => do
          if ((← get).handles.lookup handle).isSome then failure
          modify fun s => { s with handles := (handle, lead) :: s.handles }
          drop
          directives versioned fuel
      | _ => modify fun s => { s with handles := s.handles ++ commonHandles }

/-- The first document of a text, if there is one. -/
def document (fuel : Nat) : Build (Option Nat) := do
  match (← peek).kind with
  | .streamEnd => pure none
  | .version .. | .tagHandle .. | .documentStart => do
      directives false fuel
      if !(← takes .documentStart) then failure
      let t ← peek
      match t.kind with
      | .version .. | .tagHandle .. | .documentStart | .documentEnd | .streamEnd =>
          some <$> emptyNode t.line
      | _ => some <$> node true false fuel
  | _ => do
      modify fun s => { s with handles := commonHandles }
      some <$> node true false fuel

end Build

/-- The outcome of reading a text. -/
inductive Outcome where
  /-- the text cannot be read -/
  | malformed
  | noDocument
  | document (d : Document)

/-- Reads the first document of a text. The token after the document must be readable. -/
def readDocument (text : String) : Outcome :=
  let tokens := tokensOf text
  let build : Build (Option Nat) := do
    let root ← Build.document (2 * tokens.length + 4)
    let _ ← Build.peek
    pure root
  match build.run { tokens } with
  | none => .malformed
  | some (none, _) => .noDocument
  | some (some root, s) => .document ⟨s.nodes, root⟩

end CycleCheck.Yaml

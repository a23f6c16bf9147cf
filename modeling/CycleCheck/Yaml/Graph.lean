import CycleCheck.Yaml.Value

/-!
Documents as graphs. Nodes are numbered; a reference leads to the node that has the anchor, which
may be a node around the reference.
-/

namespace CycleCheck.Yaml

inductive Content where
  | scalar (text : String)
  | sequence (items : List Nat)
  | mapping (entries : List (Nat × Nat))
  | reference (name : String) (target : Nat)

structure Node where
  /-- the line it starts on, from one -/
  line : Nat
  tag : String
  content : Content

/-- A scalar that stands for nothing. -/
def Node.empty : Node := ⟨0, Tag.null, .scalar ""⟩

/-- What tells nodes of a mapping apart that are written alike. -/
def Node.spelling (n : Node) : String :=
  match n.content with
  | .scalar text => text
  | .reference name _ => name
  | _ => ""

/-- Whether two nodes are written in the same way: scalars and references by their text, and
collections always. -/
def Node.sameSpelling (a b : Node) : Bool :=
  match a.content, b.content with
  | .scalar x, .scalar y => x = y
  | .reference x _, .reference y _ => x = y
  | .sequence _, .sequence _ => true
  | .mapping _, .mapping _ => true
  | _, _ => false

structure Document where
  nodes : Array Node
  root : Nat

def Document.node (d : Document) (id : Nat) : Node := d.nodes.getD id .empty

/-- The node behind references. An anchor never belongs to a reference, so one step is enough. -/
def Document.behind (d : Document) (id : Nat) : Node :=
  match (d.node id).content with
  | .reference _ target => d.node target
  | _ => d.node id

/-- Whether a node is the key under which a mapping takes in others. -/
def Node.isMergeKey (n : Node) : Bool :=
  match n.content with
  | .scalar text => text = "<<" && (n.tag = "" || n.tag = "!" || n.tag = Tag.merge)
  | _ => false

end CycleCheck.Yaml

import CycleCheck.Formula

/-!
Diagrams of terms and formulas as graphs in the DOT language: a node for every part, numbered in
the order of the text, and an edge from every part to the parts below it.
-/

namespace CycleCheck.Diagram

/-- What is written so far, and the number of the next node. -/
structure Drawing where
  text : String := ""
  next : Nat := 0

namespace Drawing

def nodeName (i : Nat) : String := "n" ++ Text.decimal i

/-- A character of a label between quotes. -/
def labelChar : Char → String
  | '"' => "\\\""
  | '\\' => "\\\\"
  | c => String.singleton c

def node (d : Drawing) (label : String) : Drawing :=
  ⟨d.text ++ "  " ++ nodeName d.next ++ " [label=\"" ++
    String.join (label.toList.map labelChar) ++ "\"];\n", d.next + 1⟩

/-- An edge from a node to the next one. -/
def edge (d : Drawing) (source : Nat) : Drawing :=
  { d with text := d.text ++ "  " ++ nodeName source ++ " -> " ++ nodeName d.next ++ ";\n" }

mutual

def term (d : Drawing) : Term → Drawing
  | .app op indices args => (d.node (Term.headText op indices)).arguments d.next args
  | t => d.node t.text

/-- The arguments of a node, each below it. -/
def arguments (d : Drawing) (source : Nat) : List Term → Drawing
  | [] => d
  | a :: rest => ((d.edge source).term a).arguments source rest

end

def command (d : Drawing) : Command → Drawing
  | .assert t => (d.node "assert").arguments d.next [t]
  | c => d.node c.text

def commands (d : Drawing) (source : Nat) (f : Formula) : Drawing :=
  f.foldl (fun d c => (d.edge source).command c) d

/-- The whole graph. -/
def graph (d : Drawing) : String := "digraph \x7b\n" ++ d.text ++ "\x7d\n"

end Drawing

def ofTerm (t : Term) : String := (({} : Drawing).term t).graph

/-- The commands of a formula below one node. -/
def ofFormula (f : Formula) : String := ((({} : Drawing).node "formula").commands 0 f).graph

end CycleCheck.Diagram

import FlowFacts.Graph

/-! # Drawings

The text of a graph for a program that draws digraphs. One line for each node comes first,
then one line for each edge. Labels stand in quotes, so quotes and backslashes in them are
escaped.
-/

namespace FlowFacts

namespace Drawing

/-- How a drawing looks. The texts are written as they are. -/
structure Style where
  nodeShape : String
  boundaryShape : String
  deadColor : String
  unconditionalEdge : String
  /-- The style of the edges of branches and switches. -/
  conditionalEdge : String
  /-- Labels hold the text of the statement, and not only its number. -/
  showStatements : Bool
deriving DecidableEq, Repr

def Style.standard : Style where
  nodeShape := "box"
  boundaryShape := "ellipse"
  deadColor := "lightgray"
  unconditionalEdge := "solid"
  conditionalEdge := "dashed"
  showStatements := true

/-! ## Quoting -/

/-- Puts a backslash in front of every `c`. -/
def shield (c : Char) (text : List Char) : List Char :=
  text.flatMap fun d => if d = c then ['\\', d] else [d]

/-- Makes a text safe between quotes: first the backslashes, then the quotes. -/
def escape (text : String) : String :=
  String.ofList (shield '"' (shield '\\' text.toList))

def quoted (text : String) : String := "\"" ++ escape text ++ "\""

/-! ## Lines -/

def nodeText (style : Style) (g : Graph) (node : Nat) : String :=
  if node = g.entry then "entry"
  else if node = g.exit then "exit"
  else
    "[" ++ node.repr ++ "]" ++
      match style.showStatements, g.stmt? node with
      | true, some s => " " ++ s.text
      | _, _ => ""

def nodeLine (style : Style) (g : Graph) (dead : List Nat) (node : Nat) : String :=
  node.repr ++ " [label=" ++ quoted (nodeText style g node)
    ++ (if node = g.entry ∨ node = g.exit then ", shape=" ++ style.boundaryShape else "")
    ++ (if node ∈ dead then ", style=filled, fillcolor=" ++ style.deadColor else "")
    ++ "];\n"

def edgeText? : EdgeKind → Option String
  | .ifTrue => some "T"
  | .ifFalse => some "F"
  | .switchCase label => some label.toInt.repr
  | .switchDefault => some "default"
  | .entry | .fallThrough | .goto | .ret => none

def edgeStyle (style : Style) (kind : EdgeKind) : String :=
  if kind.isUnconditional then style.unconditionalEdge else style.conditionalEdge

def edgeLine (style : Style) (e : Edge) : String :=
  e.source.repr ++ " -> " ++ e.target.repr ++ " [style=" ++ edgeStyle style e.kind
    ++ (match edgeText? e.kind with
      | some text => ", label=\"" ++ text ++ "\""
      | none => "")
    ++ "];\n"

/-- The whole drawing. Nodes in `dead` are filled; numbers that are no nodes are ignored. -/
def draw (style : Style) (g : Graph) (dead : List Nat) : String :=
  "digraph cfg \x7b\n"
    ++ "node [shape=" ++ style.nodeShape ++ "];\n"
    ++ String.join (g.nodes.map (nodeLine style g dead))
    ++ String.join (g.edges.map (edgeLine style))
    ++ "\x7d\n"

end Drawing

end FlowFacts

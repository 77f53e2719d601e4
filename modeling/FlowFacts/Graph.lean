import FlowFacts.Procedure
import FlowFacts.Edge
import FlowFacts.Direction

/-! # Control-flow graphs

Every statement is a node, and its id is its position. Two nodes that do nothing follow
after the body: the entry and the exit. Each node has the list of the edges that leave it
and of those that enter it.
-/

namespace FlowFacts

structure Graph where
  procedure : Procedure
  /-- For each node the edges that leave it. -/
  outTable : Array (List Edge)
  /-- For each node the edges that enter it. -/
  inTable : Array (List Edge)

namespace Graph

/-! ## Nodes -/

def entry (g : Graph) : Nat := g.procedure.size

def exit (g : Graph) : Nat := g.procedure.size + 1

/-- The number of nodes, entry and exit included. -/
def size (g : Graph) : Nat := g.outTable.size

def nodes (g : Graph) : List Nat := List.range g.size

/-- The statement at a node. The entry and the exit are `nop`. -/
def stmt? (g : Graph) (node : Nat) : Option Stmt :=
  if node = g.entry ∨ node = g.exit then some ⟨node, .nop⟩ else g.procedure.stmt? node

/-! ## Edges -/

def outEdges? (g : Graph) (node : Nat) : Option (List Edge) := g.outTable[node]?

def inEdges? (g : Graph) (node : Nat) : Option (List Edge) := g.inTable[node]?

def succs? (g : Graph) (node : Nat) : Option (List Nat) :=
  (g.outEdges? node).map fun edges => edges.map Edge.target

def preds? (g : Graph) (node : Nat) : Option (List Nat) :=
  (g.inEdges? node).map fun edges => edges.map Edge.source

/-- Every edge, by ascending source. -/
def edges (g : Graph) : List Edge := g.outTable.toList.flatten

/-! ## Directions -/

/-- The node where facts come in from outside. -/
def boundary (g : Graph) : Direction → Nat
  | .forward => g.entry
  | .backward => g.exit

/-- The nodes whose facts flow into a node. -/
def feeders? (g : Graph) : Direction → Nat → Option (List Nat)
  | .forward => g.preds?
  | .backward => g.succs?

/-- The nodes into which the facts of a node flow. -/
def readers? (g : Graph) : Direction → Nat → Option (List Nat)
  | .forward => g.succs?
  | .backward => g.preds?

/-- The order of first visits: along the body in the direction, without the boundary. -/
def firstVisits (g : Graph) : Direction → List Nat
  | .forward => g.nodes.filter (· ≠ g.entry)
  | .backward => g.nodes.reverse.filter (· ≠ g.exit)

end Graph

end FlowFacts

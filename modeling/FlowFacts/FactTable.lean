import FlowFacts.Direction

/-! # Tables of facts

Two facts for each node: the one that holds before it runs and the one that holds after it.
A look-up or a write past the end gives `none`.
-/

namespace FlowFacts

structure FactTable (F : Type) where
  /-- The facts before each node. -/
  ins : Array F
  /-- The facts after each node. -/
  outs : Array F
deriving DecidableEq

namespace FactTable

variable {F : Type}

def filled (n : Nat) (fact : F) : FactTable F :=
  ⟨Array.replicate n fact, Array.replicate n fact⟩

/-- The facts before the nodes are given, those after them are all `blank`. -/
def ofIns (facts : List F) (blank : F) : FactTable F :=
  ⟨facts.toArray, Array.replicate facts.length blank⟩

/-- The facts after the nodes are given, those before them are all `blank`. -/
def ofOuts (facts : List F) (blank : F) : FactTable F :=
  ⟨Array.replicate facts.length blank, facts.toArray⟩

def size (t : FactTable F) : Nat := t.ins.size

def isEmpty (t : FactTable F) : Bool := t.ins.isEmpty

def in? (t : FactTable F) (node : Nat) : Option F := t.ins[node]?

def out? (t : FactTable F) (node : Nat) : Option F := t.outs[node]?

def setIn? (t : FactTable F) (node : Nat) (fact : F) : Option (FactTable F) :=
  if h : node < t.ins.size then some { t with ins := t.ins.set node fact h } else none

def setOut? (t : FactTable F) (node : Nat) (fact : F) : Option (FactTable F) :=
  if h : node < t.outs.size then some { t with outs := t.outs.set node fact h } else none

/-! ## In a direction

The fact that reaches a node comes first in the direction of the analysis, and the one
that leaves it comes second.
-/

def reaching? (t : FactTable F) : Direction → Nat → Option F
  | .forward => t.in?
  | .backward => t.out?

def leaving? (t : FactTable F) : Direction → Nat → Option F
  | .forward => t.out?
  | .backward => t.in?

def setReaching? (t : FactTable F) : Direction → Nat → F → Option (FactTable F)
  | .forward => t.setIn?
  | .backward => t.setOut?

def setLeaving? (t : FactTable F) : Direction → Nat → F → Option (FactTable F)
  | .forward => t.setOut?
  | .backward => t.setIn?

end FactTable

end FlowFacts

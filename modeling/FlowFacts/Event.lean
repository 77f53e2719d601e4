import FlowFacts.Stmt
import FlowFacts.Value
import FlowFacts.Edge
import FlowFacts.Direction

/-! # Events

What the program tells while it works. An event is kept as data; its level and its text
are read off it.
-/

namespace FlowFacts

inductive Level where
  | warn | debug | trace
deriving DecidableEq, Repr

def Level.text : Level → String
  | warn => "WARN"
  | debug => "DEBUG"
  | trace => "TRACE"

inductive Event where
  | built (nodes edges : Nat)
  /-- The worklist ran empty after some visits. -/
  | converged (direction : Direction) (visits : Nat)
  /-- The cap on visits stopped a run. -/
  | gaveUp (direction : Direction) (cap : Nat)
  | assigned (s : Stmt) (v : Var) (x : Value)
  | visited (node : Nat) (s : Stmt) (useless : Bool)
  | alwaysTakes (node : Nat) (s : Stmt) (kind : EdgeKind)
  | alwaysJumps (node : Nat) (s : Stmt) (target : Nat)
  | counted (dead nodes : Nat)
deriving DecidableEq, Repr

namespace Event

def level : Event → Level
  | gaveUp _ _ => .warn
  | built _ _ | converged _ _ | alwaysTakes _ _ _ | alwaysJumps _ _ _ | counted _ _ => .debug
  | assigned _ _ _ | visited _ _ _ => .trace

/-- A statement with its number in front. -/
def located (node : Nat) (s : Stmt) : String := "[" ++ node.repr ++ "] " ++ s.text

def message : Event → String
  | built nodes edges => "built cfg: " ++ nodes.repr ++ " nodes, " ++ edges.repr ++ " edges"
  | converged direction visits =>
    direction.text ++ " analysis converged after " ++ visits.repr ++ " iterations"
  | gaveUp direction cap =>
    direction.text ++ " analysis did not converge after " ++ cap.repr ++ " iterations"
  | assigned s v x =>
    "transfer " ++ located s.index s ++ ": " ++ v.text ++ " = " ++ x.text
  | visited node s useless =>
    "visit " ++ located node s ++ (if useless then " (useless)" else "")
  | alwaysTakes node s kind => located node s ++ " always takes " ++ kind.text
  | alwaysJumps node s target => located node s ++ " always jumps to " ++ target.repr
  | counted dead nodes => "dead code: " ++ dead.repr ++ " of " ++ nodes.repr ++ " nodes"

end Event

end FlowFacts

import FlowFacts.Graph
import FlowFacts.Worklist
import FlowFacts.FactTable
import FlowFacts.Analysis

/-! # The fixpoint solver

The solver visits nodes from a worklist. A visit meets the facts of the feeding nodes into
the fact that reaches the node, which is never reset, and runs the transfer. When the
transfer reports a change, the nodes that read the result join the worklist. The run ends
when the worklist is empty or when a cap on the number of visits is reached.
-/

namespace FlowFacts

namespace Solver

variable {F : Type}

/-- The cap of a run that names none. -/
def defaultCap : Nat := 1000000

structure State (F : Type) where
  facts : FactTable F
  pending : Worklist
  visits : Nat
  /-- What has been told so far, the newest first. -/
  told : List Event

inductive Outcome where
  | converged
  /-- The cap was reached while nodes were still waiting. -/
  | capped
  /-- A look-up found nothing. -/
  | stuck
deriving DecidableEq, Repr

structure Solution (F : Type) where
  facts : FactTable F
  visits : Nat
  outcome : Outcome
  log : List Event

/-! ## One visit -/

/-- Meets the facts that leave the feeding nodes into `target`, one after another. -/
def gather (a : Analysis F) (facts : FactTable F) (feeders : List Nat) (target : F) : Option F :=
  feeders.foldlM
    (fun target node => (facts.leaving? a.direction node).map fun fact =>
      (a.meetInto fact target).1)
    target

def visit (a : Analysis F) (g : Graph) (node : Nat) (s : State F) : Option (State F) := do
  let stmt ← g.stmt? node
  let feeders ← g.feeders? a.direction node
  let reached ← s.facts.reaching? a.direction node
  let input ← gather a s.facts feeders reached
  let output ← s.facts.leaving? a.direction node
  let (output, changed) ← a.transfer stmt input output
  let facts ← s.facts.setReaching? a.direction node input
  let facts ← facts.setLeaving? a.direction node output
  let readers ← if changed then g.readers? a.direction node else some []
  return {
    facts
    pending := s.pending.pushAll readers
    visits := s.visits + 1
    told := (a.events stmt input).reverse ++ s.told }

/-! ## A run -/

/-- Every place has the initial fact, but for the boundary. All nodes wait, but for the
boundary. -/
def start (a : Analysis F) (g : Graph) : Option (State F) := do
  let facts ← (FactTable.filled g.size a.initial).setLeaving? a.direction
    (g.boundary a.direction) a.boundary
  return { facts, pending := Worklist.ofList (g.firstVisits a.direction), visits := 0, told := [] }

/-- The solution that a state amounts to, with what the end of the run tells. -/
def State.finish (a : Analysis F) (s : State F) (outcome : Outcome) : Solution F where
  facts := s.facts
  visits := s.visits
  outcome := outcome
  log := s.told.reverse ++
    match outcome with
    | .converged => [.converged a.direction s.visits]
    | .capped => [.gaveUp a.direction s.visits]
    | .stuck => []

/-- A run that cannot go on. It shows no facts, so that visits may update their table in place. -/
def stuck (a : Analysis F) (g : Graph) (visits : Nat) (told : List Event) : Solution F :=
  ⟨FactTable.filled g.size a.initial, visits, .stuck, told.reverse⟩

/-- Visits nodes until none waits, at most `cap` of them. -/
def run (a : Analysis F) (g : Graph) : (cap : Nat) → State F → Solution F
  | 0, s => s.finish a (if s.pending.isEmpty then .converged else .capped)
  | cap + 1, s =>
    match s.pending.pop? with
    | none => s.finish a .converged
    | some (node, pending) =>
      match visit a g node { s with pending } with
      | none => stuck a g s.visits s.told
      | some s => run a g cap s

def solve (a : Analysis F) (g : Graph) (cap : Nat) : Solution F :=
  match start a g with
  | some s => run a g cap s
  | none => stuck a g 0 []

end Solver

end FlowFacts

import FlowFacts.Graph.Build
import FlowFacts.Constants
import FlowFacts.Liveness

/-! # Dead code

A node is dead when no run reaches it, or when it assigns a variable that nobody reads and
evaluating the right-hand side does nothing else. The walk starts at the entry. At a branch
or a switch that the constants decide, it goes only the one way.
-/

namespace FlowFacts

namespace DeadCode

/-- Why a walk cannot go on. -/
inductive Fault where
  | noNode (node : Nat)
  | noFact (node : Nat)
  /-- A condition has a value that is neither true nor false. -/
  | oddCondition (node : Nat) (n : Int32)
  | noSolution
  /-- More nodes were queued than the graph has edges. -/
  | unfinished
deriving DecidableEq, Repr

/-! ## Decisions at one node -/

/-- The statement assigns a variable that is not live after it, and does nothing else. Any
assignment to a variable asks for the fact, before its right-hand side is looked at. -/
def useless? (live : FactTable VarSet) (node : Nat) (s : Stmt) : Except Fault Bool :=
  match s.defines, s.rvalue? with
  | some v, some e =>
    match live.out? node with
    | some after => .ok (!after.contains v && e.isPure)
    | none => .error (.noFact node)
  | _, _ => .ok false

/-- Where control can go from a node. -/
inductive Way where
  | all
  | only (kind : EdgeKind)
  | jump (target : Nat)
deriving DecidableEq, Repr

def factAt (constants : FactTable ConstFact) (node : Nat) : Except Fault ConstFact :=
  match constants.in? node with
  | some fact => .ok fact
  | none => .error (.noFact node)

def edgesAt (g : Graph) (node : Nat) : Except Fault (List Edge) :=
  match g.outEdges? node with
  | some edges => .ok edges
  | none => .error (.noNode node)

/-- The target of the case with a label, or of the default. -/
def caseTarget (edges : List Edge) (label : Int32) (otherwise : Nat) : Nat :=
  match edges.find? (fun e => e.kind.label? = some label) with
  | some e => e.target
  | none => otherwise

/-- The way that the constants leave open. -/
def way (g : Graph) (constants : FactTable ConstFact) (node : Nat) (s : Stmt) :
    Except Fault Way :=
  match s.command with
  | .branch cond _ => do
    let fact ← factAt constants node
    match Constants.evaluate cond fact with
    | .constant n =>
      if n = 1 then return .only .ifTrue
      else if n = 0 then return .only .ifFalse
      else .error (.oddCondition node n)
    | _ => return .all
  | .switch on _ otherwise => do
    let fact ← factAt constants node
    match fact.get on with
    | .constant n =>
      let edges ← edgesAt g node
      return .jump (caseTarget edges n otherwise)
    | _ => return .all
  | _ => .ok .all

/-- The nodes that a way leads to, given the edges that leave the node. -/
def Way.targets (edges : List Edge) : Way → List Nat
  | all => edges.map Edge.target
  | only kind => (edges.filter (·.kind = kind)).map Edge.target
  | jump target => [target]

/-! ## The walk -/

structure Walk where
  /-- The nodes that no visit has shown to be alive. -/
  dead : BitSet
  resolved : BitSet
  queue : Queue Nat
  /-- The visited nodes, the last one first. -/
  order : List Nat

/-- All nodes count as dead, and the entry waits. -/
def Walk.start (g : Graph) : Walk :=
  ⟨.full g.size, .withCapacity g.size, Queue.empty.push g.entry, []⟩

def visit (g : Graph) (constants : FactTable ConstFact) (live : FactTable VarSet)
    (node : Nat) (w : Walk) : Except Fault Walk :=
  match g.stmt? node with
  | none => .error (.noNode node)
  | some s => do
    let useless ← useless? live node s
    let chosen ← way g constants node s
    let edges ← edgesAt g node
    return {
      dead := if useless then w.dead else (w.dead.erase node).1
      resolved := (w.resolved.insert node).1
      queue := w.queue.pushAll (chosen.targets edges)
      order := node :: w.order }

/-- Takes nodes off the queue until it is empty, at most `pops` of them. A node that is
resolved already is passed over. -/
def walk (g : Graph) (constants : FactTable ConstFact) (live : FactTable VarSet) :
    (pops : Nat) → Walk → Walk × Option Fault
  | 0, w => (w, if w.queue.isEmpty then none else some .unfinished)
  | pops + 1, w =>
    match w.queue.pop? with
    | none => (w, none)
    | some (node, queue) =>
      if w.resolved.contains node then walk g constants live pops { w with queue }
      else
        match visit g constants live node { w with queue } with
        | .ok w => walk g constants live pops w
        | .error fault => ({ w with queue, order := node :: w.order }, some fault)

/-! ## What the walk tells -/

def Way.events (node : Nat) (s : Stmt) : Way → List Event
  | all => []
  | only kind => [.alwaysTakes node s kind]
  | jump target => [.alwaysJumps node s target]

/-- What the visit of a node tells, up to a fault. -/
def visitEvents (g : Graph) (constants : FactTable ConstFact) (live : FactTable VarSet)
    (node : Nat) : List Event :=
  match g.stmt? node with
  | none => []
  | some s =>
    match useless? live node s with
    | .error _ => []
    | .ok useless =>
      .visited node s useless ::
        match way g constants node s with
        | .ok chosen => chosen.events node s
        | .error _ => []

/-! ## Reports -/

structure Report where
  log : List Event
  /-- The dead nodes in ascending order. -/
  result : Except Fault (List Nat)

/-- The dead nodes of a graph under the given facts. The exit is never one. Each node queues
at most as many nodes as edges leave it, so the walk is over after one pop for the entry and
one for each edge. -/
def detect (g : Graph) (constants : FactTable ConstFact) (live : FactTable VarSet) : Report :=
  let (w, fault) := walk g constants live (g.edges.length + 1) (.start g)
  let log := w.order.reverse.flatMap (visitEvents g constants live)
  match fault with
  | some fault => ⟨log, .error fault⟩
  | none =>
    let dead := (w.dead.erase g.exit).1
    ⟨log ++ [.counted dead.size g.size], .ok dead.toList⟩

/-- Where the facts for the walk come from. -/
inductive Supply (F : Type) where
  /-- The analysis is run with a cap on its visits. -/
  | solved (cap : Nat)
  | given (facts : FactTable F)

/-- The facts of a supply with what getting them tells. `none` when the analysis is stuck. -/
def Supply.facts {F : Type} (solve : Nat → Solver.Solution F) :
    Supply F → List Event × Option (FactTable F)
  | solved cap =>
    let s := solve cap
    (s.log, if s.outcome = .stuck then none else some s.facts)
  | given facts => ([], some facts)

/-- Builds the graph, gets the constants and then the live variables, and finds the dead
nodes. -/
def analyzeWith (p : Procedure) (constants : Supply ConstFact) (live : Supply VarSet) :
    Except BuildError Report := do
  let g ← Graph.build p
  let (constantsLog, constants) := constants.facts (Constants.solveWithin g)
  let (liveLog, live) := live.facts (Liveness.solveWithin g)
  let log := g.builtEvent :: constantsLog ++ liveLog
  match constants, live with
  | some constants, some live =>
    let report := detect g constants live
    return { report with log := log ++ report.log }
  | _, _ => return ⟨log, .error .noSolution⟩

/-- The dead nodes of a procedure, with both analyses run up to the default cap. -/
def analyze (p : Procedure) : Except BuildError Report :=
  analyzeWith p (.solved Solver.defaultCap) (.solved Solver.defaultCap)

end DeadCode

end FlowFacts

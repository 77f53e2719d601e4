import FlowFacts.VarSet
import FlowFacts.Solver

/-! # Gen/kill analyses

Analyses over sets of variables that are given by tables: what each node kills and what it
generates. Vetoes and a transfer that always reports a change stand outside the usual
contract, and show what the solver makes of such an analysis.
-/

namespace FlowFacts

/-- At a node, the first variable in the input takes the second one out of the result. -/
structure Veto where
  node : Nat
  present : Var
  removed : Var
deriving DecidableEq, Repr

structure GenKill where
  direction : Direction
  boundary : VarSet
  initial : VarSet
  /-- What each node adds. A node past the end adds nothing. -/
  gen : Array VarSet
  /-- What each node takes out. A node past the end takes nothing out. -/
  kill : Array VarSet
  vetoes : List Veto
  /-- The transfer reports a change even when there is none. -/
  alwaysChanged : Bool

namespace GenKill

def veto (s : Stmt) (input next : VarSet) (v : Veto) : VarSet :=
  if v.node = s.index ∧ v.present ∈ input then (next.erase v.removed).1 else next

/-- The input less what the node kills, with what it generates, less what the vetoes take. -/
def result (a : GenKill) (s : Stmt) (input : VarSet) : VarSet :=
  let killed := input.eraseAll (a.kill.getD s.index .empty).vars
  let next := (killed.union (a.gen.getD s.index .empty)).1
  a.vetoes.foldl (veto s input) next

def transfer (a : GenKill) (s : Stmt) (input output : VarSet) : Option (VarSet × Bool) :=
  let (next, changed) := overwrite output (a.result s input)
  some (next, changed || a.alwaysChanged)

def analysis (a : GenKill) : Analysis VarSet where
  direction := a.direction
  boundary := a.boundary
  initial := a.initial
  meetInto := fun fact target => target.union fact
  transfer := a.transfer
  events := fun _ _ => []

def solveWithin (a : GenKill) (g : Graph) (cap : Nat) : Solver.Solution VarSet :=
  Solver.solve a.analysis g cap

end GenKill

end FlowFacts

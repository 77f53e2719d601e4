import FlowFacts.VarSet
import FlowFacts.Solver

/-! # Live variables

A variable is live at a place if some path from there reads it before writing it. Facts
flow backward: what is live after a statement, less what it writes, and all it reads.
-/

namespace FlowFacts

namespace Liveness

/-- What is live before a statement, from what is live after it. -/
def before (s : Stmt) (after : VarSet) : VarSet :=
  (after.eraseAll s.defines.toList).insertAll s.uses

def meetInto (fact target : VarSet) : VarSet × Bool := target.union fact

def transfer (s : Stmt) (after old : VarSet) : Option (VarSet × Bool) :=
  some (overwrite old (before s after))

/-- Nothing is live at the exit. -/
def analysis : Analysis VarSet where
  direction := .backward
  boundary := .empty
  initial := .empty
  meetInto := meetInto
  transfer := transfer
  events := fun _ _ => []

def solveWithin (g : Graph) (cap : Nat) : Solver.Solution VarSet := Solver.solve analysis g cap

def solve (g : Graph) : Solver.Solution VarSet := solveWithin g Solver.defaultCap

end Liveness

end FlowFacts

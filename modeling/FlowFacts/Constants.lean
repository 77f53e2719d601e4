import FlowFacts.ConstFact
import FlowFacts.Solver

/-! # Constant propagation

Which variables hold one known integer at a place. Only variables of integer types are
followed. Facts flow forward; parameters come in as `nac`.
-/

namespace FlowFacts

namespace Constants

/-! ## Evaluation -/

/-- What is known of a binary expression from what is known of its operands. A division by
the constant zero never completes, so nothing is known after it, whatever its dividend. -/
def combine (op : Operator) (x y : Value) : Value :=
  if op.divides = true ∧ y = .constant 0 then .undefined
  else
    match x, y with
    | .constant a, .constant b =>
      match op.eval? a b with
      | some c => .constant c
      | none => .undefined
    | .nac, _ => .nac
    | _, .nac => .nac
    | _, _ => .undefined

def evaluate (e : Expr) (f : ConstFact) : Value :=
  match e with
  | .literal n => .constant n
  | .var v => f.get v
  | .binary op left right => combine op (f.get left) (f.get right)
  | .neg _ | .alloc _ | .cast _ _ | .instanceOf _ _ | .field _ _ | .element _ _
  | .arrayLength _ => .nac

/-! ## Transfer -/

/-- What is known of the variable a statement writes. The result of a call is not known. -/
def assignedValue (s : Stmt) (input : ConstFact) : Value :=
  match s.rvalue? with
  | some e => evaluate e input
  | none => .nac

/-- The variable that a statement writes and the value it gets, if the variable is followed.
The outer `none` is for a variable outside the table. -/
def assigned? (p : Procedure) (s : Stmt) (input : ConstFact) : Option (Option (Var × Value)) :=
  match s.defines with
  | none => some none
  | some v => (p.holdsInt? v).map fun followed =>
      if followed then some (v, assignedValue s input) else none

def transfer (p : Procedure) (s : Stmt) (input output : ConstFact) :
    Option (ConstFact × Bool) :=
  (assigned? p s input).map fun
    | none => overwrite output input
    | some (v, x) => overwrite output (input.update v x).1

def events (p : Procedure) (s : Stmt) (input : ConstFact) : List Event :=
  match assigned? p s input with
  | some (some (v, x)) => [.assigned s v x]
  | _ => []

/-! ## The analysis -/

/-- Nothing is known of the parameters that are followed. Each has a type, because a
parameter is always in the table. -/
def boundary (p : Procedure) : ConstFact :=
  .ofList ((p.params.filter fun v => p.holdsInt? v = some true).map fun v => (v, .nac))

def analysis (p : Procedure) : Analysis ConstFact where
  direction := .forward
  boundary := boundary p
  initial := .empty
  meetInto := ConstFact.meetInto
  transfer := transfer p
  events := events p

def solveWithin (g : Graph) (cap : Nat) : Solver.Solution ConstFact :=
  Solver.solve (analysis g.procedure) g cap

def solve (g : Graph) : Solver.Solution ConstFact := solveWithin g Solver.defaultCap

end Constants

end FlowFacts

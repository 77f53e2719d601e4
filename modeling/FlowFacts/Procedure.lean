import FlowFacts.Stmt

/-! # Procedures

A procedure is a table of variables, a list of parameters and a body. It grows by
allocating variables and by adding commands at the end. A look-up past the end of a
table gives `none`.
-/

namespace FlowFacts

structure VarInfo where
  name : String
  ty : Ty
deriving DecidableEq, Repr

structure Procedure where
  vars : Array VarInfo
  params : List Var
  body : Array Command
  /-- A parameter is always in the table. -/
  params_known : ∀ v ∈ params, v.index < vars.size

namespace Procedure

def empty : Procedure := ⟨#[], [], #[], by simp⟩

def size (p : Procedure) : Nat := p.body.size

def isEmpty (p : Procedure) : Bool := p.body.isEmpty

def numVars (p : Procedure) : Nat := p.vars.size

/-! ## Variables -/

/-- The variable that the next allocation gives out. -/
def nextVar (p : Procedure) : Var := Var.ofIndex p.numVars

def newVar (p : Procedure) (name : String) (ty : Ty) : Procedure × Var :=
  ({ p with
      vars := p.vars.push ⟨name, ty⟩
      params_known := fun v hv => by
        have := p.params_known v hv
        simp only [Array.size_push]
        omega },
    p.nextVar)

/-- Allocates a variable that holds an argument when the procedure starts. -/
def newParam (p : Procedure) (name : String) (ty : Ty) : Procedure × Var :=
  ({ p with
      vars := p.vars.push ⟨name, ty⟩
      params := p.params ++ [p.nextVar]
      params_known := fun v hv => by
        have hnext := Var.ofIndex_index_le p.numVars
        simp only [Array.size_push]
        simp only [List.mem_append, List.mem_singleton] at hv
        rcases hv with hv | rfl
        · have := p.params_known v hv
          omega
        · simp only [nextVar, numVars] at hnext ⊢
          omega },
    p.nextVar)

def allVars (p : Procedure) : List Var := (List.range p.numVars).map Var.ofIndex

def knows (p : Procedure) (v : Var) : Bool := v.index < p.numVars

def varName? (p : Procedure) (v : Var) : Option String := p.vars[v.index]?.map VarInfo.name

def varType? (p : Procedure) (v : Var) : Option Ty := p.vars[v.index]?.map VarInfo.ty

/-- Whether the variable may hold an integer, by its type. -/
def holdsInt? (p : Procedure) (v : Var) : Option Bool := (p.varType? v).map Ty.holdsInt

/-! ## Statements -/

/-- Adds a command at the end and gives its position. -/
def push (p : Procedure) (c : Command) : Procedure × Nat :=
  ({ p with body := p.body.push c }, p.size)

/-- Adds an assignment to a variable at the end and gives its position. -/
def assign (p : Procedure) (v : Var) (value : Expr) : Procedure × Nat :=
  p.push (.assign (.var v) value)

/-- Puts another command at a position that is already taken. -/
def setCommand? (p : Procedure) (i : Nat) (c : Command) : Option Procedure :=
  if i < p.size then some { p with body := p.body.setIfInBounds i c } else none

def stmt? (p : Procedure) (i : Nat) : Option Stmt := p.body[i]?.map (Stmt.mk i)

def stmts (p : Procedure) : List Stmt := p.body.toList.mapIdx Stmt.mk

end Procedure

end FlowFacts

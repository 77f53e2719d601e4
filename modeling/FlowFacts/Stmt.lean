import FlowFacts.Expr

/-! # Statements

A command says what is done, a statement is a command at its position in the body.
Jumps name positions.
-/

namespace FlowFacts

inductive Place where
  | var (v : Var)
  | field (base : Option Var) (name : String)
  | element (array index : Var)
deriving DecidableEq, Repr

namespace Place

def text : Place → String
  | var v => v.text
  | field base name => fieldText base name
  | element array index => elementText array index

/-- The variables that are read to find the place. -/
def uses : Place → List Var
  | var _ => []
  | field base _ => base.toList
  | element array index => [array, index]

end Place

inductive Command where
  | nop
  | assign (place : Place) (value : Expr)
  | goto (target : Nat)
  /-- Jumps when the condition holds and goes on to the next statement otherwise. -/
  | branch (cond : Expr) (target : Nat)
  | switch (on : Var) (cases : List (Int32 × Nat)) (otherwise : Nat)
  | call (result : Option Var) (method : String) (args : List Var)
  | ret (value : Option Var)
deriving DecidableEq, Repr

namespace Command

/-! ## Text -/

def caseText : Int32 × Nat → String
  | (label, target) => " case " ++ label.toInt.repr ++ ": goto " ++ target.repr ++ ";"

def text : Command → String
  | nop => "nop"
  | assign place value => place.text ++ " = " ++ value.text
  | goto target => "goto " ++ target.repr
  | branch cond target => "if (" ++ cond.text ++ ") goto " ++ target.repr
  | switch on cases otherwise =>
    "switch (" ++ on.text ++ ") \x7b" ++ String.join (cases.map caseText)
      ++ " default: goto " ++ otherwise.repr ++ "; \x7d"
  | call result method args =>
    (match result with
      | some v => v.text ++ " = "
      | none => "")
      ++ "invoke " ++ method ++ "(" ++ ", ".intercalate (args.map Var.text) ++ ")"
  | ret (some v) => "return " ++ v.text
  | ret none => "return"

/-! ## What a command reads and writes -/

/-- The variable a command writes. A store to a field or to an array element writes none. -/
def defines : Command → Option Var
  | assign (.var v) _ => some v
  | call result _ _ => result
  | _ => none

/-- The right-hand side of an assignment. A call has none, because nothing is known of its
result. -/
def rvalue? : Command → Option Expr
  | assign _ value => some value
  | _ => none

/-- The variables a command reads, in order and with repeats. -/
def uses : Command → List Var
  | nop | goto _ => []
  | assign place value => value.uses ++ place.uses
  | branch cond _ => cond.uses
  | switch on _ _ => [on]
  | call _ _ args => args
  | ret value => value.toList

end Command

/-- A command at its position in the body of a procedure. -/
structure Stmt where
  index : Nat
  command : Command
deriving DecidableEq, Repr

namespace Stmt

def text (s : Stmt) : String := s.command.text

def defines (s : Stmt) : Option Var := s.command.defines

def rvalue? (s : Stmt) : Option Expr := s.command.rvalue?

def uses (s : Stmt) : List Var := s.command.uses

end Stmt

end FlowFacts

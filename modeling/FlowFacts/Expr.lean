import FlowFacts.Var
import FlowFacts.Ty
import FlowFacts.Operator

/-! # Expressions

The right-hand sides of assignments. Operands are variables, so an expression has no
subexpressions.
-/

namespace FlowFacts

inductive Expr where
  | literal (n : Int32)
  | var (v : Var)
  | binary (op : Operator) (left right : Var)
  | neg (v : Var)
  | alloc (className : String)
  | cast (ty : Ty) (v : Var)
  | instanceOf (v : Var) (ty : Ty)
  /-- A field of an object, or a static field when there is no base. -/
  | field (base : Option Var) (name : String)
  | element (array index : Var)
  | arrayLength (v : Var)
deriving DecidableEq, Repr

/-! ## Text -/

/-- How a field is written, on either side of an assignment. -/
def fieldText (base : Option Var) (name : String) : String :=
  match base with
  | some v => v.text ++ "." ++ name
  | none => "<static>." ++ name

/-- How an array element is written, on either side of an assignment. -/
def elementText (array index : Var) : String :=
  array.text ++ "[" ++ index.text ++ "]"

namespace Expr

def text : Expr → String
  | literal n => n.toInt.repr
  | var v => v.text
  | binary op left right => left.text ++ " " ++ op.symbol ++ " " ++ right.text
  | neg v => "-" ++ v.text
  | alloc className => "new " ++ className
  | cast ty v => "(" ++ ty.text ++ ") " ++ v.text
  | instanceOf v ty => v.text ++ " instanceof " ++ ty.text
  | field base name => fieldText base name
  | element array index => elementText array index
  | arrayLength v => v.text ++ ".length"

/-! ## What an expression reads and does -/

/-- The variables an expression reads, in order and with repeats. -/
def uses : Expr → List Var
  | literal _ | alloc _ => []
  | var v | neg v | cast _ v | instanceOf v _ | arrayLength v => [v]
  | binary _ left right => [left, right]
  | field base _ => base.toList
  | element array index => [array, index]

/-- Evaluation can neither fault nor touch the heap. A cast may fail, an object or an array
may be missing, an index may be out of bounds, a static field may start an initializer, and
a divisor may be zero. -/
def isPure : Expr → Bool
  | alloc _ | cast _ _ | field _ _ | element _ _ => false
  | binary op _ _ => !op.divides
  | literal _ | var _ | neg _ | instanceOf _ _ | arrayLength _ => true

/-- The expression may decide an `if`: it compares two variables. -/
def isCondition : Expr → Bool
  | binary op _ _ => op.isRelational
  | _ => false

end Expr

end FlowFacts

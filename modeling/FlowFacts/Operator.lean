/-! # Binary operators

The operators of three-address code and what they compute on 32-bit integers.
-/

namespace FlowFacts

inductive Operator where
  | add | sub | mul | div | rem
  | or | and | xor
  | shl | shr | ushr
  | eq | ne | lt | le | gt | ge
deriving DecidableEq, Repr

namespace Operator

/-! ## Groups -/

def isArithmetic : Operator → Bool
  | add | sub | mul | div | rem => true
  | _ => false

def isBitwise : Operator → Bool
  | or | and | xor => true
  | _ => false

def isShift : Operator → Bool
  | shl | shr | ushr => true
  | _ => false

/-- The comparisons. Only they may decide an `if`. -/
def isRelational : Operator → Bool
  | eq | ne | lt | le | gt | ge => true
  | _ => false

/-- The operators that fault when their right operand is zero. -/
def divides : Operator → Bool
  | div | rem => true
  | _ => false

def symbol : Operator → String
  | add => "+"
  | sub => "-"
  | mul => "*"
  | div => "/"
  | rem => "%"
  | or => "|"
  | and => "&"
  | xor => "^"
  | shl => "<<"
  | shr => ">>"
  | ushr => ">>>"
  | eq => "=="
  | ne => "!="
  | lt => "<"
  | le => "<="
  | gt => ">"
  | ge => ">="

/-! ## Meaning -/

/-- The result of a comparison: 1 when it holds, 0 when it does not. -/
def truth (b : Bool) : Int32 := if b then 1 else 0

/-- The result on two 32-bit integers, or `none` for a division by zero. Arithmetic wraps,
division rounds toward zero, a remainder has the sign of the dividend, a shift counts
modulo 32, and `ushr` fills with zeros. -/
def eval? (op : Operator) (a b : Int32) : Option Int32 :=
  match op with
  | add => some (a + b)
  | sub => some (a - b)
  | mul => some (a * b)
  | div => if b = 0 then none else some (a / b)
  | rem => if b = 0 then none else some (a % b)
  | or => some (a ||| b)
  | and => some (a &&& b)
  | xor => some (a ^^^ b)
  | shl => some (a <<< b)
  | shr => some (a >>> b)
  | ushr => some (a.toUInt32 >>> b.toUInt32).toInt32
  | eq => some (truth (a == b))
  | ne => some (truth (a != b))
  | lt => some (truth (decide (a < b)))
  | le => some (truth (decide (a ≤ b)))
  | gt => some (truth (decide (b < a)))
  | ge => some (truth (decide (b ≤ a)))

theorem eval?_eq_none_iff {op : Operator} {a b : Int32} :
    op.eval? a b = none ↔ op.divides = true ∧ b = 0 := by
  cases op <;> simp [eval?, divides]

end Operator

end FlowFacts

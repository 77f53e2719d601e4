/-! # Types of variables -/

namespace FlowFacts

/-- The static type of a variable. `reference` stands for every class, interface and array. -/
inductive Ty where
  | byte | short | int | char | boolean | long | float | double | reference
deriving DecidableEq, Repr

namespace Ty

/-- The type may hold a 32-bit integer. Constant propagation follows only such variables. -/
def holdsInt : Ty → Bool
  | byte | short | int | char | boolean => true
  | long | float | double | reference => false

def text : Ty → String
  | byte => "byte"
  | short => "short"
  | int => "int"
  | char => "char"
  | boolean => "boolean"
  | long => "long"
  | float => "float"
  | double => "double"
  | reference => "ref"

end Ty

end FlowFacts

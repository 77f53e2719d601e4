/-! # The direction of an analysis -/

namespace FlowFacts

/-- Facts flow from the entry to the exit, or the other way. -/
inductive Direction where
  | forward | backward
deriving DecidableEq, Repr

namespace Direction

def text : Direction → String
  | forward => "Forward"
  | backward => "Backward"

def isForward : Direction → Bool
  | forward => true
  | backward => false

end Direction

end FlowFacts

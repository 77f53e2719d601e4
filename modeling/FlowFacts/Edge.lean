/-! # Edges of a control-flow graph -/

namespace FlowFacts

/-- Why control may pass along an edge. -/
inductive EdgeKind where
  | entry
  | fallThrough
  | goto
  | ifTrue
  | ifFalse
  | switchCase (label : Int32)
  | switchDefault
  | ret
deriving DecidableEq, Repr

namespace EdgeKind

def text : EdgeKind → String
  | entry => "Entry"
  | fallThrough => "FallThrough"
  | goto => "Goto"
  | ifTrue => "IfTrue"
  | ifFalse => "IfFalse"
  | switchCase label => "SwitchCase(" ++ label.toInt.repr ++ ")"
  | switchDefault => "SwitchDefault"
  | ret => "Return"

/-- The edge is taken whenever its source is done. -/
def isUnconditional : EdgeKind → Bool
  | entry | fallThrough | goto | ret => true
  | ifTrue | ifFalse | switchCase _ | switchDefault => false

def label? : EdgeKind → Option Int32
  | switchCase label => some label
  | _ => none

def isSwitchCase (k : EdgeKind) : Bool := k.label?.isSome

end EdgeKind

structure Edge where
  source : Nat
  target : Nat
  kind : EdgeKind
deriving DecidableEq, Repr

end FlowFacts

import FlowFacts.Stmt
import FlowFacts.Event

/-! # Dataflow analyses

An analysis says which way facts flow, how they meet and what a statement does to them.
The solver asks for nothing else. Meeting and transfer tell whether they changed the fact
they write, and the solver trusts what they tell.
-/

namespace FlowFacts

structure Analysis (F : Type) where
  direction : Direction
  /-- The fact that comes in from outside. -/
  boundary : F
  /-- The fact at every other place before the first visit. -/
  initial : F
  /-- Meets a fact into a target. -/
  meetInto : (fact target : F) → F × Bool
  /-- The fact that leaves a statement, from the one that reaches it and the one that left
  it before. `none` when the statement names a variable without a type. -/
  transfer : Stmt → (input output : F) → Option (F × Bool)
  events : Stmt → (input : F) → List Event

end FlowFacts

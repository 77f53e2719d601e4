import FlowFacts.BitSet
import FlowFacts.Queue

/-! # Worklists

A queue of node ids in which no id waits twice. A bit set marks the ids that wait, so
pushing one that is already there leaves it at its place.
-/

namespace FlowFacts

structure Worklist where
  queue : Queue Nat
  /-- The ids that wait in the queue. -/
  queued : BitSet

namespace Worklist

def empty : Worklist := ⟨Queue.empty, BitSet.empty⟩

def toList (w : Worklist) : List Nat := w.queue.toList

def isEmpty (w : Worklist) : Bool := w.queue.isEmpty

/-- Adds a node at the back, unless it waits already. -/
def push (w : Worklist) (node : Nat) : Worklist :=
  match w.queued.insert node with
  | (queued, true) => ⟨w.queue.push node, queued⟩
  | (queued, false) => ⟨w.queue, queued⟩

def pushAll (w : Worklist) (nodes : List Nat) : Worklist := nodes.foldl push w

def ofList (nodes : List Nat) : Worklist := empty.pushAll nodes

/-- The node that has waited longest, and the rest. -/
def pop? (w : Worklist) : Option (Nat × Worklist) :=
  w.queue.pop?.map fun (node, queue) => (node, ⟨queue, (w.queued.erase node).1⟩)

end Worklist

end FlowFacts

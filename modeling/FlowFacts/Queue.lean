/-! # Queues

A first-in first-out queue: elements leave at the front and join at the back. The back is
kept in reverse, so both ends are at hand.
-/

namespace FlowFacts

structure Queue (α : Type) where
  front : List α
  back : List α

namespace Queue

variable {α : Type}

def empty : Queue α := ⟨[], []⟩

/-- The elements in the order in which they leave. -/
def toList (q : Queue α) : List α := q.front ++ q.back.reverse

def isEmpty (q : Queue α) : Bool := q.front.isEmpty && q.back.isEmpty

def push (q : Queue α) (a : α) : Queue α := { q with back := a :: q.back }

def pushAll (q : Queue α) (as : List α) : Queue α := as.foldl push q

/-- The element that has waited longest, and the rest. -/
def pop? (q : Queue α) : Option (α × Queue α) :=
  match q.front with
  | a :: front => some (a, { q with front })
  | [] =>
    match q.back.reverse with
    | a :: front => some (a, ⟨front, []⟩)
    | [] => none

@[simp] theorem toList_empty : (empty : Queue α).toList = [] := rfl

@[simp] theorem toList_push (q : Queue α) (a : α) : (q.push a).toList = q.toList ++ [a] := by
  simp [toList, push]

@[simp] theorem toList_pushAll (q : Queue α) (as : List α) :
    (q.pushAll as).toList = q.toList ++ as := by
  induction as generalizing q with
  | nil => simp [pushAll]
  | cons a as ih =>
    have := ih (q.push a)
    simp only [pushAll, List.foldl_cons] at this ⊢
    simp [this]

theorem isEmpty_iff (q : Queue α) : q.isEmpty = true ↔ q.toList = [] := by
  simp [isEmpty, toList]

theorem pop?_eq_none_iff (q : Queue α) : q.pop? = none ↔ q.toList = [] := by
  obtain ⟨front, back⟩ := q
  cases front with
  | cons a front => simp [pop?, toList]
  | nil =>
    cases h : back.reverse with
    | nil => simp [pop?, toList, h]
    | cons a rest => simp [pop?, toList, h]

theorem toList_of_pop? {q rest : Queue α} {a : α} (h : q.pop? = some (a, rest)) :
    q.toList = a :: rest.toList := by
  obtain ⟨front, back⟩ := q
  cases front with
  | cons b front =>
    simp only [pop?, Option.some.injEq, Prod.mk.injEq] at h
    obtain ⟨rfl, rfl⟩ := h
    simp [toList]
  | nil =>
    cases hb : back.reverse with
    | nil => simp [pop?, hb] at h
    | cons b front =>
      simp only [pop?, hb, Option.some.injEq, Prod.mk.injEq] at h
      obtain ⟨rfl, rfl⟩ := h
      simp [toList, hb]

theorem mem_of_pop? {q rest : Queue α} {a : α} (h : q.pop? = some (a, rest)) : a ∈ q.toList := by
  rw [toList_of_pop? h]
  exact List.mem_cons_self

end Queue

end FlowFacts

import FlowFacts.Var
import FlowFacts.Value
import FlowFacts.Change

/-! # Facts about constants

A fact gives a value to every variable. Only values other than `undefined` are stored, in
ascending order of their variables. So two facts are equal exactly when they give the same
values, and the empty fact is the bottom.
-/

namespace FlowFacts

structure ConstFact where
  entries : List (Var × Value)
  ascending : entries.Pairwise (fun a b => a.1 < b.1)
  defined : ∀ e ∈ entries, e.2 ≠ Value.undefined
deriving DecidableEq

namespace ConstFact

/-! ## Ascending entries -/

/-- Puts an entry at its place and drops the old one of the same variable. -/
def place (v : Var) (x : Value) : List (Var × Value) → List (Var × Value)
  | [] => [(v, x)]
  | e :: rest =>
    if v < e.1 then (v, x) :: e :: rest
    else if v = e.1 then (v, x) :: rest
    else e :: place v x rest

theorem mem_of_mem_place {v : Var} {x : Value} {e : Var × Value} {l : List (Var × Value)}
    (h : e ∈ place v x l) : e = (v, x) ∨ e ∈ l := by
  induction l with
  | nil => simpa [place] using h
  | cons d rest ih =>
    simp only [place] at h
    split at h
    · simpa using h
    · split at h
      · rcases List.mem_cons.mp h with h | h
        · exact Or.inl h
        · exact Or.inr (List.mem_cons_of_mem _ h)
      · rcases List.mem_cons.mp h with rfl | h
        · exact Or.inr List.mem_cons_self
        · exact (ih h).imp_right (List.mem_cons_of_mem _)

theorem place_ascending {v : Var} {x : Value} {l : List (Var × Value)}
    (h : l.Pairwise (fun a b => a.1 < b.1)) :
    (place v x l).Pairwise (fun a b => a.1 < b.1) := by
  induction l with
  | nil => simp [place]
  | cons d rest ih =>
    have hd := List.pairwise_cons.mp h
    simp only [place]
    split
    · rename_i hlt
      refine List.pairwise_cons.mpr ⟨fun e he => ?_, h⟩
      rcases List.mem_cons.mp he with rfl | he
      · exact hlt
      · exact Var.lt_trans hlt (hd.1 e he)
    · split
      · rename_i heq
        exact List.pairwise_cons.mpr ⟨fun e he => heq ▸ hd.1 e he, hd.2⟩
      · rename_i hlt hne
        refine List.pairwise_cons.mpr ⟨fun e he => ?_, ih hd.2⟩
        rcases mem_of_mem_place he with rfl | he
        · exact Var.lt_of_not_lt hlt hne
        · exact hd.1 e he

/-! ## The fact -/

def empty : ConstFact := ⟨[], List.Pairwise.nil, by simp⟩

def find? (f : ConstFact) (v : Var) : Option Value := f.entries.lookup v

/-- The value of a variable, `undefined` when none is stored. -/
def get (f : ConstFact) (v : Var) : Value := (f.find? v).getD .undefined

def size (f : ConstFact) : Nat := f.entries.length

def isEmpty (f : ConstFact) : Bool := f.entries.isEmpty

/-- Forgets a variable. The flag tells whether a value was stored. -/
def erase (f : ConstFact) (v : Var) : ConstFact × Bool :=
  (⟨f.entries.filter (·.1 ≠ v), f.ascending.filter _,
      fun e he => f.defined e (List.mem_filter.mp he).1⟩,
    (f.find? v).isSome)

/-- Gives a variable a value, and forgets it when the value is `undefined`. The flag tells
whether it had another value before. -/
def update (f : ConstFact) (v : Var) (x : Value) : ConstFact × Bool :=
  if h : x = .undefined then f.erase v
  else if f.find? v = some x then (f, false)
  else
    (⟨place v x f.entries, place_ascending f.ascending, fun e he => by
        rcases mem_of_mem_place he with rfl | he
        · exact h
        · exact f.defined e he⟩,
      true)

/-- The fact made by updates in turn, so a later one wins. -/
def ofList (updates : List (Var × Value)) : ConstFact :=
  updates.foldl (fun f u => (f.update u.1 u.2).1) empty

/-- Meets one entry into a fact that has perhaps changed already. -/
def meetEntry (acc : ConstFact × Bool) (e : Var × Value) : ConstFact × Bool :=
  let next := acc.1.update e.1 (e.2.meet (acc.1.get e.1))
  (next.1, acc.2 || next.2)

def meetEntries (entries : List (Var × Value)) (target : ConstFact) : ConstFact × Bool :=
  entries.foldl meetEntry (target, false)

/-- Meets `fact` into `target`. The flag tells whether `target` changed. -/
def meetInto (fact target : ConstFact) : ConstFact × Bool := meetEntries fact.entries target

def entryText (e : Var × Value) : String := e.1.text ++ "=" ++ e.2.text

/-- Facts are written `{%1=-2, %3=NAC}`. -/
def text (f : ConstFact) : String :=
  "\x7b" ++ ", ".intercalate (f.entries.map entryText) ++ "\x7d"

end ConstFact

end FlowFacts

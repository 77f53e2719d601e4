/-! # Variables

A variable is a slot in the table of its procedure. Variables are ordered by slot,
and every list of variables that a fact shows follows that order.
-/

namespace FlowFacts

/-- A variable, named by its slot. Its name and type are in the procedure's table. -/
structure Var where
  slot : UInt32
deriving DecidableEq, Repr

namespace Var

def index (v : Var) : Nat := v.slot.toNat

/-- The variable of the slot at position `i`, which is taken modulo 2^32. -/
def ofIndex (i : Nat) : Var := ⟨i.toUInt32⟩

/-- Variables are written `%0`, `%1`, and so on. -/
def text (v : Var) : String := "%" ++ v.index.repr

instance : LT Var := ⟨fun a b => a.index < b.index⟩

instance (a b : Var) : Decidable (a < b) := inferInstanceAs (Decidable (a.index < b.index))

theorem lt_iff {a b : Var} : a < b ↔ a.index < b.index := Iff.rfl

theorem eq_of_index_eq {a b : Var} (h : a.index = b.index) : a = b := by
  cases a; cases b
  exact congrArg Var.mk (UInt32.toNat_inj.mp h)

theorem lt_trans {a b c : Var} (h : a < b) (k : b < c) : a < c := Nat.lt_trans h k

theorem lt_irrefl (a : Var) : ¬ a < a := Nat.lt_irrefl _

theorem lt_of_not_lt {a b : Var} (h : ¬ a < b) (hne : a ≠ b) : b < a :=
  Nat.lt_of_le_of_ne (Nat.le_of_not_lt h) fun he => hne (eq_of_index_eq he.symm)

theorem ofIndex_index (v : Var) : ofIndex v.index = v := by
  apply eq_of_index_eq
  simp [ofIndex, index]

theorem ofIndex_index_le (i : Nat) : (ofIndex i).index ≤ i := by
  simp only [ofIndex, index, Nat.toUInt32, UInt32.toNat_ofNat']
  exact Nat.mod_le _ _

end Var

end FlowFacts

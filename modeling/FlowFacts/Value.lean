/-! # What is known of an integer

The values form a flat lattice. `undefined` is the bottom: nothing has been seen yet. `nac`
is the top: the variable is not a constant. In between stand the constants, and no two of
them are comparable.
-/

namespace FlowFacts

inductive Value where
  | undefined
  | constant (n : Int32)
  | nac
deriving DecidableEq, Repr

namespace Value

def isUndefined : Value → Bool
  | undefined => true
  | _ => false

def isConstant : Value → Bool
  | constant _ => true
  | _ => false

def isNac : Value → Bool
  | nac => true
  | _ => false

def constant? : Value → Option Int32
  | constant n => some n
  | _ => none

def text : Value → String
  | undefined => "UNDEF"
  | constant n => n.toInt.repr
  | nac => "NAC"

/-- Combines what is known on two paths: two constants survive only if they agree. -/
def meet : Value → Value → Value
  | nac, _ => nac
  | _, nac => nac
  | undefined, y => y
  | x, undefined => x
  | constant a, constant b => if a = b then constant a else nac

/-- The order of the lattice, from `undefined` up to `nac`. -/
def le : Value → Value → Bool
  | undefined, _ => true
  | _, nac => true
  | constant a, constant b => a == b
  | _, _ => false

@[simp] theorem meet_undefined (x : Value) : x.meet undefined = x := by cases x <;> rfl

@[simp] theorem undefined_meet (x : Value) : undefined.meet x = x := by cases x <;> rfl

@[simp] theorem meet_nac (x : Value) : x.meet nac = nac := by cases x <;> rfl

@[simp] theorem meet_self (x : Value) : x.meet x = x := by cases x <;> simp [meet]

theorem meet_comm (x y : Value) : x.meet y = y.meet x := by
  cases x <;> cases y <;> simp only [meet]
  rename_i a b
  by_cases h : a = b
  · simp [h]
  · simp [h, Ne.symm h]

theorem meet_assoc (x y z : Value) : (x.meet y).meet z = x.meet (y.meet z) := by
  cases x with
  | undefined => rw [undefined_meet, undefined_meet]
  | nac => rfl
  | constant a =>
    cases y with
    | undefined => rw [meet_undefined, undefined_meet]
    | nac => rfl
    | constant b =>
      cases z with
      | undefined => rw [meet_undefined, meet_undefined]
      | nac => rw [meet_nac, meet_nac, meet_nac]
      | constant c =>
        by_cases hbc : b = c
        · subst hbc
          by_cases hab : a = b <;> simp [meet, hab]
        · by_cases hab : a = b <;> simp [meet, hab, hbc]

theorem le_iff_meet_eq {x y : Value} : x.le y = true ↔ x.meet y = y := by
  cases x <;> cases y <;> simp [le, meet]
  rename_i a b
  by_cases h : a = b <;> simp [h]

end Value

end FlowFacts

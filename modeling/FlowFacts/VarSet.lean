import FlowFacts.Var
import FlowFacts.Change

/-! # Sets of variables

A set of variables is an ascending list, so two sets are equal exactly when they have the
same members, and the text of a set shows its members in order.
-/

namespace FlowFacts

structure VarSet where
  vars : List Var
  ascending : vars.Pairwise (· < ·)
deriving DecidableEq

namespace VarSet

/-! ## Ascending lists -/

def place (v : Var) : List Var → List Var
  | [] => [v]
  | u :: rest =>
    if v < u then v :: u :: rest
    else if v = u then u :: rest
    else u :: place v rest

theorem mem_place {v x : Var} {l : List Var} : x ∈ place v l ↔ x = v ∨ x ∈ l := by
  induction l with
  | nil => simp [place]
  | cons u rest ih =>
    simp only [place]
    split
    · simp
    · split
      · rename_i h
        simp [h]
      · simp only [List.mem_cons, ih]
        constructor
        · rintro (h | h | h) <;> simp [h]
        · rintro (h | h | h) <;> simp [h]

theorem place_ascending {v : Var} {l : List Var} (h : l.Pairwise (· < ·)) :
    (place v l).Pairwise (· < ·) := by
  induction l with
  | nil => simp [place]
  | cons u rest ih =>
    have hu := List.pairwise_cons.mp h
    simp only [place]
    split
    · rename_i hlt
      refine List.pairwise_cons.mpr ⟨fun x hx => ?_, h⟩
      rcases List.mem_cons.mp hx with rfl | hx
      · exact hlt
      · exact Var.lt_trans hlt (hu.1 x hx)
    · split
      · exact h
      · rename_i hlt hne
        refine List.pairwise_cons.mpr ⟨fun x hx => ?_, ih hu.2⟩
        rcases mem_place.mp hx with rfl | hx
        · exact Var.lt_of_not_lt hlt hne
        · exact hu.1 x hx

/-- Merges an ascending list with `a` in front of one whose own merge is `tail`. -/
def mergeFrom (a : Var) (tail : List Var → List Var) : List Var → List Var
  | [] => a :: tail []
  | b :: rest =>
    if a < b then a :: tail (b :: rest)
    else if a = b then a :: tail rest
    else b :: mergeFrom a tail rest

/-- Merges two ascending lists and keeps one of each variable. -/
def merge : List Var → List Var → List Var
  | [] => fun r => r
  | a :: l => mergeFrom a (merge l)

theorem mem_mergeFrom {a x : Var} {l r : List Var} {tail : List Var → List Var}
    (h : ∀ r, x ∈ tail r ↔ x ∈ l ∨ x ∈ r) :
    x ∈ mergeFrom a tail r ↔ x ∈ a :: l ∨ x ∈ r := by
  induction r with
  | nil => simp [mergeFrom, h]
  | cons b rest ih =>
    simp only [mergeFrom]
    split
    · simp [h, or_assoc]
    · split
      · rename_i heq
        simp only [List.mem_cons, h, heq]
        grind
      · simp only [List.mem_cons, ih]
        grind

theorem mem_merge {x : Var} {l r : List Var} : x ∈ merge l r ↔ x ∈ l ∨ x ∈ r := by
  induction l generalizing r with
  | nil => simp [merge]
  | cons a l ih => exact mem_mergeFrom fun r => ih

theorem mergeFrom_ascending {a : Var} {l r : List Var} {tail : List Var → List Var}
    (hmem : ∀ x r, x ∈ tail r ↔ x ∈ l ∨ x ∈ r)
    (htail : ∀ r, r.Pairwise (· < ·) → (tail r).Pairwise (· < ·))
    (hl : (a :: l).Pairwise (· < ·)) (hr : r.Pairwise (· < ·)) :
    (mergeFrom a tail r).Pairwise (· < ·) := by
  have ha := (List.pairwise_cons.mp hl).1
  induction r with
  | nil =>
    refine List.pairwise_cons.mpr ⟨fun x hx => ?_, htail [] hr⟩
    rcases (hmem x []).mp hx with hx | hx
    · exact ha x hx
    · simp at hx
  | cons b rest ih =>
    have hb := List.pairwise_cons.mp hr
    simp only [mergeFrom]
    split
    · rename_i hlt
      refine List.pairwise_cons.mpr ⟨fun x hx => ?_, htail _ hr⟩
      rcases (hmem x _).mp hx with hx | hx
      · exact ha x hx
      · rcases List.mem_cons.mp hx with rfl | hx
        · exact hlt
        · exact Var.lt_trans hlt (hb.1 x hx)
    · split
      · rename_i heq
        refine List.pairwise_cons.mpr ⟨fun x hx => ?_, htail _ hb.2⟩
        rcases (hmem x _).mp hx with hx | hx
        · exact ha x hx
        · exact heq ▸ hb.1 x hx
      · rename_i hlt hne
        have hba := Var.lt_of_not_lt hlt hne
        refine List.pairwise_cons.mpr ⟨fun x hx => ?_, ih hb.2⟩
        rcases (mem_mergeFrom (hmem x)).mp hx with hx | hx
        · rcases List.mem_cons.mp hx with rfl | hx
          · exact hba
          · exact Var.lt_trans hba (ha x hx)
        · exact hb.1 x hx

theorem merge_ascending {l r : List Var} (hl : l.Pairwise (· < ·)) (hr : r.Pairwise (· < ·)) :
    (merge l r).Pairwise (· < ·) := by
  induction l generalizing r with
  | nil => exact hr
  | cons a l ih =>
    exact mergeFrom_ascending (fun x r => mem_merge) (fun r h => ih hl.of_cons h) hl hr

/-! ## The set -/

def empty : VarSet := ⟨[], List.Pairwise.nil⟩

def contains (s : VarSet) (v : Var) : Bool := s.vars.contains v

instance : Membership Var VarSet := ⟨fun s v => s.contains v = true⟩

instance (v : Var) (s : VarSet) : Decidable (v ∈ s) :=
  inferInstanceAs (Decidable (s.contains v = true))

def size (s : VarSet) : Nat := s.vars.length

def isEmpty (s : VarSet) : Bool := s.vars.isEmpty

/-- Adds a variable. The flag tells whether it is new. -/
def insert (s : VarSet) (v : Var) : VarSet × Bool :=
  if s.contains v then (s, false)
  else (⟨place v s.vars, place_ascending s.ascending⟩, true)

/-- Takes a variable out. The flag tells whether it was there. -/
def erase (s : VarSet) (v : Var) : VarSet × Bool :=
  if s.contains v then (⟨s.vars.filter (· ≠ v), s.ascending.filter _⟩, true)
  else (s, false)

/-- Adds every member of `t` to `s`. The flag tells whether `s` grew. -/
def union (s t : VarSet) : VarSet × Bool :=
  let both : VarSet := ⟨merge s.vars t.vars, merge_ascending s.ascending t.ascending⟩
  (both, both.size != s.size)

def insertAll (s : VarSet) (vs : List Var) : VarSet :=
  vs.foldl (fun s v => (s.insert v).1) s

def eraseAll (s : VarSet) (vs : List Var) : VarSet :=
  vs.foldl (fun s v => (s.erase v).1) s

def ofList (vs : List Var) : VarSet := empty.insertAll vs

/-- Sets are written `[%1, %4]`. -/
def text (s : VarSet) : String := "[" ++ ", ".intercalate (s.vars.map Var.text) ++ "]"

/-! ## Members -/

theorem mem_iff {s : VarSet} {v : Var} : v ∈ s ↔ v ∈ s.vars := by
  show s.contains v = true ↔ _
  simp [contains]

@[simp] theorem mem_insert {s : VarSet} {v x : Var} : x ∈ (s.insert v).1 ↔ x = v ∨ x ∈ s := by
  unfold insert
  split
  · rename_i h
    exact ⟨Or.inr, fun hx => hx.elim (fun he => he ▸ h) id⟩
  · simp only [mem_iff, mem_place]

@[simp] theorem mem_erase {s : VarSet} {v x : Var} : x ∈ (s.erase v).1 ↔ x ∈ s ∧ x ≠ v := by
  unfold erase
  split
  · simp [mem_iff]
  · rename_i h
    exact ⟨fun hx => ⟨hx, fun he => h (he ▸ hx)⟩, fun hx => hx.1⟩

@[simp] theorem mem_union {s t : VarSet} {x : Var} : x ∈ (s.union t).1 ↔ x ∈ s ∨ x ∈ t := by
  simp only [mem_iff, union, mem_merge]

end VarSet

end FlowFacts

import FlowFacts.VarSet
import Mathlib.Order.Lattice

/-! # Sets of variables as a lattice

Two sets with the same members are equal, and `union` is the join.
-/

namespace FlowFacts.VarSet

theorem nodup (s : VarSet) : s.vars.Nodup := by
  apply s.ascending.imp
  intro u v h he
  exact Var.lt_irrefl v (he ▸ h)

theorem ext {s t : VarSet} (h : ∀ v, v ∈ s ↔ v ∈ t) : s = t := by
  have hmem : ∀ v, v ∈ s.vars ↔ v ∈ t.vars := fun v => by rw [← mem_iff, ← mem_iff, h]
  have hperm := (List.perm_ext_iff_of_nodup s.nodup t.nodup).mpr hmem
  have heq : s.vars = t.vars := by
    apply hperm.eq_of_pairwise _ s.ascending t.ascending
    intro u v _ _ huv hvu
    exact absurd (Var.lt_trans huv hvu) (Var.lt_irrefl u)
  cases s
  cases t
  simp only at heq
  subst heq
  rfl

@[simp] theorem not_mem_empty (v : Var) : ¬ v ∈ empty := by
  rw [mem_iff]
  simp [empty]

theorem mem_insertAll {s : VarSet} {vs : List Var} {x : Var} :
    x ∈ s.insertAll vs ↔ x ∈ vs ∨ x ∈ s := by
  induction vs generalizing s with
  | nil => simp [insertAll]
  | cons v vs ih =>
    have h : s.insertAll (v :: vs) = (s.insert v).1.insertAll vs := rfl
    rw [h, ih, mem_insert, List.mem_cons, or_left_comm, or_assoc]

theorem mem_eraseAll {s : VarSet} {vs : List Var} {x : Var} :
    x ∈ s.eraseAll vs ↔ x ∈ s ∧ x ∉ vs := by
  induction vs generalizing s with
  | nil => simp [eraseAll]
  | cons v vs ih =>
    have h : s.eraseAll (v :: vs) = (s.erase v).1.eraseAll vs := rfl
    rw [h, ih, mem_erase, List.mem_cons, not_or, and_assoc]

instance : PartialOrder VarSet where
  le s t := ∀ v, v ∈ s → v ∈ t
  le_refl _ _ := id
  le_trans _ _ _ h k v hv := k v (h v hv)
  le_antisymm _ _ h k := ext fun v => ⟨h v, k v⟩

instance : SemilatticeSup VarSet where
  sup s t := (s.union t).1
  le_sup_left _ _ _ hv := mem_union.mpr (Or.inl hv)
  le_sup_right _ _ _ hv := mem_union.mpr (Or.inr hv)
  sup_le _ _ _ h k v hv := (mem_union.mp hv).elim (h v) (k v)

@[simp] theorem mem_sup {s t : VarSet} {v : Var} : v ∈ s ⊔ t ↔ v ∈ s ∨ v ∈ t := mem_union

end FlowFacts.VarSet

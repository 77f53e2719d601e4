import FlowFacts.ConstFact
import Mathlib.Order.Lattice

/-! # Facts about constants as a lattice

A fact is known by the values it gives. Facts are ordered pointwise, and `meetInto` is the
join in that order, whatever the order in which the entries are met.
-/

namespace FlowFacts

/-! ## The order of values -/

namespace Value

theorem le_refl (x : Value) : x.le x = true :=
  le_iff_meet_eq.mpr (meet_self x)

theorem le_trans {x y z : Value} (h : x.le y = true) (k : y.le z = true) : x.le z = true := by
  rw [le_iff_meet_eq] at h k ⊢
  calc x.meet z = x.meet (y.meet z) := by rw [k]
    _ = (x.meet y).meet z := (meet_assoc x y z).symm
    _ = y.meet z := by rw [h]
    _ = z := k

theorem le_antisymm {x y : Value} (h : x.le y = true) (k : y.le x = true) : x = y := by
  rw [le_iff_meet_eq] at h k
  calc x = y.meet x := k.symm
    _ = x.meet y := meet_comm y x
    _ = y := h

theorem le_nac (x : Value) : x.le nac = true := by
  cases x <;> rfl

theorem le_meet_left (x y : Value) : x.le (x.meet y) = true := by
  rw [le_iff_meet_eq, ← meet_assoc, meet_self]

theorem le_meet_right (x y : Value) : y.le (x.meet y) = true := by
  rw [meet_comm]
  exact le_meet_left y x

theorem meet_le {x y z : Value} (h : x.le z = true) (k : y.le z = true) :
    (x.meet y).le z = true := by
  rw [le_iff_meet_eq] at h k ⊢
  rw [meet_assoc, k, h]

theorem constant_le_iff {n : Int32} {x : Value} :
    (constant n).le x = true ↔ x = constant n ∨ x = nac := by
  cases x with
  | undefined | nac => simp [le]
  | constant m =>
    simp only [le, beq_iff_eq, constant.injEq, reduceCtorEq, or_false]
    exact eq_comm

end Value

namespace ConstFact

/-! ## Looking up -/

theorem lookup_filter_ne (v u : Var) (l : List (Var × Value)) :
    (l.filter (·.1 ≠ v)).lookup u = if u = v then none else l.lookup u := by
  induction l with
  | nil => simp
  | cons e rest ih =>
    obtain ⟨w, x⟩ := e
    by_cases hw : w = v
    · rw [List.filter_cons_of_neg (by simp [hw]), ih]
      by_cases hu : u = v
      · simp [hu]
      · have : u ≠ w := fun h => hu (h.trans hw)
        simp [hu, List.lookup_cons, beq_false_of_ne this]
    · rw [List.filter_cons_of_pos (by simp [hw]), List.lookup_cons, ih, List.lookup_cons]
      by_cases hu : u = w
      · simp [hu, hw]
      · simp [beq_false_of_ne hu]

theorem lookup_place (v u : Var) (x : Value) (l : List (Var × Value)) :
    (place v x l).lookup u = if u = v then some x else l.lookup u := by
  induction l with
  | nil =>
    by_cases hu : u = v
    · simp [place, hu]
    · simp [place, hu, List.lookup_cons, beq_false_of_ne hu]
  | cons e rest ih =>
    obtain ⟨w, y⟩ := e
    simp only [place]
    split
    · by_cases hu : u = v
      · simp [hu]
      · simp [hu, List.lookup_cons, beq_false_of_ne hu]
    · split
      · rename_i hvw
        subst hvw
        by_cases hu : u = v
        · simp [hu]
        · simp [hu, List.lookup_cons, beq_false_of_ne hu]
      · rename_i hvw
        rw [List.lookup_cons, List.lookup_cons, ih]
        by_cases hu : u = w
        · have : w ≠ v := Ne.symm hvw
          simp [hu, this]
        · simp [beq_false_of_ne hu]

theorem get_empty (v : Var) : empty.get v = .undefined := rfl

theorem get_erase (f : ConstFact) (v u : Var) :
    (f.erase v).1.get u = if u = v then .undefined else f.get u := by
  have h := lookup_filter_ne v u f.entries
  simp only [get, find?, erase]
  rw [h]
  split <;> rfl

theorem get_update (f : ConstFact) (v u : Var) (x : Value) :
    (f.update v x).1.get u = if u = v then x else f.get u := by
  unfold update
  split
  · rename_i hx
    rw [get_erase, hx]
  · split
    · rename_i hf
      by_cases hu : u = v
      · simp [get, hu, hf]
      · simp [hu]
    · have h := lookup_place v u x f.entries
      simp only [get, find?]
      rw [h]
      split <;> rfl

/-! ## Equality -/

theorem distinct (f : ConstFact) : f.entries.Pairwise (fun a b => a.1 ≠ b.1) := by
  apply f.ascending.imp
  intro a b hab he
  exact Var.lt_irrefl b.1 (he ▸ hab)

theorem lookup_eq_some_iff {l : List (Var × Value)} (h : l.Pairwise (fun a b => a.1 ≠ b.1))
    {v : Var} {x : Value} : l.lookup v = some x ↔ (v, x) ∈ l := by
  induction l with
  | nil => simp
  | cons e rest ih =>
    obtain ⟨w, y⟩ := e
    have hw := List.pairwise_cons.mp h
    rw [List.lookup_cons, List.mem_cons]
    by_cases hv : v = w
    · subst hv
      have hno : (v, x) ∉ rest := fun hm => hw.1 _ hm rfl
      simp [hno, eq_comm]
    · simp [beq_false_of_ne hv, hv, ih hw.2]

theorem get_eq_iff_mem {f : ConstFact} {v : Var} {x : Value} (hx : x ≠ .undefined) :
    f.get v = x ↔ (v, x) ∈ f.entries := by
  rw [← lookup_eq_some_iff f.distinct, get, find?]
  cases f.entries.lookup v with
  | none => simp [hx.symm]
  | some y => simp

theorem ext {f g : ConstFact} (h : ∀ v, f.get v = g.get v) : f = g := by
  have hkeys : ∀ f : ConstFact, f.entries.Nodup := by
    intro f
    apply f.distinct.imp
    intro a b hab he
    exact hab (congrArg Prod.fst he)
  have hmem : ∀ e, e ∈ f.entries ↔ e ∈ g.entries := by
    rintro ⟨v, x⟩
    by_cases hx : x = .undefined
    · constructor
      · intro he
        exact absurd hx (f.defined _ he)
      · intro he
        exact absurd hx (g.defined _ he)
    · rw [← get_eq_iff_mem hx, ← get_eq_iff_mem hx, h]
  have hperm := (List.perm_ext_iff_of_nodup (hkeys f) (hkeys g)).mpr hmem
  have heq : f.entries = g.entries := by
    apply hperm.eq_of_pairwise _ f.ascending g.ascending
    intro a b _ _ hab hba
    exact absurd (Var.lt_trans hab hba) (Var.lt_irrefl a.1)
  cases f
  cases g
  simp only at heq
  subst heq
  rfl

/-! ## Meeting -/

theorem get_meetEntries (entries : List (Var × Value)) (target : ConstFact) (flag : Bool) (v : Var)
    (h : entries.Pairwise (fun a b => a.1 ≠ b.1)) :
    (entries.foldl meetEntry (target, flag)).1.get v =
      ((entries.lookup v).getD .undefined).meet (target.get v) := by
  induction entries generalizing target flag with
  | nil => simp
  | cons e rest ih =>
    obtain ⟨u, x⟩ := e
    have hu := List.pairwise_cons.mp h
    rw [List.foldl_cons, meetEntry, ih _ _ hu.2, get_update, List.lookup_cons]
    by_cases hv : v = u
    · subst hv
      have hnone : rest.lookup v = none := by
        rw [List.lookup_eq_none_iff]
        intro e he
        exact bne_iff_ne.mpr (hu.1 e he)
      simp [hnone]
    · simp [hv, beq_false_of_ne hv]

theorem get_meetInto (fact target : ConstFact) (v : Var) :
    (meetInto fact target).1.get v = (fact.get v).meet (target.get v) :=
  get_meetEntries fact.entries target false v fact.distinct

instance : PartialOrder ConstFact where
  le f g := ∀ v, (f.get v).le (g.get v) = true
  le_refl _ _ := Value.le_refl _
  le_trans _ _ _ h k v := Value.le_trans (h v) (k v)
  le_antisymm _ _ h k := ext fun v => Value.le_antisymm (h v) (k v)

instance : SemilatticeSup ConstFact where
  sup f g := (meetInto g f).1
  le_sup_left f g v := by
    rw [get_meetInto]
    exact Value.le_meet_right _ _
  le_sup_right f g v := by
    rw [get_meetInto]
    exact Value.le_meet_left _ _
  sup_le f g k hf hg v := by
    rw [get_meetInto]
    exact Value.meet_le (hg v) (hf v)

theorem get_sup (f g : ConstFact) (v : Var) : (f ⊔ g).get v = (g.get v).meet (f.get v) :=
  get_meetInto g f v

theorem get_ne_of_sup {f g : ConstFact} {v : Var} (h : (f ⊔ g).get v ≠ .undefined) :
    f.get v ≠ .undefined ∨ g.get v ≠ .undefined := by
  by_contra hnone
  rw [not_or, not_not, not_not] at hnone
  rw [get_sup, hnone.1, hnone.2] at h
  exact h rfl

end ConstFact

end FlowFacts

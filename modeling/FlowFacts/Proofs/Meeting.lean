import FlowFacts.Proofs.Contract
import Mathlib.Order.Bounds.Basic

/-! # Meeting is a least upper bound

A fact is met into another one entry by entry, and its entries may come in any order. Whatever the
order, the result is the least fact above both. So it matters neither in which order several facts
are met nor how often one of them comes.
-/

namespace FlowFacts

namespace ConstFact

/-! ## One fact -/

theorem meetEntries_fst {entries : List (Var × Value)} {fact : ConstFact}
    (h : entries.Perm fact.entries) (target : ConstFact) :
    (meetEntries entries target).1 = target ⊔ fact := by
  apply get_injective
  rw [(meetEntries_tells h target).1]
  funext v
  exact (get_sup target fact v).symm

theorem meetEntries_snd_iff {entries : List (Var × Value)} {fact : ConstFact}
    (h : entries.Perm fact.entries) (target : ConstFact) :
    (meetEntries entries target).2 = true ↔ ¬ fact ≤ target := by
  have htells := meetEntries_tells h target
  rw [htells.2, ← htells.1, get_injective.ne_iff, meetEntries_fst h, ne_comm]
  exact not_congr sup_eq_left

theorem meetEntries_eq_meetInto {entries : List (Var × Value)} {fact : ConstFact}
    (h : entries.Perm fact.entries) (target : ConstFact) :
    meetEntries entries target = meetInto fact target := by
  apply Prod.ext
  · exact meetEntries_fst h target
  · rw [Bool.eq_iff_iff, meetEntries_snd_iff h]
    exact (meetEntries_snd_iff (.refl _) target).symm

/-! ## Several facts -/

/-- Each list has the entries of one fact, in an order of its own. -/
def Enumerate (lists : List (List (Var × Value))) (facts : List ConstFact) : Prop :=
  List.Forall₂ (fun entries fact => entries.Perm fact.entries) lists facts

/-- Meets facts into a target, one after another. -/
def meetAll (lists : List (List (Var × Value))) (target : ConstFact) : ConstFact :=
  lists.foldl (fun target entries => (meetEntries entries target).1) target

theorem meetAll_le_iff {lists : List (List (Var × Value))} {facts : List ConstFact}
    (h : Enumerate lists facts) {target y : ConstFact} :
    meetAll lists target ≤ y ↔ target ≤ y ∧ ∀ fact ∈ facts, fact ≤ y := by
  induction h generalizing target with
  | nil => simp [meetAll]
  | @cons entries fact lists facts hperm _ ih =>
    have hcons : meetAll (entries :: lists) target = meetAll lists (target ⊔ fact) := by
      rw [← meetEntries_fst hperm]
      rfl
    rw [hcons, ih, sup_le_iff, List.forall_mem_cons, and_assoc]

theorem meetAll_eq {lists lists' : List (List (Var × Value))} {facts facts' : List ConstFact}
    (h : Enumerate lists facts) (h' : Enumerate lists' facts')
    (hsame : ∀ fact, fact ∈ facts ↔ fact ∈ facts') (target : ConstFact) :
    meetAll lists target = meetAll lists' target := by
  apply eq_of_forall_ge_iff
  intro y
  rw [meetAll_le_iff h, meetAll_le_iff h']
  simp only [hsame]

end ConstFact

/-! ## The facts that feed a node -/

namespace Solver

variable {F : Type} [SemilatticeSup F] {a : Analysis F}

theorem gather_eq_some_iff (hmeets : ∀ fact target, (a.meetInto fact target).1 = target ⊔ fact)
    {facts : FactTable F} {nodes : List Nat} {target r : F} :
    gather a facts nodes target = some r ↔
      (∀ m ∈ nodes, ∃ x, facts.leaving? a.direction m = some x) ∧
        ∀ y, r ≤ y ↔
          target ≤ y ∧ ∀ m ∈ nodes, ∀ x, facts.leaving? a.direction m = some x → x ≤ y := by
  induction nodes generalizing target with
  | nil =>
    have hnil : gather a facts [] target = some target := rfl
    rw [hnil, Option.some.injEq]
    simp only [List.not_mem_nil, false_imp_iff, implies_true, and_true, true_and]
    constructor
    · rintro rfl y
      rfl
    · intro h
      exact eq_of_forall_ge_iff fun y => (h y).symm
  | cons m nodes ih =>
    rw [gather, List.foldlM_cons]
    simp only [List.forall_mem_cons]
    cases hm : facts.leaving? a.direction m with
    | none => simp
    | some x =>
      have hrest : ((some x).map fun fact => (a.meetInto fact target).1) >>=
          (fun t => gather a facts nodes t) = gather a facts nodes (target ⊔ x) := by
        rw [← hmeets]
        rfl
      refine (iff_of_eq (congrArg (· = some r) hrest)).trans (ih.trans ?_)
      simp [sup_le_iff, and_assoc]

theorem gather_congr (hmeets : ∀ fact target, (a.meetInto fact target).1 = target ⊔ fact)
    (facts : FactTable F) {nodes nodes' : List Nat} (hsame : ∀ m, m ∈ nodes ↔ m ∈ nodes')
    (target : F) : gather a facts nodes target = gather a facts nodes' target := by
  apply Option.ext
  intro r
  rw [gather_eq_some_iff hmeets, gather_eq_some_iff hmeets]
  simp only [hsame]

end Solver

/-- Meeting gives the least fact above both, in whatever order the entries and the facts come. -/
theorem ConstFact.meet_least_in_any_order (f t : ConstFact) :
    (∀ v, (meetInto f t).1.get v = (f.get v).meet (t.get v)) ∧
    IsLUB {f, t} (meetInto f t).1 ∧
    ((meetInto f t).2 = true ↔ ¬ f ≤ t) ∧
    (∀ entries, entries.Perm f.entries → meetEntries entries t = meetInto f t) ∧
    (∀ facts facts' lists lists', Enumerate lists facts → Enumerate lists' facts' →
      (∀ g, g ∈ facts ↔ g ∈ facts') → meetAll lists t = meetAll lists' t) ∧
    ∀ p table nodes nodes', (∀ m, m ∈ nodes ↔ m ∈ nodes') →
      Solver.gather (Constants.analysis p) table nodes t =
        Solver.gather (Constants.analysis p) table nodes' t := by
  refine ⟨get_meetInto f t, ?_, meetEntries_snd_iff (.refl _) t, ?_, ?_, ?_⟩
  · show IsLUB {f, t} (t ⊔ f)
    rw [sup_comm]
    exact isLUB_pair
  · exact fun entries h => meetEntries_eq_meetInto h t
  · exact fun facts facts' lists lists' h h' hsame => meetAll_eq h h' hsame t
  · exact fun p table nodes nodes' hsame => Solver.gather_congr (fun _ _ => rfl) table hsame t

theorem ConstFact.meet_least_backwards :
    ∃ f t : ConstFact, f.entries.reverse ≠ f.entries ∧
      meetEntries f.entries.reverse t = meetInto f t ∧ (meetInto f t).2 = true ∧
      (meetInto f t).1.get ⟨0⟩ = .nac ∧ (meetInto f t).1.get ⟨1⟩ = .constant 2 ∧
      meetAll [f.entries.reverse, f.entries] t = meetAll [f.entries] t := by
  let f : ConstFact := .ofList [(⟨0⟩, .constant 1), (⟨1⟩, .constant 2)]
  let t : ConstFact := .ofList [(⟨0⟩, .constant 3)]
  have hperm := List.reverse_perm f.entries
  obtain ⟨hget, -, hflag, horder, hall, -⟩ := meet_least_in_any_order f t
  refine ⟨f, t, by decide, horder _ hperm, ?_, ?_, ?_, ?_⟩
  · rw [hflag]
    intro hle
    exact absurd (hle ⟨0⟩) (by decide)
  · rw [hget]
    decide
  · rw [hget]
    decide
  · exact hall [f, f] [f] _ _ (.cons hperm (.cons (.refl _) .nil)) (.cons (.refl _) .nil) (by simp)

end FlowFacts

import FlowFacts.Proofs.BitSet
import Mathlib.Data.Finset.Card
import Mathlib.Data.Finset.Dedup
import Mathlib.Algebra.BigOperators.Group.List.Basic
import Mathlib.Algebra.GroupWithZero.Nat

/-! # Bit sets are finite sets

Whatever has been done to it, a bit set stands for the finite set of its members. The count that
is kept beside the words is the number of their ones, so `size`, `isEmpty` and `==` may use it in
place of the members.
-/

namespace FlowFacts.BitSet

def members (s : BitSet) : Finset Nat := s.toList.toFinset

@[simp] theorem mem_members {s : BitSet} {i : Nat} : i ∈ s.members ↔ s.contains i = true := by
  rw [members, List.mem_toFinset, mem_toList]

theorem members_eq_iff {s t : BitSet} :
    s.members = t.members ↔ ∀ i, s.contains i = t.contains i := by
  rw [Finset.ext_iff]
  refine forall_congr' fun i => ?_
  rw [mem_members, mem_members, ← Bool.eq_iff_iff]

/-! ## Counting ones -/

def totalOnes (s : BitSet) : Nat := ((List.range s.words.size).map fun k => ones (s.word k)).sum

theorem card_eq_length (s : BitSet) : s.members.card = s.toList.length :=
  List.toFinset_card_of_nodup (s.toList_ascending.imp Nat.ne_of_lt)

theorem card_members (s : BitSet) : s.members.card = s.totalOnes := by
  rw [card_eq_length, toList, List.length_flatMap, totalOnes]
  simp only [List.length_map, ones, List.countP_eq_length_filter]

theorem word_ofFn (f : Nat → UInt64) (n k c : Nat) :
    (⟨((List.range n).map f).toArray, c⟩ : BitSet).word k = if k < n then f k else 0 := by
  unfold word
  rw [Array.getD_eq_getD_getElem?, List.getElem?_toArray, List.getElem?_map]
  split
  · rename_i h
    simp [h]
  · rename_i h
    rw [List.getElem?_eq_none (by simp; omega)]
    rfl

theorem word_of_size_le {s : BitSet} {k : Nat} (h : s.words.size ≤ k) : s.word k = 0 := by
  unfold word
  rw [Array.getD_eq_getD_getElem?, Array.getElem?_eq_none h]
  rfl

theorem word_ext {v w : UInt64} (h : ∀ j, j < 64 → bit v j = bit w j) : v = w := by
  apply UInt64.toBitVec_inj.mp
  apply BitVec.eq_of_getLsbD_eq
  exact h

/-! ## Members after the other operations -/

theorem contains_clear (s : BitSet) (i : Nat) : s.clear.contains i = false := by
  unfold contains word clear
  rw [Array.getD_eq_getD_getElem?, Array.getElem?_map]
  cases s.words[i / 64]? <;> exact bit_zero _

theorem contains_union (s t : BitSet) (i : Nat) :
    (s.union t).1.contains i = (s.contains i || t.contains i) := by
  unfold contains union
  simp only [word_ofFn]
  split
  · exact bit_or _ _ _
  · rename_i h
    rw [word_of_size_le (by omega), word_of_size_le (by omega), bit_zero]
    rfl

theorem contains_insertAll (s : BitSet) (is : List Nat) (j : Nat) :
    (s.insertAll is).contains j = true ↔ j ∈ is ∨ s.contains j = true := by
  induction is generalizing s with
  | nil => simp [insertAll]
  | cons i is ih =>
    have h : s.insertAll (i :: is) = (s.insert i).1.insertAll is := rfl
    rw [h, ih, contains_insert, List.mem_cons, or_left_comm, or_assoc]

theorem erase_flag (s : BitSet) (i : Nat) : (s.erase i).2 = s.contains i := by
  unfold erase
  split <;> simp_all

/-! ## The count is exact -/

def Exact (s : BitSet) : Prop := s.count = s.totalOnes

theorem exact_iff {s : BitSet} : s.Exact ↔ s.count = s.members.card := by
  rw [Exact, card_members]

theorem exact_of_blank {s : BitSet} (hcount : s.count = 0) (h : ∀ i, s.contains i = false) :
    s.Exact := by
  have hmembers : s.members = ∅ := by
    ext i
    simp [h]
  rw [exact_iff, hcount, hmembers, Finset.card_empty]

theorem exact_full (n : Nat) : (full n).Exact := by
  have hmembers : (full n).members = Finset.range n := by
    ext i
    rw [mem_members, contains_full, Finset.mem_range]
  rw [exact_iff, hmembers, Finset.card_range]
  rfl

theorem Exact.insert {s : BitSet} (h : s.Exact) (i : Nat) : (s.insert i).1.Exact := by
  by_cases hi : s.contains i = true
  · rw [BitSet.insert, if_pos hi]
    exact h
  · have hmembers : (s.insert i).1.members = Insert.insert i s.members := by
      ext j
      rw [mem_members, contains_insert, Finset.mem_insert, mem_members]
    have hcount : (s.insert i).1.count = s.count + 1 := by rw [BitSet.insert, if_neg hi]
    rw [exact_iff] at h ⊢
    rw [hmembers, Finset.card_insert_of_notMem (mt mem_members.mp hi), hcount, h]

theorem Exact.erase {s : BitSet} (h : s.Exact) (i : Nat) : (s.erase i).1.Exact := by
  by_cases hi : s.contains i = true
  · have hmembers : (s.erase i).1.members = s.members.erase i := by
      ext j
      rw [mem_members, contains_erase, Finset.mem_erase, mem_members]
    have hcount : (s.erase i).1.count = s.count - 1 := by rw [BitSet.erase, if_pos hi]
    rw [exact_iff] at h ⊢
    rw [hmembers, Finset.card_erase_of_mem (mem_members.mpr hi), hcount, h]
  · rw [BitSet.erase, if_neg hi]
    exact h

theorem Exact.insertAll {s : BitSet} (h : s.Exact) (is : List Nat) : (s.insertAll is).Exact := by
  induction is generalizing s with
  | nil => exact h
  | cons i is ih => exact ih (h.insert i)

theorem count_union (s t : BitSet) :
    (s.union t).1.count = s.count + (t.members \ s.members).card := by
  -- The ones that a union adds are those of a set of its own, with what `s` lacks of `t`.
  let range := List.range (max s.words.size t.words.size)
  let lacking : BitSet := ⟨(range.map fun k => t.word k &&& ~~~s.word k).toArray, 0⟩
  have hlacking : lacking.members = t.members \ s.members := by
    ext i
    simp only [lacking, range, mem_members, Finset.mem_sdiff, contains, word_ofFn]
    split
    · rw [bit_diff _ _ _ (by omega)]
      simp
    · rename_i h
      rw [word_of_size_le (s := t) (by omega), bit_zero]
      simp
  have hones : lacking.totalOnes =
      (range.map fun k => ones (t.word k &&& ~~~s.word k)).foldr (· + ·) 0 := by
    unfold totalOnes
    rw [← List.sum_eq_foldr]
    simp only [lacking, range, word_ofFn, List.size_toArray, List.length_map, List.length_range]
    congr 1
    apply List.map_congr_left
    intro k hk
    rw [if_pos (List.mem_range.mp hk)]
  rw [← hlacking, card_members, hones]
  rfl

theorem members_union (s t : BitSet) : (s.union t).1.members = s.members ∪ t.members := by
  ext i
  simp [contains_union]

theorem Exact.union {s : BitSet} (h : s.Exact) (t : BitSet) : (s.union t).1.Exact := by
  rw [exact_iff] at h ⊢
  rw [count_union, members_union, h, ← Finset.union_sdiff_self_eq_union,
    Finset.card_union_of_disjoint Finset.disjoint_sdiff]

theorem union_flag (s t : BitSet) : (s.union t).2 = true ↔ ¬ t.members ⊆ s.members := by
  have hflag : (s.union t).2 = ((s.union t).1.count - s.count != 0) := by
    simp [union]
  rw [hflag, count_union, ← Finset.sdiff_eq_empty_iff_subset, ← Finset.card_eq_zero]
  simp

/-! ## Equality -/

theorem beq_iff {s t : BitSet} (hs : s.Exact) (ht : t.Exact) :
    (s == t) = true ↔ s.members = t.members := by
  have hbeq : (s == t) = s.beq t := rfl
  rw [hbeq, beq, Bool.and_eq_true, beq_iff_eq, List.all_eq_true]
  constructor
  · rintro ⟨-, hwords⟩
    rw [members_eq_iff]
    intro i
    unfold contains
    rcases Nat.lt_or_ge (i / 64) (max s.words.size t.words.size) with hk | hk
    · rw [eq_of_beq (hwords _ (List.mem_range.mpr hk))]
    · -- Past the end of the storage there are only zeros, whoever has the longer one.
      rw [word_of_size_le (s := s) (by omega), word_of_size_le (s := t) (by omega)]
  · intro h
    refine ⟨?_, fun k _ => ?_⟩
    · rw [exact_iff.mp hs, exact_iff.mp ht, h]
    · rw [beq_iff_eq]
      apply word_ext
      intro j hj
      have hbit := members_eq_iff.mp h (64 * k + j)
      have hdiv : (64 * k + j) / 64 = k := by omega
      have hmod : (64 * k + j) % 64 = j := by omega
      rw [contains, contains, hdiv, hmod] at hbit
      exact hbit

/-! ## Histories -/

/-- One operation on one of any number of sets, which are told apart by numbers. -/
inductive Op where
  | withCapacity (r capacity : Nat)
  | full (r n : Nat)
  | ofList (r : Nat) (is : List Nat)
  | insertAll (r : Nat) (is : List Nat)
  | copy (r q : Nat)
  | clear (r : Nat)
  | insert (r i : Nat)
  | erase (r i : Nat)
  | union (r q : Nat)

/-- The set that an operation writes, and what it writes there. -/
def Op.result (sets : Nat → BitSet) : Op → Nat × BitSet
  | withCapacity r capacity => (r, .withCapacity capacity)
  | full r n => (r, .full n)
  | ofList r is => (r, .ofList is)
  | insertAll r is => (r, (sets r).insertAll is)
  | copy r q => (r, sets q)
  | clear r => (r, (sets r).clear)
  | insert r i => (r, ((sets r).insert i).1)
  | erase r i => (r, ((sets r).erase i).1)
  | union r q => (r, ((sets r).union (sets q)).1)

def Op.meaning (sets : Nat → Finset Nat) : Op → Nat × Finset Nat
  | withCapacity r _ => (r, ∅)
  | full r n => (r, .range n)
  | ofList r is => (r, is.toFinset)
  | insertAll r is => (r, sets r ∪ is.toFinset)
  | copy r q => (r, sets q)
  | clear r => (r, ∅)
  | insert r i => (r, Insert.insert i (sets r))
  | erase r i => (r, (sets r).erase i)
  | union r q => (r, sets r ∪ sets q)

/-- All sets after some operations, with the writes of each operation given. -/
def after {α : Type} (writes : (Nat → α) → Op → Nat × α) (blank : α) (ops : List Op) : Nat → α :=
  ops.foldl (fun sets op => Function.update sets (writes sets op).1 (writes sets op).2)
    fun _ => blank

/-- The bit sets after some operations. All of them are empty at first. -/
def bitSets (ops : List Op) : Nat → BitSet := after Op.result .empty ops

def finiteSets (ops : List Op) : Nat → Finset Nat := after Op.meaning ∅ ops

/-- The bit set stands for the finite set, and its count is right. -/
structure Denotes (s : BitSet) (S : Finset Nat) : Prop where
  counted : s.Exact
  members : s.members = S

theorem denotes_empty : empty.Denotes ∅ := by
  refine ⟨exact_of_blank rfl contains_empty, ?_⟩
  ext i
  simp

theorem denotes_result {sets : Nat → BitSet} {meanings : Nat → Finset Nat}
    (h : ∀ r, (sets r).Denotes (meanings r)) (op : Op) :
    (op.result sets).1 = (op.meaning meanings).1 ∧
      (op.result sets).2.Denotes (op.meaning meanings).2 := by
  have hmem : ∀ r i, (sets r).contains i = true ↔ i ∈ meanings r := by
    intro r i
    rw [← (h r).members, mem_members]
  cases op with
  | withCapacity r capacity =>
    refine ⟨rfl, exact_of_blank rfl (contains_withCapacity capacity), ?_⟩
    ext i
    simp [Op.result, Op.meaning]
  | full r n =>
    refine ⟨rfl, exact_full n, ?_⟩
    ext i
    simp only [Op.result, Op.meaning, mem_members, contains_full, Finset.mem_range]
  | ofList r is =>
    refine ⟨rfl, denotes_empty.counted.insertAll is, ?_⟩
    ext i
    simp [Op.result, Op.meaning, ofList, contains_insertAll]
  | insertAll r is =>
    refine ⟨rfl, (h r).counted.insertAll is, ?_⟩
    ext i
    simp only [Op.result, Op.meaning, mem_members, contains_insertAll, hmem, Finset.mem_union,
      List.mem_toFinset, or_comm]
  | copy r q => exact ⟨rfl, h q⟩
  | clear r =>
    refine ⟨rfl, exact_of_blank rfl (contains_clear (sets r)), ?_⟩
    ext i
    simp [Op.result, Op.meaning, contains_clear]
  | insert r i =>
    refine ⟨rfl, (h r).counted.insert i, ?_⟩
    ext j
    simp only [Op.result, Op.meaning, mem_members, contains_insert, hmem, Finset.mem_insert]
  | erase r i =>
    refine ⟨rfl, (h r).counted.erase i, ?_⟩
    ext j
    simp only [Op.result, Op.meaning, mem_members, contains_erase, hmem, Finset.mem_erase]
  | union r q =>
    refine ⟨rfl, (h r).counted.union (sets q), ?_⟩
    simp only [Op.result, Op.meaning, members_union, (h r).members, (h q).members]

theorem denotes_history (ops : List Op) (r : Nat) : (bitSets ops r).Denotes (finiteSets ops r) := by
  unfold bitSets finiteSets after
  -- The operations may start from any sets that stand for each other.
  have hstart : ∀ r : Nat, ((fun _ => empty) r).Denotes ((fun _ => ∅) r) := fun _ => denotes_empty
  generalize (fun _ : Nat => empty) = sets at hstart ⊢
  generalize (fun _ : Nat => (∅ : Finset Nat)) = meanings at hstart ⊢
  induction ops generalizing sets meanings with
  | nil => exact hstart r
  | cons op ops ih =>
    refine ih _ _ fun q => ?_
    obtain ⟨htarget, hresult⟩ := denotes_result hstart op
    beta_reduce
    rw [← htarget]
    by_cases hq : q = (op.result sets).1
    · rw [hq, Function.update_self, Function.update_self]
      exact hresult
    · rw [Function.update_of_ne hq, Function.update_of_ne hq]
      exact hstart q

/-- After any operations, each bit set stands for the finite set that the same operations give. -/
theorem history_denotes (ops : List Op) (r : Nat) :
    (∀ i, (bitSets ops r).contains i = true ↔ i ∈ finiteSets ops r) ∧
    (bitSets ops r).count = (bitSets ops r).totalOnes ∧
    (bitSets ops r).size = (finiteSets ops r).card ∧
    ((bitSets ops r).isEmpty = true ↔ finiteSets ops r = ∅) ∧
    (∀ i, ((bitSets ops r).insert i).2 = true ↔
      Insert.insert i (finiteSets ops r) ≠ finiteSets ops r) ∧
    (∀ i, ((bitSets ops r).erase i).2 = true ↔ (finiteSets ops r).erase i ≠ finiteSets ops r) ∧
    ∀ q, (((bitSets ops r).union (bitSets ops q)).2 = true ↔
        finiteSets ops r ∪ finiteSets ops q ≠ finiteSets ops r) ∧
      ((bitSets ops r == bitSets ops q) = true ↔ finiteSets ops r = finiteSets ops q) := by
  have h := denotes_history ops
  have hmem : ∀ i, (bitSets ops r).contains i = true ↔ i ∈ finiteSets ops r := by
    intro i
    rw [← (h r).members, mem_members]
  have hsize : (bitSets ops r).count = (finiteSets ops r).card := by
    rw [← (h r).members]
    exact exact_iff.mp (h r).counted
  refine ⟨hmem, (h r).counted, hsize, ?_, ?_, ?_, ?_⟩
  · rw [isEmpty, hsize, beq_iff_eq, Finset.card_eq_zero]
  · intro i
    rw [insert_flag, ne_eq, Finset.insert_eq_self, ← hmem]
    simp
  · intro i
    rw [erase_flag, ne_eq, Finset.erase_eq_self, hmem, not_not]
  · intro q
    constructor
    · rw [union_flag, (h r).members, (h q).members, ne_eq, Finset.union_eq_left]
    · rw [beq_iff (h r).counted (h q).counted, (h r).members, (h q).members]

end FlowFacts.BitSet

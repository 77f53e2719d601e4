import FlowFacts.Proofs.BitSetHistory
import Mathlib.Data.List.Sort

/-! # Going through a bit set

A cursor gives the members of a bit set one at a time: the lowest one of the word at hand, or of the
next word that has ones. Whatever has been done to the set, it gives every member once, in ascending
order, and then comes to an end.
-/

namespace FlowFacts.BitSet

/-! ## The lowest one -/

theorem toBitVec_ne_zero {w : UInt64} (h : w ≠ 0) : w.toBitVec ≠ 0 := fun hw =>
  h (UInt64.toBitVec_inj.mp hw)

theorem lowest_lt {w : UInt64} (h : w ≠ 0) : lowest w < 64 :=
  BitVec.lt_def.mp (BitVec.ctz_lt_iff_ne_zero.mpr (toBitVec_ne_zero h))

theorem bit_lowest {w : UInt64} (h : w ≠ 0) : bit w (lowest w) = true :=
  BitVec.getLsbD_true_ctz_of_ne_zero (toBitVec_ne_zero h)

theorem bit_below_lowest {w : UInt64} {j : Nat} (h : j < lowest w) : bit w j = false :=
  BitVec.getLsbD_false_of_lt_ctz h

theorem exists_toNat_eq {w : UInt64} (h : w ≠ 0) :
    ∃ q, w.toNat = 2 ^ (lowest w + 1) * q + 2 ^ lowest w := by
  have hmod : w.toNat % 2 ^ (lowest w + 1) = 2 ^ lowest w := by
    apply Nat.eq_of_testBit_eq
    intro j
    rw [Nat.testBit_mod_two_pow, ← bit_eq_testBit, Nat.testBit_two_pow]
    rcases Nat.lt_trichotomy j (lowest w) with hj | rfl | hj
    · simp [bit_below_lowest hj, Nat.ne_of_gt hj]
    · simp [bit_lowest h]
    · simp [Nat.not_lt.mpr hj, Nat.ne_of_lt hj]
  refine ⟨w.toNat / 2 ^ (lowest w + 1), ?_⟩
  have hdiv := Nat.div_add_mod w.toNat (2 ^ (lowest w + 1))
  rw [hmod] at hdiv
  exact hdiv.symm

theorem bit_dropLowest {w : UInt64} (h : w ≠ 0) (j : Nat) :
    bit (dropLowest w) j = (bit w j && decide (j ≠ lowest w)) := by
  obtain ⟨q, hq⟩ := exists_toNat_eq h
  have hpos : 1 ≤ 2 ^ lowest w := Nat.one_le_two_pow
  have hlt : 2 ^ lowest w < 2 ^ (lowest w + 1) := Nat.pow_lt_pow_succ (by decide)
  have hle : (1 : UInt64) ≤ w := by
    rw [UInt64.le_iff_toNat_le, UInt64.toNat_one]
    omega
  have hpred : (w - 1).toNat = 2 ^ (lowest w + 1) * q + (2 ^ lowest w - 1) := by
    rw [UInt64.toNat_sub_of_le _ _ hle, UInt64.toNat_one]
    omega
  rw [bit_eq_testBit, bit_eq_testBit, dropLowest, UInt64.toNat_and, Nat.testBit_and, hpred, hq,
    Nat.testBit_two_pow_mul_add q hlt, Nat.testBit_two_pow_mul_add q (by omega)]
  -- The word and the one before it share their higher part. The lower parts have no ones in common.
  split
  · rw [Nat.testBit_two_pow, Nat.testBit_two_pow_sub_one]
    by_cases hj : j = lowest w
    · simp [hj]
    · simp [Ne.symm hj]
  · have hj : j ≠ lowest w := by omega
    simp [hj]

/-! ## Members of a word -/

/-- The members for which the ones of the word with the number `k` stand. -/
def membersOf (k : Nat) (w : UInt64) : List Nat := ((List.range 64).filter (bit w)).map (64 * k + ·)

theorem membersOf_zero (k : Nat) : membersOf k 0 = [] := by
  simp [membersOf, bit_zero]

theorem membersOf_eq_cons {w : UInt64} (h : w ≠ 0) (k : Nat) :
    membersOf k w = (64 * k + lowest w) :: membersOf k (dropLowest w) := by
  have hascending : ∀ v, ((List.range 64).filter (bit v)).Pairwise (· < ·) := fun v =>
    List.pairwise_lt_range.filter _
  have hones : (List.range 64).filter (bit w) =
      lowest w :: (List.range 64).filter (bit (dropLowest w)) := by
    apply (hascending w).eq_of_mem_iff
    · refine List.pairwise_cons.mpr ⟨fun j hj => ?_, hascending _⟩
      rw [List.mem_filter, bit_dropLowest h, Bool.and_eq_true, decide_eq_true_eq] at hj
      have hnot : ¬ j < lowest w := fun hlt => by simp [bit_below_lowest hlt] at hj
      omega
    · intro j
      rw [List.mem_cons, List.mem_filter, List.mem_filter, bit_dropLowest h, List.mem_range]
      by_cases hj : j = lowest w
      · simp [hj, bit_lowest h, lowest_lt h]
      · simp [hj]
  rw [membersOf, hones]
  rfl

/-! ## The rest of the way -/

def Cursor.left (c : Cursor) : List Nat :=
  membersOf c.index c.rest ++
    ((List.range c.set.words.size).drop (c.index + 1)).flatMap fun k => membersOf k (c.set.word k)

theorem left_cursor (s : BitSet) : s.cursor.left = s.toList := by
  have htoList : s.toList = (List.range s.words.size).flatMap fun k => membersOf k (s.word k) := rfl
  rw [htoList, Cursor.left, cursor]
  cases hsize : s.words.size with
  | zero => simp [word_of_size_le (Nat.le_of_eq hsize), membersOf_zero]
  | succ n => simp [List.range_succ_eq_map]

namespace Cursor

theorem next?_spec (c : Cursor) :
    match c.next? with
    | some (i, d) => c.left = i :: d.left
    | none => c.left = [] := by
  fun_induction next? c with
  | case1 c hrest =>
    simp only [left, membersOf_eq_cons hrest]
    rfl
  | case2 c hrest hnext ih =>
    have hskip : c.left =
        ({ c with index := c.index + 1, rest := c.set.word (c.index + 1) } : Cursor).left := by
      rw [not_not] at hrest
      simp only [left, hrest, membersOf_zero, List.nil_append]
      rw [List.drop_eq_getElem_cons (by simpa using hnext), List.flatMap_cons, List.getElem_range]
    rw [hskip]
    exact ih
  | case3 c hrest hlast =>
    rw [not_not] at hrest
    have hdrop : (List.range c.set.words.size).drop (c.index + 1) = [] := by
      rw [List.drop_eq_nil_iff, List.length_range]
      omega
    simp [left, hrest, membersOf_zero, hdrop]

theorem left_of_next? {c d : Cursor} {i : Nat} (h : c.next? = some (i, d)) :
    c.left = i :: d.left := by
  have := c.next?_spec
  rwa [h] at this

/-- The members from a place on, taken one after another until there is none. -/
def drain (c : Cursor) : List Nat :=
  match h : c.next? with
  | some (i, d) =>
    have : d.left.length < c.left.length := by simp [left_of_next? h]
    i :: d.drain
  | none => []
termination_by c.left.length

theorem drain_eq_left (c : Cursor) : c.drain = c.left := by
  fun_induction drain c with
  | case1 c i d h _ ih => rw [ih, left_of_next? h]
  | case2 c h =>
    have hspec := c.next?_spec
    rw [h] at hspec
    exact hspec.symm

end Cursor

theorem drain_cursor (s : BitSet) : s.cursor.drain = s.toList := by
  rw [Cursor.drain_eq_left, left_cursor]

/-! ## All members -/

theorem toList_full (n : Nat) : (full n).toList = List.range n := by
  apply (toList_ascending _).eq_of_mem_iff List.pairwise_lt_range
  intro i
  rw [mem_toList, contains_full, List.mem_range]

theorem ofList_toList_beq {s : BitSet} (h : s.Exact) : (ofList s.toList == s) = true := by
  rw [ofList, beq_iff (denotes_empty.counted.insertAll _) h, members_eq_iff]
  intro i
  rw [Bool.eq_iff_iff, contains_insertAll, mem_toList, contains_empty]
  simp

/-- Going through a bit set gives each of its members once, in ascending order. -/
theorem drain_lists_members (ops : List Op) (r : Nat) :
    (bitSets ops r).cursor.drain.Pairwise (· < ·) ∧
    (∀ i, i ∈ (bitSets ops r).cursor.drain ↔ (bitSets ops r).contains i = true) ∧
    (bitSets ops r).cursor.drain.length = (bitSets ops r).size ∧
    (bitSets ops r).cursor.drain = (bitSets ops r).toList ∧
    (ofList (bitSets ops r).cursor.drain == bitSets ops r) = true ∧
    ∀ n, (full n).cursor.drain = List.range n := by
  have hexact := (denotes_history ops r).counted
  simp only [drain_cursor, true_and]
  refine ⟨toList_ascending _, fun i => mem_toList, ?_, ofList_toList_beq hexact, toList_full⟩
  rw [size, exact_iff.mp hexact, card_eq_length]

end FlowFacts.BitSet

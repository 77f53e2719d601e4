import FlowFacts.BitSet
import Mathlib.Algebra.Group.Nat.Defs

/-! # The members of a bit set

What each operation does to `contains`. Storage and the cached count play no part here.
-/

namespace FlowFacts.BitSet

/-! ## Bits of a word -/

theorem bit_eq_testBit (w : UInt64) (j : Nat) : bit w j = w.toNat.testBit j := by
  simp only [bit, UInt64.toNat, BitVec.testBit_toNat]

theorem bit_zero (j : Nat) : bit 0 j = false := by
  simp [bit]

theorem bit_or (v w : UInt64) (j : Nat) : bit (v ||| w) j = (bit v j || bit w j) := by
  simp [bit]

theorem bit_diff (v w : UInt64) (j : Nat) (hj : j < 64) :
    bit (v &&& ~~~w) j = (bit v j && !bit w j) := by
  simp [bit, hj]

theorem bit_ones (j : Nat) (hj : j < 64) : bit (~~~0) j = true := by
  rw [bit, UInt64.toBitVec_not, BitVec.getLsbD_not]
  simp [hj]

theorem mask_toNat (i : Nat) (hi : i < 64) : (mask i).toNat = 2 ^ i := by
  have h64 : i.toUInt64.toNat = i := by
    simp only [Nat.toUInt64, UInt64.toNat_ofNat']
    omega
  have hlt : 2 ^ i < 2 ^ 64 := Nat.pow_lt_pow_right (by omega) hi
  have hone : UInt64.toNat 1 = 1 := rfl
  rw [mask, UInt64.toNat_shiftLeft, h64, Nat.mod_eq_of_lt hi, Nat.shiftLeft_eq, hone, Nat.one_mul,
    Nat.mod_eq_of_lt hlt]

theorem bit_mask (i j : Nat) (hi : i < 64) : bit (mask i) j = decide (j = i) := by
  rw [bit_eq_testBit, mask_toNat i hi, Nat.testBit_two_pow]
  simp only [eq_comm]

theorem bit_below (i j : Nat) (hi : i < 64) : bit (mask i - 1) j = decide (j < i) := by
  have hpos : 1 ≤ 2 ^ i := Nat.one_le_two_pow
  have hle : (1 : UInt64) ≤ mask i := by
    rw [UInt64.le_iff_toNat_le, mask_toNat i hi]
    exact hpos
  rw [bit_eq_testBit, UInt64.toNat_sub_of_le _ _ hle, mask_toNat i hi]
  exact Nat.testBit_two_pow_sub_one i j

/-! ## Words of a set -/

theorem word_grow (words : Array UInt64) (n k c : Nat) :
    (⟨grow words n, c⟩ : BitSet).word k = words.getD k 0 := by
  simp only [word, grow, Array.getD_eq_getD_getElem?, Array.getElem?_append]
  split
  · rfl
  · rename_i hk
    have hnone : words[k]? = none := Array.getElem?_eq_none (by omega)
    rw [hnone, Array.getElem?_replicate]
    split <;> rfl

theorem word_modify (words : Array UInt64) (f : UInt64 → UInt64) (i k c : Nat)
    (hi : i < words.size) :
    (⟨words.modify i f, c⟩ : BitSet).word k =
      if k = i then f (words.getD k 0) else words.getD k 0 := by
  simp only [word, Array.getD_eq_getD_getElem?, Array.getElem?_modify]
  by_cases h : k = i
  · subst h
    simp [Array.getElem?_eq_getElem hi]
  · simp [h, Ne.symm h]

theorem word_lt_size {s : BitSet} {i : Nat} (h : s.contains i = true) :
    i / 64 < s.words.size := by
  rcases Nat.lt_or_ge (i / 64) s.words.size with hk | hk
  · exact hk
  · rw [contains, word, Array.getD_eq_getD_getElem?, Array.getElem?_eq_none hk] at h
    simp [bit_zero] at h

/-! ## Members after an operation -/

@[simp] theorem contains_empty (i : Nat) : empty.contains i = false := by
  simp [contains, word, empty, bit_zero]

@[simp] theorem contains_withCapacity (n i : Nat) : (withCapacity n).contains i = false := by
  simp only [contains, word, withCapacity, Array.getD_eq_getD_getElem?, Array.getElem?_replicate]
  split <;> exact bit_zero _

theorem contains_insert (s : BitSet) (i j : Nat) :
    (s.insert i).1.contains j = true ↔ j = i ∨ s.contains j = true := by
  unfold insert
  split
  · rename_i h
    constructor
    · exact Or.inr
    · rintro (rfl | hj)
      · exact h
      · exact hj
  · have hsize : i / 64 < (grow s.words (i / 64 + 1)).size := by
      simp only [grow, Array.size_append, Array.size_replicate]
      omega
    have hgrow := word_grow s.words (i / 64 + 1) (j / 64) 0
    simp only [word] at hgrow
    simp only [contains]
    rw [word_modify _ _ _ _ _ hsize, hgrow]
    by_cases hk : j / 64 = i / 64
    · rw [if_pos hk, bit_or, bit_mask _ _ (by omega), Bool.or_eq_true, decide_eq_true_eq, or_comm]
      have : j % 64 = i % 64 ↔ j = i := by omega
      rw [this]
      rfl
    · have : j ≠ i := fun h => hk (by rw [h])
      rw [if_neg hk]
      simp [this, word]

theorem insert_flag (s : BitSet) (i : Nat) : (s.insert i).2 = !s.contains i := by
  unfold insert
  split <;> simp_all

theorem contains_erase (s : BitSet) (i j : Nat) :
    (s.erase i).1.contains j = true ↔ j ≠ i ∧ s.contains j = true := by
  unfold erase
  split
  · rename_i h
    simp only [contains]
    rw [word_modify _ _ _ _ _ (word_lt_size h)]
    by_cases hk : j / 64 = i / 64
    · have : j % 64 = i % 64 ↔ j = i := by omega
      rw [if_pos hk, bit_diff _ _ _ (by omega), bit_mask _ _ (by omega), Bool.and_eq_true, and_comm]
      simp only [Bool.not_eq_true', decide_eq_false_iff_not, this, word]
    · have : j ≠ i := fun h => hk (by rw [h])
      rw [if_neg hk]
      simp [this, word]
  · rename_i h
    constructor
    · intro hj
      exact ⟨fun he => h (he ▸ hj), hj⟩
    · exact And.right

theorem contains_full (n i : Nat) : (full n).contains i = true ↔ i < n := by
  have hlow : i % 64 < 64 := by omega
  simp only [contains, word, full, Array.getD_eq_getD_getElem?]
  split
  · rw [Array.getElem?_replicate]
    split
    · simp only [Option.getD_some, bit_ones _ hlow, true_iff]
      omega
    · simp only [Option.getD_none, bit_zero, Bool.false_eq_true, false_iff]
      omega
  · rw [Array.getElem?_push, Array.getElem?_replicate, Array.size_replicate]
    split
    · rename_i h
      simp only [Option.getD_some, bit_below _ _ (by omega : n % 64 < 64), decide_eq_true_eq]
      omega
    · split
      · simp only [Option.getD_some, bit_ones _ hlow, true_iff]
        omega
      · simp only [Option.getD_none, bit_zero, Bool.false_eq_true, false_iff]
        omega

theorem mem_toList {s : BitSet} {i : Nat} : i ∈ s.toList ↔ s.contains i = true := by
  simp only [toList, List.mem_flatMap, List.mem_map, List.mem_filter, List.mem_range]
  constructor
  · rintro ⟨k, hk, j, ⟨hj, hbit⟩, rfl⟩
    have hdiv : (64 * k + j) / 64 = k := by omega
    have hmod : (64 * k + j) % 64 = j := by omega
    rw [contains, hdiv, hmod]
    exact hbit
  · intro h
    refine ⟨i / 64, word_lt_size h, i % 64, ⟨by omega, h⟩, by omega⟩

theorem toList_ascending (s : BitSet) : s.toList.Pairwise (· < ·) := by
  unfold toList
  rw [List.pairwise_flatMap]
  refine ⟨fun k _ => ?_, ?_⟩
  · apply List.Pairwise.map (R := (· < ·))
    · intro i j h
      omega
    · exact List.pairwise_lt_range.filter _
  · -- Every number of a word is below every number of a later word.
    apply List.pairwise_lt_range.imp
    intro k l hkl x hx y hy
    simp only [List.mem_map, List.mem_filter, List.mem_range] at hx hy
    obtain ⟨i, ⟨hi, -⟩, rfl⟩ := hx
    obtain ⟨j, -, rfl⟩ := hy
    omega

end FlowFacts.BitSet

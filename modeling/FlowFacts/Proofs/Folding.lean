import FlowFacts.Proofs.Constants
import Mathlib.Data.Int.Bitwise
import Mathlib.Data.Int.ModEq

/-! # Folding is integer arithmetic

What the operators compute on 32-bit integers, said over all integers: sums, differences, products
and quotients are cut to the last 32 bits, and everything else is exact.
-/

namespace FlowFacts

/-! ## Thirty-two bits of an integer -/

/-- The number in the range of 32-bit integers that has the same last 32 bits. -/
def wrap (z : ℤ) : ℤ := z.bmod (2 ^ 32)

theorem eq_wrap_iff {w z : ℤ} :
    w = wrap z ↔ -2 ^ 31 ≤ w ∧ w < 2 ^ 31 ∧ w ≡ z [ZMOD 2 ^ 32] := by
  unfold wrap Int.ModEq
  rw [Int.bmod_def]
  split <;> omega

theorem toInt_eq_wrap_iff {a : Int32} {z : ℤ} :
    a.toInt = wrap z ↔ a.toInt ≡ z [ZMOD 2 ^ 32] := by
  rw [eq_wrap_iff]
  exact ⟨fun h => h.2.2, fun h => ⟨a.le_toInt, a.toInt_lt, h⟩⟩

theorem toNat_modEq_toInt (a : Int32) : (a.toBitVec.toNat : ℤ) ≡ a.toInt [ZMOD 2 ^ 32] := by
  rw [← Int32.toInt_toBitVec, BitVec.toInt_eq_toNat_cond]
  unfold Int.ModEq
  split <;> omega

theorem toNat_eq_emod (a : Int32) : (a.toBitVec.toNat : ℤ) = a.toInt % 2 ^ 32 := by
  have hlt := a.toBitVec.isLt
  rw [← toNat_modEq_toInt a, Int.emod_eq_of_lt (by omega) (by omega)]

/-! ## Bits -/

theorem eq_of_testBit_eq {x y : ℤ} (h : ∀ i, x.testBit i = y.testBit i) : x = y := by
  -- A number and a negative one differ in the bits above both.
  have hsigns : ∀ m n : ℕ, ¬ ∀ i, m.testBit i = !n.testBit i := by
    intro m n h
    have hm : m.testBit (m + n) = false :=
      Nat.testBit_lt_two_pow (Nat.lt_of_le_of_lt (Nat.le_add_right m n) Nat.lt_two_pow_self)
    have hn : n.testBit (m + n) = false :=
      Nat.testBit_lt_two_pow (Nat.lt_of_le_of_lt (Nat.le_add_left n m) Nat.lt_two_pow_self)
    simpa [hm, hn] using h (m + n)
  cases x with
  | ofNat m =>
    cases y with
    | ofNat n => exact congrArg Int.ofNat (Nat.eq_of_testBit_eq h)
    | negSucc n => exact absurd h (hsigns m n)
  | negSucc m =>
    cases y with
    | ofNat n => exact absurd (fun i => (h i).symm) (hsigns n m)
    | negSucc n =>
      exact congrArg Int.negSucc (Nat.eq_of_testBit_eq fun i => Bool.not_inj (h i))

theorem testBit_toInt (a : Int32) (i : ℕ) :
    a.toInt.testBit i = a.toBitVec.getLsbD (min i 31) := by
  have hlt := a.toBitVec.isLt
  rw [← Int32.toInt_toBitVec, BitVec.toInt_eq_toNat_cond, BitVec.getLsbD]
  generalize a.toBitVec.toNat = n at hlt
  split
  · rename_i hhalf
    show n.testBit i = _
    by_cases hi : i ≤ 31
    · rw [min_eq_left hi]
    · have hle : 2 ^ 31 ≤ 2 ^ i := Nat.pow_le_pow_right (by omega) (by omega)
      rw [min_eq_right (by omega), Nat.testBit_lt_two_pow (by omega),
        Nat.testBit_lt_two_pow (by omega)]
  · -- The bits of a negative number are those of a natural number, turned over.
    rename_i hhalf
    have hneg : (n : ℤ) - (2 ^ 32 : ℕ) = Int.negSucc (2 ^ 32 - (n + 1)) := by omega
    rw [hneg]
    show (!(2 ^ 32 - (n + 1)).testBit i) = _
    rw [Nat.testBit_two_pow_sub_succ hlt]
    by_cases hi : i ≤ 31
    · rw [min_eq_left hi, decide_eq_true (by omega)]
      simp
    · have hbit : n.testBit 31 = true := by
        rw [Nat.testBit_eq_decide_div_mod_eq, decide_eq_true_iff]
        omega
      rw [min_eq_right (by omega), hbit, decide_eq_false (by omega)]
      rfl

theorem toInt_or (a b : Int32) : (a ||| b).toInt = a.toInt.lor b.toInt := by
  apply eq_of_testBit_eq
  intro i
  simp [testBit_toInt, Int.testBit_lor]

theorem toInt_and (a b : Int32) : (a &&& b).toInt = a.toInt.land b.toInt := by
  apply eq_of_testBit_eq
  intro i
  simp [testBit_toInt, Int.testBit_land]

theorem toInt_xor (a b : Int32) : (a ^^^ b).toInt = a.toInt.xor b.toInt := by
  apply eq_of_testBit_eq
  intro i
  simp [testBit_toInt, Int.testBit_lxor]

/-! ## Shifts -/

/-- By how many places a shift moves. -/
def places (b : ℤ) : ℕ := (b % 32).toNat

theorem fdiv_places (z b : ℤ) : z.fdiv (2 ^ places b) = z / 2 ^ places b :=
  Int.fdiv_eq_ediv_of_nonneg z (Int.pow_pos (by decide)).le

theorem toNat_smod (b : Int32) : (b.toBitVec.smod 32).toNat = places b.toInt := by
  have hint : (b.toBitVec.smod 32).toInt = b.toInt % 32 := by
    rw [BitVec.toInt_smod, Int32.toInt_toBitVec]
    exact Int.fmod_eq_emod_of_nonneg _ (by decide)
  rw [BitVec.toInt_eq_toNat_cond] at hint
  have hlt := (b.toBitVec.smod 32).isLt
  unfold places
  split at hint <;> omega

theorem toNat_umod (b : Int32) : (b.toBitVec % 32).toNat = places b.toInt := by
  have h := toNat_eq_emod b
  rw [BitVec.toNat_umod, places]
  show b.toBitVec.toNat % 32 = _
  omega

theorem toInt_shiftLeft (a b : Int32) :
    (a <<< b).toInt = wrap (a.toInt * 2 ^ places b.toInt) := by
  rw [toInt_eq_wrap_iff, ← toNat_smod]
  generalize hk : (b.toBitVec.smod 32).toNat = k
  have hbits : ((a <<< b).toBitVec.toNat : ℤ) = a.toBitVec.toNat * 2 ^ k % 2 ^ 32 := by
    rw [Int32.toBitVec_shiftLeft, BitVec.shiftLeft_eq', hk, BitVec.toNat_shiftLeft,
      Nat.shiftLeft_eq]
    push_cast
    rfl
  calc (a <<< b).toInt
    _ ≡ (a <<< b).toBitVec.toNat [ZMOD 2 ^ 32] := (toNat_modEq_toInt _).symm
    _ = a.toBitVec.toNat * 2 ^ k % 2 ^ 32 := hbits
    _ ≡ a.toBitVec.toNat * 2 ^ k [ZMOD 2 ^ 32] := Int.mod_modEq _ _
    _ ≡ a.toInt * 2 ^ k [ZMOD 2 ^ 32] := (toNat_modEq_toInt a).mul_right _

theorem toInt_shiftRight (a b : Int32) :
    (a >>> b).toInt = a.toInt.fdiv (2 ^ places b.toInt) := by
  rw [← Int32.toInt_toBitVec, Int32.toBitVec_shiftRight, BitVec.toInt_sshiftRight', toNat_smod,
    Int.shiftRight_eq_div_pow, Int32.toInt_toBitVec, fdiv_places]
  push_cast
  rfl

theorem toInt_ushiftRight (a b : Int32) :
    (a.toUInt32 >>> b.toUInt32).toInt32.toInt =
      wrap ((a.toInt % 2 ^ 32).fdiv (2 ^ places b.toInt)) := by
  have hbits : ((a.toUInt32 >>> b.toUInt32).toInt32.toBitVec.toNat : ℤ) =
      (a.toInt % 2 ^ 32).fdiv (2 ^ places b.toInt) := by
    have hshift : (a.toUInt32 >>> b.toUInt32).toInt32.toBitVec =
        a.toBitVec >>> (b.toBitVec % 32) := rfl
    rw [hshift, BitVec.ushiftRight_eq', BitVec.toNat_ushiftRight, toNat_umod,
      Nat.shiftRight_eq_div_pow, fdiv_places, ← toNat_eq_emod]
    push_cast
    rfl
  rw [toInt_eq_wrap_iff, ← hbits]
  exact (toNat_modEq_toInt _).symm

/-! ## Operators -/

namespace Operator

/-- The result over the integers. Quotients are cut toward zero, a remainder has the sign of the
dividend, and bits are those of two's complement. -/
def overInts (op : Operator) (a b : ℤ) : ℤ :=
  match op with
  | add => wrap (a + b)
  | sub => wrap (a - b)
  | mul => wrap (a * b)
  | div => wrap (a.tdiv b)
  | rem => a.tmod b
  | or => a.lor b
  | and => a.land b
  | xor => a.xor b
  | shl => wrap (a * 2 ^ places b)
  | shr => a.fdiv (2 ^ places b)
  | ushr => wrap ((a % 2 ^ 32).fdiv (2 ^ places b))
  | eq => if a = b then 1 else 0
  | ne => if a ≠ b then 1 else 0
  | lt => if a < b then 1 else 0
  | le => if a ≤ b then 1 else 0
  | gt => if a > b then 1 else 0
  | ge => if a ≥ b then 1 else 0

theorem toInt_truth (b : Bool) : (truth b).toInt = if b = true then 1 else 0 := by
  cases b <;> rfl

theorem toInt_of_eval? {op : Operator} {a b c : Int32} (h : op.eval? a b = some c) :
    c.toInt = op.overInts a.toInt b.toInt := by
  cases op with
  | div | rem =>
    simp only [eval?] at h
    split at h
    · cases h
    · cases h
      simp [overInts, wrap]
  | add | sub | mul =>
    cases h
    simp [overInts, wrap]
  | or =>
    cases h
    exact toInt_or a b
  | and =>
    cases h
    exact toInt_and a b
  | xor =>
    cases h
    exact toInt_xor a b
  | shl =>
    cases h
    exact toInt_shiftLeft a b
  | shr =>
    cases h
    exact toInt_shiftRight a b
  | ushr =>
    cases h
    exact toInt_ushiftRight a b
  | eq | ne =>
    cases h
    simp [overInts, toInt_truth, Int32.toInt_inj]
  | lt | le | gt | ge =>
    cases h
    simp [overInts, toInt_truth, Int32.lt_iff_toInt_lt, Int32.le_iff_toInt_le]

theorem eval?_comm {op : Operator} (h : op ∈ [add, mul, or, and, xor]) (a b : Int32) :
    op.eval? a b = op.eval? b a := by
  simp only [List.mem_cons, List.not_mem_nil, or_false] at h
  rcases h with rfl | rfl | rfl | rfl | rfl
  · exact congrArg some (Int32.add_comm a b)
  · exact congrArg some (Int32.mul_comm a b)
  · exact congrArg some (Int32.or_comm a b)
  · exact congrArg some (Int32.and_comm a b)
  · exact congrArg some (Int32.xor_comm a b)

end Operator

theorem div_mul_add_mod (a b : Int32) : a / b * b + a % b = a := by
  -- A quotient that does not fit loses a multiple of 2^32, and so does the product.
  rw [← Int32.toInt_inj, Int32.toInt_add, Int32.toInt_mul, Int32.toInt_div, Int32.toInt_mod,
    Int.bmod_mul_bmod, Int.bmod_add_bmod, Int.tdiv_mul_add_tmod]
  exact Int32.toInt_bmod_size a

/-! ## Constants -/

namespace Constants

/-- Constants fold to what the operator gives over the integers, unless it divides by zero. -/
theorem evaluate_exact {f : ConstFact} {x y : Var} {a b : Int32} (hx : f.get x = .constant a)
    (hy : f.get y = .constant b) :
    (∀ op, ((op = .div ∨ op = .rem) ∧ b = 0 → evaluate (.binary op x y) f = .undefined) ∧
      (¬ ((op = .div ∨ op = .rem) ∧ b = 0) → ∃ c, evaluate (.binary op x y) f = .constant c ∧
        c.toInt = op.overInts a.toInt b.toInt)) ∧
    (∀ op ∈ [Operator.add, .mul, .or, .and, .xor],
      evaluate (.binary op x y) f = evaluate (.binary op y x) f) ∧
    (b ≠ 0 → combine .add (combine .mul (evaluate (.binary .div x y) f) (f.get y))
      (evaluate (.binary .rem x y) f) = f.get x) := by
  have hdivides : ∀ op : Operator, op.divides = true ↔ op = .div ∨ op = .rem := by
    intro op
    cases op <;> simp [Operator.divides]
  simp only [evaluate, hx, hy, combine_constants]
  refine ⟨fun op => ⟨?_, ?_⟩, ?_, ?_⟩
  · rintro ⟨hop, hb⟩
    rw [Operator.eval?_eq_none_iff.mpr ⟨(hdivides op).mpr hop, hb⟩]
  · intro hnot
    obtain ⟨c, hc⟩ : ∃ c, op.eval? a b = some c := by
      rw [← Option.ne_none_iff_exists', ne_eq, Operator.eval?_eq_none_iff, hdivides]
      exact hnot
    rw [hc]
    exact ⟨c, rfl, Operator.toInt_of_eval? hc⟩
  · intro op hop
    rw [Operator.eval?_comm hop]
  · intro hb
    simp only [Operator.eval?, if_neg hb, combine_constants]
    rw [div_mul_add_mod]

theorem evaluate_min_exact :
    ∃ f : ConstFact, f.get ⟨0⟩ = .constant (-2 ^ 31) ∧ f.get ⟨1⟩ = .constant (-1) ∧
      (∃ c, evaluate (.binary .div ⟨0⟩ ⟨1⟩) f = .constant c ∧ c.toInt = -2 ^ 31) ∧
      combine .add (combine .mul (evaluate (.binary .div ⟨0⟩ ⟨1⟩) f) (f.get ⟨1⟩))
        (evaluate (.binary .rem ⟨0⟩ ⟨1⟩) f) = .constant (-2 ^ 31) := by
  let f : ConstFact := .ofList [(⟨0⟩, .constant (-2 ^ 31)), (⟨1⟩, .constant (-1))]
  have hx : f.get ⟨0⟩ = .constant (-2 ^ 31) := by decide
  have hy : f.get ⟨1⟩ = .constant (-1) := by decide
  obtain ⟨hfold, -, hmade⟩ := evaluate_exact hx hy
  exact ⟨f, hx, hy, (hfold .div).2 (by decide), (hmade (by decide)).trans hx⟩

end Constants

end FlowFacts

import Mathlib.Data.Nat.Bitwise
import Mathlib.Data.BitVec

/-!
# Blocks of addresses, as a base and a mask

A base and a mask stand for the addresses that agree with the base on the bits of the mask. If the
mask has all bits from some bit on, the addresses are an aligned block, and shifting the mask to the
left makes a larger block of it. `widen` shifts a mask until two addresses agree on it. The new
block has all addresses of the old one (`Covers.widen`). At the end, what masks pick is stated with
numbers.
-/

namespace VariabilityTestbed.AddressMasks

open BitVec

variable {w k n : ℕ} {a v x base m m' size : BitVec w}

/-- The address is in the block. -/
def Covers (base m a : BitVec w) : Prop := a &&& m = base

/-- With each bit the mask has the bit above. -/
def Upward (m : BitVec w) : Prop :=
  ∀ i, i + 1 < w → m.getLsbD i = true → m.getLsbD (i + 1) = true

theorem and_and_of_sub (hsub : m' &&& m = m') (x : BitVec w) : x &&& m &&& m' = x &&& m' := by
  rw [BitVec.and_assoc, BitVec.and_comm m, hsub]

/-- A mask with fewer bits makes a larger block. -/
theorem Covers.and (h : Covers base m a) (hsub : m' &&& m = m') : Covers (base &&& m') m' a := by
  rw [Covers] at h ⊢
  rw [← h, and_and_of_sub hsub]

theorem Upward.and (h : Upward m) (h' : Upward m') : Upward (m &&& m') := by
  intro i hi hbit
  simp only [getLsbD_and, Bool.and_eq_true] at hbit ⊢
  exact ⟨h i hi hbit.1, h' i hi hbit.2⟩

theorem Upward.shiftLeft_one (h : Upward m) : Upward (m <<< 1) := by
  intro i hi hbit
  simp only [getLsbD_shiftLeft, Bool.and_eq_true, decide_eq_true_eq,
    Bool.not_eq_true', decide_eq_false_iff_not] at hbit ⊢
  refine ⟨⟨hi, by omega⟩, ?_⟩
  have hnext := h (i - 1) (by omega) hbit.2
  rwa [show i - 1 + 1 = i + 1 - 1 by omega] at hnext

theorem Upward.shiftLeft_one_and (h : Upward m) : m <<< 1 &&& m = m <<< 1 := by
  refine eq_of_getLsbD_eq fun i hi => ?_
  rw [getLsbD_and, Bool.and_eq_left_iff_imp, getLsbD_shiftLeft]
  simp only [Bool.and_eq_true, decide_eq_true_eq, Bool.not_eq_true', decide_eq_false_iff_not]
  intro hbit
  have hnext := h (i - 1) (by omega) hbit.2
  rwa [show i - 1 + 1 = i by omega] at hnext

/-! ### Widening -/

/-- Shift a mask to the left until it has no bit of `x`, at most `n` times. -/
def widen (x : BitVec w) : ℕ → BitVec w → BitVec w
  | 0, m => m
  | n + 1, m => if x &&& m = 0 then m else widen x n (m <<< 1)

theorem widen_cases (x : BitVec w) (n : ℕ) (m : BitVec w) :
    x &&& widen x n m = 0 ∨ widen x n m = m <<< n := by
  induction n generalizing m with
  | zero => exact .inr (shiftLeft_zero m).symm
  | succ n ih =>
    rw [widen]
    split
    next h => exact .inl h
    next =>
      rw [Nat.add_comm n 1, shiftLeft_add]
      exact ih (m <<< 1)

/-- **After as many steps as there are bits, widening has come to its end.** -/
theorem and_widen_eq_zero (x m : BitVec w) : x &&& widen x w m = 0 := by
  rcases widen_cases x w m with h | h
  · exact h
  · rw [h, shiftLeft_eq_zero (Nat.le_refl w), and_zero]
    rfl

theorem Upward.widen (h : Upward m) (x : BitVec w) (n : ℕ) :
    Upward (widen x n m) ∧ AddressMasks.widen x n m &&& m = AddressMasks.widen x n m := by
  induction n generalizing m with
  | zero => exact ⟨h, BitVec.and_self⟩
  | succ n ih =>
    rw [AddressMasks.widen]
    split
    · exact ⟨h, BitVec.and_self⟩
    · obtain ⟨hup, hsub⟩ := ih h.shiftLeft_one
      refine ⟨hup, ?_⟩
      rw [← hsub, BitVec.and_assoc, h.shiftLeft_one_and]

/-! ### Aligned blocks -/

/-- The mask of an aligned block of a size that is a power of two. -/
theorem getLsbD_not_sub_one (hsize : size.toNat = 2 ^ k) (i : ℕ) :
    (~~~(size - 1)).getLsbD i = (decide (i < w) && decide (k ≤ i)) := by
  have hpos : 0 < 2 ^ k := Nat.two_pow_pos k
  have hlt : 2 ^ k < 2 ^ w := hsize ▸ size.isLt
  have hone : (1 : BitVec w).toNat = 1 := Nat.mod_eq_of_lt (show 1 < 2 ^ w by omega)
  have hsub : (size - 1).toNat = 2 ^ k - 1 := by
    have hsum : 2 ^ w - 1 + 2 ^ k = 2 ^ w + (2 ^ k - 1) := by omega
    rw [toNat_sub, hone, hsize, hsum, Nat.add_mod_left, Nat.mod_eq_of_lt (by omega)]
  rw [getLsbD_not, BitVec.getLsbD, hsub, Nat.testBit_two_pow_sub_one, ← decide_not]
  simp only [Nat.not_lt]

theorem upward_not_sub_one (hsize : size.toNat = 2 ^ k) : Upward (~~~(size - 1)) := by
  intro i hi hbit
  rw [getLsbD_not_sub_one hsize] at hbit ⊢
  simp only [Bool.and_eq_true, decide_eq_true_eq] at hbit ⊢
  omega

/-- **Two addresses are in one aligned block** if they agree on its mask. -/
theorem and_not_sub_one_eq_iff (hsize : size.toNat = 2 ^ k) :
    a &&& ~~~(size - 1) = v &&& ~~~(size - 1) ↔ a.toNat / 2 ^ k = v.toNat / 2 ^ k := by
  have hbit : ∀ i, (a &&& ~~~(size - 1)).getLsbD i = (v &&& ~~~(size - 1)).getLsbD i ↔
      (k ≤ i → a.toNat.testBit i = v.toNat.testBit i) := by
    intro i
    have hge : ∀ b : BitVec w, ¬ i < w → b.toNat.testBit i = false := fun b hi =>
      getLsbD_of_ge b i (Nat.not_lt.mp hi)
    rw [getLsbD_and, getLsbD_and, getLsbD_not_sub_one hsize]
    by_cases hi : i < w <;> by_cases hk : k ≤ i <;> simp [hi, hk, BitVec.getLsbD, hge]
  constructor
  · intro h
    refine Nat.eq_of_testBit_eq fun i => ?_
    rw [Nat.testBit_div_two_pow, Nat.testBit_div_two_pow]
    exact (hbit (i + k)).mp (by rw [h]) (Nat.le_add_left k i)
  · intro h
    refine eq_of_getLsbD_eq fun i _ => (hbit i).mpr fun hk => ?_
    have hi := congrArg (fun b => b.testBit (i - k)) h
    simp only [Nat.testBit_div_two_pow, Nat.sub_add_cancel hk] at hi
    exact hi

/-! ### Fields of a word, as numbers -/

theorem toNat_and_mask {s : ℕ} (hm : m.toNat = 2 ^ s * (2 ^ k - 1)) (x : BitVec w) :
    (x &&& m).toNat = 2 ^ s * (x.toNat / 2 ^ s % 2 ^ k) := by
  refine Nat.eq_of_testBit_eq fun i => ?_
  rw [toNat_and, hm, Nat.testBit_and, Nat.testBit_two_pow_mul, Nat.testBit_two_pow_mul,
    Nat.testBit_mod_two_pow, Nat.testBit_two_pow_sub_one, Nat.testBit_div_two_pow]
  by_cases hi : s ≤ i
  · rw [Nat.sub_add_cancel hi]
    simp [hi, Bool.and_comm]
  · simp [hi]

theorem toNat_shiftRight_and_mask {s : ℕ} (hm : m.toNat = 2 ^ s * (2 ^ k - 1))
    (x : BitVec w) (n : ℕ) :
    ((x >>> n) &&& m).toNat = 2 ^ s * (x.toNat / 2 ^ (n + s) % 2 ^ k) := by
  rw [toNat_and_mask hm, toNat_ushiftRight, Nat.shiftRight_eq_div_pow, Nat.div_div_eq_div_mul,
    ← Nat.pow_add]

/-- The high bits of one word and a smaller word. -/
theorem toNat_and_or (hk : k ≤ w) (hm : m.toNat = 2 ^ k * (2 ^ (w - k) - 1)) (a : BitVec w)
    (hx : x.toNat < 2 ^ k) : ((a &&& m) ||| x).toNat = a.toNat / 2 ^ k * 2 ^ k + x.toNat := by
  have hlt : a.toNat / 2 ^ k < 2 ^ (w - k) := by
    rw [Nat.div_lt_iff_lt_mul (Nat.two_pow_pos k), ← Nat.pow_add, Nat.sub_add_cancel hk]
    exact a.isLt
  rw [toNat_or, toNat_and_mask hm, Nat.mod_eq_of_lt hlt,
    ← Nat.two_pow_add_eq_or_of_lt hx, Nat.mul_comm]

end VariabilityTestbed.AddressMasks

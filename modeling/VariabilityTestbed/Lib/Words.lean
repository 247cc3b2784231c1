import Mathlib.Data.UInt

/-!
# Words and counters

Numbers are converted to `int`, which keeps their low bits. Counters are `UInt64`, and what they
count is a natural number. The lemmas here move between the two: a counter that has been added to
shows the count modulo `2 ^ 64`, and two counts that differ by a multiple of `2 ^ 64` look the same.
-/

namespace VariabilityTestbed.Words

/-- The conversion to `int`. -/
def toInt (x : ℤ) : ℤ := x.bmod (2 ^ 32)

theorem ofNat_eq_ofNat_iff (a b : ℕ) :
    UInt64.ofNat a = UInt64.ofNat b ↔ a % 2 ^ 64 = b % 2 ^ 64 := by
  rw [← UInt64.toNat_inj, UInt64.toNat_ofNat', UInt64.toNat_ofNat']

theorem ofNat_eq_zero_iff (m : ℕ) : UInt64.ofNat m = 0 ↔ m % 2 ^ 64 = 0 :=
  ofNat_eq_ofNat_iff m 0

/-- Adding a count is invisible exactly when it is a multiple of `2 ^ 64`. -/
theorem add_ofNat_eq_self_iff (a : UInt64) (m : ℕ) : a + UInt64.ofNat m = a ↔ m % 2 ^ 64 = 0 := by
  rw [← ofNat_eq_zero_iff]
  constructor
  · intro h
    grind
  · intro h
    rw [h]
    grind

/-- So is taking it away. -/
theorem sub_ofNat_eq_self_iff (a : UInt64) (m : ℕ) : a - UInt64.ofNat m = a ↔ m % 2 ^ 64 = 0 := by
  rw [← ofNat_eq_zero_iff]
  constructor
  · intro h
    grind
  · intro h
    rw [h]
    grind

theorem sum_map_add {ι : Type*} (l : List ι) (f g : ι → UInt64) :
    (l.map fun i => f i + g i).sum = (l.map f).sum + (l.map g).sum := by
  induction l with
  | nil => rfl
  | cons i l ih =>
    simp only [List.map_cons, List.sum_cons, ih]
    grind

/-- A sum of counters shows the sum of the counts. -/
theorem sum_map_ofNat {ι : Type*} (l : List ι) (f : ι → ℕ) :
    (l.map fun i => UInt64.ofNat (f i)).sum = UInt64.ofNat (l.map f).sum := by
  induction l with
  | nil => rfl
  | cons i l ih => simp only [List.map_cons, List.sum_cons, ih, UInt64.ofNat_add]

theorem toInt64_inj {a b : UInt64} : a.toInt64 = b.toInt64 ↔ a = b :=
  ⟨fun h => by simpa using congrArg Int64.toUInt64 h, fun h => by rw [h]⟩

/-- Two 32-bit halves, put together. -/
theorem toNat_hi_or_lo (x y : UInt64) :
    ((y >>> 32).toUInt32.toUInt64 <<< 32 ||| x.toUInt32.toUInt64).toNat =
      y.toNat / 2 ^ 32 * 2 ^ 32 + x.toNat % 2 ^ 32 := by
  have hx := x.toNat_lt
  have hy := y.toNat_lt
  simp only [UInt64.toNat_or, UInt64.toNat_shiftLeft, UInt32.toNat_toUInt64, UInt64.toNat_toUInt32,
    UInt64.toNat_shiftRight, UInt64.reduceToNat, Nat.reduceMod]
  rw [Nat.shiftLeft_eq, Nat.shiftRight_eq_div_pow, Nat.mod_eq_of_lt (by omega),
    Nat.mod_eq_of_lt (by omega), ← Nat.shiftLeft_eq, ← Nat.shiftLeft_add_eq_or_of_lt (by omega),
    Nat.shiftLeft_eq]

/-- They make up the 64-bit value they were cut from. -/
theorem hi_or_lo (x : UInt64) :
    (x >>> 32).toUInt32.toUInt64 <<< 32 ||| x.toUInt32.toUInt64 = x := by
  apply UInt64.toNat_inj.mp
  rw [toNat_hi_or_lo]
  omega

end VariabilityTestbed.Words

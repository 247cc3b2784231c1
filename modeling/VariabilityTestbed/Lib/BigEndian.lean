import Mathlib.Data.UInt

/-!
# Big-endian numbers

`beBytes w v` is the number `v` in `w` bytes, the most significant first, and `ofBe` is the number
that bytes stand for. The two are inverse to each other as far as the width goes: `ofBe_beBytes`
keeps the number modulo `256 ^ w`, and `beBytes_ofBe` loses nothing.
-/

namespace VariabilityTestbed.BigEndian

/-- The number `v` in `w` bytes. -/
def beBytes : ℕ → ℕ → List UInt8
  | 0, _ => []
  | w + 1, v => UInt8.ofNat (v / 256 ^ w) :: beBytes w v

/-- The number that bytes stand for. -/
def ofBe : List UInt8 → ℕ
  | [] => 0
  | b :: l => b.toNat * 256 ^ l.length + ofBe l

@[simp]
theorem length_beBytes (w v : ℕ) : (beBytes w v).length = w := by
  induction w with
  | zero => rfl
  | succ w ih => rw [beBytes, List.length_cons, ih]

theorem beBytes_add_mul (w v k : ℕ) : beBytes w (v + k * 256 ^ w) = beBytes w v := by
  induction w generalizing k with
  | zero => rfl
  | succ w ih =>
    have hmul : k * 256 ^ (w + 1) = k * 256 * 256 ^ w := by rw [pow_succ', mul_assoc]
    rw [beBytes, beBytes, hmul, ih, Nat.add_mul_div_right _ _ (Nat.pow_pos (by decide))]
    congr 1
    rw [← UInt8.toNat_inj, UInt8.toNat_ofNat', UInt8.toNat_ofNat']
    omega

theorem ofBe_beBytes (w v : ℕ) : ofBe (beBytes w v) = v % 256 ^ w := by
  induction w with
  | zero => simp [beBytes, ofBe, Nat.mod_one]
  | succ w ih =>
    have hbyte : (UInt8.ofNat (v / 256 ^ w)).toNat = v / 256 ^ w % 256 := UInt8.toNat_ofNat'
    rw [beBytes, ofBe, ih, length_beBytes, hbyte, Nat.mod_pow_succ, add_comm, mul_comm]

theorem ofBe_beBytes_of_lt {w v : ℕ} (h : v < 256 ^ w) : ofBe (beBytes w v) = v := by
  rw [ofBe_beBytes, Nat.mod_eq_of_lt h]

theorem ofBe_lt (l : List UInt8) : ofBe l < 256 ^ l.length := by
  induction l with
  | nil => exact Nat.one_pos
  | cons b l ih =>
    have hb : b.toNat < 256 := b.toNat_lt
    calc ofBe (b :: l) = b.toNat * 256 ^ l.length + ofBe l := rfl
      _ < b.toNat * 256 ^ l.length + 256 ^ l.length := by omega
      _ = (b.toNat + 1) * 256 ^ l.length := by rw [Nat.succ_mul]
      _ ≤ 256 * 256 ^ l.length := Nat.mul_le_mul_right _ hb
      _ = 256 ^ (b :: l).length := by rw [List.length_cons, pow_succ']

theorem ofBe_append (l l' : List UInt8) : ofBe (l ++ l') = ofBe l * 256 ^ l'.length + ofBe l' := by
  induction l with
  | nil => simp [ofBe]
  | cons b l ih =>
    rw [List.cons_append, ofBe, ofBe, ih, List.length_append, pow_add, Nat.add_mul,
      mul_assoc, add_assoc]

theorem beBytes_ofBe (l : List UInt8) : beBytes l.length (ofBe l) = l := by
  induction l with
  | nil => rfl
  | cons b l ih =>
    have hlt := ofBe_lt l
    rw [List.length_cons, beBytes, ofBe, add_comm, beBytes_add_mul, ih,
      Nat.add_mul_div_right _ _ (Nat.pow_pos (by decide)), Nat.div_eq_of_lt hlt, Nat.zero_add,
      UInt8.ofNat_toNat]

end VariabilityTestbed.BigEndian

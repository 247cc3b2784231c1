import Mathlib.Data.List.Basic
import Mathlib.Data.Nat.Bitwise

/-!
# Tables of bits

A table of bits is kept in bytes: bit `j` is bit `j % 8` of byte `j / 8`. Code that sets ranges of
bits writes one byte at a time, some of them under a mask. Each write *adds* a set of bits to the
table (`Adds`), and the writes of a loop add what they add together.
-/

namespace VariabilityTestbed.BitTables

open List

variable {tab tab' tab'' : List UInt8} {P Q : ℕ → Prop} {i : ℕ}

/-- Bit `j` of a table. Behind its end there are no bits. -/
def bit (tab : List UInt8) (j : ℕ) : Bool := ((tab[j / 8]?).getD 0).toNat.testBit (j % 8)

/-- Replace a byte, which has to be in the table. -/
def setByte (tab : List UInt8) (i : ℕ) (f : UInt8 → UInt8) : Option (List UInt8) :=
  (tab[i]?).map fun b => tab.set i (f b)

/-- The bits of a table are those of another one and those that `P` holds for. -/
structure Adds (tab tab' : List UInt8) (P : ℕ → Prop) : Prop where
  length_eq : tab'.length = tab.length
  bit_iff : ∀ j, bit tab' j = true ↔ bit tab j = true ∨ P j

theorem Adds.refl (tab : List UInt8) : Adds tab tab fun _ => False :=
  ⟨rfl, fun _ => (or_false _).to_iff.symm⟩

theorem Adds.trans (h : Adds tab tab' P) (h' : Adds tab' tab'' Q) :
    Adds tab tab'' fun j => P j ∨ Q j :=
  ⟨h'.length_eq.trans h.length_eq, fun j => by rw [h'.bit_iff, h.bit_iff, or_assoc]⟩

theorem Adds.congr (h : Adds tab tab' P) (hPQ : ∀ j, P j ↔ Q j) : Adds tab tab' Q :=
  ⟨h.length_eq, fun j => by rw [h.bit_iff, hPQ]⟩

/-- A byte is replaced by one with more bits. -/
theorem exists_setByte (hi : i < tab.length) {f : UInt8 → UInt8} {P : ℕ → Prop}
    (hf : ∀ b : UInt8, ∀ k < 8, (f b).toNat.testBit k = true ↔ b.toNat.testBit k = true ∨ P k) :
    ∃ tab', setByte tab i f = some tab' ∧ Adds tab tab' fun j => j / 8 = i ∧ P (j % 8) := by
  refine ⟨tab.set i (f tab[i]), ?_, length_set, fun j => ?_⟩
  · rw [setByte, getElem?_eq_getElem hi, Option.map_some]
  · by_cases hj : i = j / 8
    · subst hj
      simp only [bit, getElem?_set_self hi, getElem?_eq_getElem hi, Option.getD_some, true_and]
      exact hf _ _ (Nat.mod_lt j (by decide))
    · simp only [bit, getElem?_set_ne hj, Ne.symm hj, false_and, or_false]

/-- Bits are set under a mask. -/
theorem exists_setByte_or (hi : i < tab.length) (mask : UInt8) :
    ∃ tab', setByte tab i (· ||| mask) = some tab' ∧
      Adds tab tab' fun j => j / 8 = i ∧ mask.toNat.testBit (j % 8) = true := by
  refine exists_setByte (P := fun k => mask.toNat.testBit k = true) hi fun b k _ => ?_
  rw [UInt8.toNat_or, Nat.testBit_or, Bool.or_eq_true]

/-- All bits of a byte are set. -/
theorem exists_setByte_all (hi : i < tab.length) :
    ∃ tab', setByte tab i (fun _ => 0xff) = some tab' ∧ Adds tab tab' fun j => j / 8 = i := by
  have hall : ∀ k < 8, (0xff : UInt8).toNat.testBit k = true := by decide
  obtain ⟨tab', hset, hadds⟩ := exists_setByte (P := fun _ => True) hi
    (f := fun _ => 0xff) fun b k hk => iff_of_true (hall k hk) (.inr trivial)
  exact ⟨tab', hset, hadds.congr fun j => and_iff_left trivial⟩

/-- The mask of the bits from `k` on. -/
theorem testBit_from {k b : ℕ} (hk : k < 8) (hb : b < 8) :
    ((0xff : UInt8) <<< UInt8.ofNat k).toNat.testBit b = decide (k ≤ b) := by
  have hall : ∀ k < 8, ∀ b < 8,
      ((0xff : UInt8) <<< UInt8.ofNat k).toNat.testBit b = decide (k ≤ b) := by
    decide
  exact hall k hk b hb

/-- The mask of the bits below `k`. -/
theorem testBit_below {k b : ℕ} (hk : k < 8) (hb : b < 8) :
    (~~~((0xff : UInt8) <<< UInt8.ofNat k)).toNat.testBit b = decide (b < k) := by
  have hall : ∀ k < 8, ∀ b < 8,
      (~~~((0xff : UInt8) <<< UInt8.ofNat k)).toNat.testBit b = decide (b < k) := by
    decide
  exact hall k hk b hb

/-- There are no bits in a table of zeros. -/
@[simp] theorem bit_replicate_zero (n j : ℕ) : bit (replicate n 0) j = false := by
  rw [bit, getElem?_replicate]
  split <;> exact Nat.zero_testBit _

/-- **A table is its bits.** -/
theorem ext_bit (hlen : tab.length = tab'.length) (hbit : ∀ j, bit tab j = bit tab' j) :
    tab = tab' := by
  refine ext_getElem hlen fun i hi hi' => UInt8.toNat_inj.mp (Nat.eq_of_testBit_eq fun k => ?_)
  by_cases hk : k < 8
  · have hdiv : (8 * i + k) / 8 = i := by omega
    have hmod : (8 * i + k) % 8 = k := by omega
    have h := hbit (8 * i + k)
    simpa only [bit, hdiv, hmod, getElem?_eq_getElem hi, getElem?_eq_getElem hi', Option.getD_some]
      using h
  · have hlt : ∀ b : UInt8, b.toNat < 2 ^ k := fun b =>
      b.toNat_lt.trans_le (Nat.pow_le_pow_right (by decide) (Nat.not_lt.mp hk))
    rw [Nat.testBit_lt_two_pow (hlt _), Nat.testBit_lt_two_pow (hlt _)]

end VariabilityTestbed.BitTables

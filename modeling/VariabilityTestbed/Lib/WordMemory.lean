import Mathlib.Algebra.Ring.Nat

/-!
# Words in a memory of bytes

A memory has a byte at each address of 32 bits, and addresses wrap around. Words have the byte of
the lowest weight first. `words` are those from an address on, so that a stack that grows down is
`words` from its pointer: `words_push` says that a push puts a word in front.
-/

namespace VariabilityTestbed.WordMemory

abbrev Memory := BitVec 32 → BitVec 8

variable {m : Memory} {a b v : BitVec 32} {n : ℕ}

/-- The word at `a`. -/
def load (m : Memory) (a : BitVec 32) : BitVec 32 := m (a + 3) ++ m (a + 2) ++ m (a + 1) ++ m a

/-- `v` is written at `a`. -/
def store (m : Memory) (a v : BitVec 32) : Memory := fun x =>
  if (x - a).toNat < 4 then v.extractLsb' (8 * (x - a).toNat) 8 else m x

/-- The `n` words from `a` on. -/
def words (m : Memory) (a : BitVec 32) : ℕ → List (BitVec 32)
  | 0 => []
  | n + 1 => load m a :: words m (a + 4) n

section

variable (m : Memory) (a : BitVec 32)

@[simp] theorem length_words (n : ℕ) : (words m a n).length = n := by
  induction n generalizing a with
  | zero => rfl
  | succ n ih => rw [words, List.length_cons, ih]

theorem words_add (n k : ℕ) :
    words m a (n + k) = words m a n ++ words m (a + 4 * BitVec.ofNat 32 n) k := by
  induction n generalizing a with
  | zero => simp [words]
  | succ n ih =>
    have hadd : a + 4 + 4 * BitVec.ofNat 32 n = a + 4 * BitVec.ofNat 32 (n + 1) := by
      rw [BitVec.ofNat_add]
      bv_omega
    rw [Nat.add_right_comm, words, words, ih, hadd]
    rfl

theorem store_add (v : BitVec 32) {k : BitVec 32} (hk : k.toNat < 4) :
    store m a v (a + k) = v.extractLsb' (8 * k.toNat) 8 := by
  have hsub : a + k - a = k := by
    rw [BitVec.add_comm, BitVec.add_sub_cancel]
  rw [store, hsub, if_pos hk]

theorem load_store (v : BitVec 32) : load (store m a v) a = v := by
  have h0 : store m a v a = v.extractLsb' 0 8 := by
    have h := store_add m a v (show (0#32).toNat < 4 by decide)
    rwa [BitVec.add_zero] at h
  have h1 : store m a v (a + 1) = v.extractLsb' 8 8 := store_add m a v (by decide)
  have h2 : store m a v (a + 2) = v.extractLsb' 16 8 := store_add m a v (by decide)
  have h3 : store m a v (a + 3) = v.extractLsb' 24 8 := store_add m a v (by decide)
  rw [load, h0, h1, h2, h3]
  ext i hi
  rw [← BitVec.getLsbD_eq_getElem (x := v) hi]
  simp only [BitVec.getElem_append, BitVec.getElem_extractLsb']
  split
  · rw [Nat.zero_add]
  · split
    · exact congrArg v.getLsbD (by omega)
    · split <;> exact congrArg v.getLsbD (by omega)

end

/-- A word that does not overlap stays. -/
theorem load_store_of_disjoint (h : 4 ≤ (b - a).toNat) (h' : (b - a).toNat + 4 ≤ 2 ^ 32) :
    load (store m a v) b = load m b := by
  have hstay : ∀ k : BitVec 32, k.toNat < 4 → store m a v (b + k) = m (b + k) := by
    intro k hk
    exact if_neg (by bv_omega)
  have h0 : store m a v b = m b := by
    have h := hstay 0#32 (by decide)
    rwa [BitVec.add_zero] at h
  rw [load, load, h0, hstay 1 (by decide), hstay 2 (by decide), hstay 3 (by decide)]

theorem words_store_of_disjoint (h : 4 ≤ (b - a).toNat) (h' : (b - a).toNat + 4 * n ≤ 2 ^ 32) :
    words (store m a v) b n = words m b n := by
  induction n generalizing b with
  | zero => rfl
  | succ n ih =>
    rw [words, words, load_store_of_disjoint h (by omega)]
    cases n with
    | zero => rfl
    | succ n => rw [ih (by bv_omega) (by bv_omega)]

/-- **A word is pushed.** -/
theorem words_push (m : Memory) (sp v : BitVec 32) (h : 4 * (n + 1) ≤ 2 ^ 32) :
    words (store m (sp - 4) v) (sp - 4) (n + 1) = v :: words m sp n := by
  have hsp : sp - 4 + 4 = sp := BitVec.sub_add_cancel sp 4
  have hdist : (sp - (sp - 4)).toNat = 4 := by bv_omega
  rw [words, load_store, hsp, words_store_of_disjoint (by omega) (by omega)]

end VariabilityTestbed.WordMemory

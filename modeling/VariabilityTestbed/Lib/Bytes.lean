import Mathlib.Data.List.Basic

/-!
# Blocks of cells in a memory

A memory is a function from addresses. `storeBytes` writes a list of cells from an address on, and
`loadBytes` reads as many as are asked for. Code that copies a block in pieces is compared with code
that copies it at once by `storeBytes_append` and `loadBytes_add`.
-/

namespace VariabilityTestbed.Bytes

open List

variable {α : Type*} {m : ℕ → α} {p k : ℕ} {bs : List α}

/-- Write `bs` from `p` on. -/
def storeBytes (m : ℕ → α) (p : ℕ) (bs : List α) : ℕ → α := fun q =>
  if p ≤ q then (bs[q - p]?).getD (m q) else m q

/-- The `n` cells from `p` on. -/
def loadBytes (m : ℕ → α) (p n : ℕ) : List α := (List.range n).map fun k => m (p + k)

@[simp] theorem storeBytes_nil : storeBytes m p [] = m := by
  funext q
  simp [storeBytes]

theorem storeBytes_add {b : α} (h : bs[k]? = some b) : storeBytes m p bs (p + k) = b := by
  rw [storeBytes, if_pos (Nat.le_add_right p k), Nat.add_sub_cancel_left, h]
  rfl

/-- A cell is as before, or one of those written. -/
theorem storeBytes_eq_or (m : ℕ → α) (p : ℕ) (bs : List α) (q : ℕ) :
    storeBytes m p bs q = m q ∨ ∃ k, bs[k]? = some (storeBytes m p bs q) ∧ q = p + k := by
  by_cases hle : p ≤ q
  · cases hk : bs[q - p]? with
    | none =>
      left
      rw [storeBytes, if_pos hle, hk]
      rfl
    | some b =>
      right
      have hq : q = p + (q - p) := by omega
      exact ⟨q - p, by rw [hk, hq, storeBytes_add hk], hq⟩
  · exact .inl (if_neg hle)

/-- Of two blocks of one size at one place the later one stays. -/
theorem storeBytes_storeBytes {cs : List α} (h : bs.length = cs.length) :
    storeBytes (storeBytes m p bs) p cs = storeBytes m p cs := by
  funext q
  by_cases hq : p ≤ q
  · by_cases hlt : q - p < cs.length
    · simp only [storeBytes, if_pos hq, getElem?_eq_getElem hlt, Option.getD_some]
    · have hbs : bs[q - p]? = none := getElem?_eq_none (by omega)
      have hcs : cs[q - p]? = none := getElem?_eq_none (by omega)
      simp only [storeBytes, if_pos hq, hbs, hcs, Option.getD_none]
  · simp only [storeBytes, if_neg hq]

/-- **Two pieces, one after the other.** -/
theorem storeBytes_append (m : ℕ → α) (p : ℕ) (bs cs : List α) :
    storeBytes (storeBytes m p bs) (p + bs.length) cs = storeBytes m p (bs ++ cs) := by
  funext q
  simp only [storeBytes, getElem?_append]
  split_ifs with h1 h2 h3 h4
  · omega
  · rw [getElem?_eq_none (l := bs) (by omega)]
    have hsub : q - (p + bs.length) = q - p - bs.length := by omega
    rw [hsub]
    rfl
  · omega
  · rfl
  · rw [getElem?_eq_none (l := bs) (by omega), getElem?_eq_none (l := cs) (by omega)]
  · rfl

@[simp] theorem length_loadBytes (m : ℕ → α) (p n : ℕ) : (loadBytes m p n).length = n := by
  simp [loadBytes]

theorem loadBytes_add (m : ℕ → α) (p a b : ℕ) :
    loadBytes m p (a + b) = loadBytes m p a ++ loadBytes m (p + a) b := by
  simp [loadBytes, range_add, Nat.add_assoc]

theorem getElem?_loadBytes {n : ℕ} (hk : k < n) : (loadBytes m p n)[k]? = some (m (p + k)) := by
  simp [loadBytes, hk]

/-- What was stored is loaded. -/
theorem loadBytes_storeBytes (m : ℕ → α) (p : ℕ) (bs : List α) :
    loadBytes (storeBytes m p bs) p bs.length = bs := by
  refine ext_getElem? fun k => ?_
  by_cases hk : k < bs.length
  · rw [getElem?_loadBytes hk, storeBytes_add (getElem?_eq_getElem hk), getElem?_eq_getElem hk]
  · rw [getElem?_eq_none (by simpa using hk), getElem?_eq_none (by omega)]

/-- A store elsewhere is not noticed. -/
theorem storeBytes_of_outside (m : ℕ → α) {q : ℕ} (h : q < p ∨ p + bs.length ≤ q) :
    storeBytes m p bs q = m q := by
  rcases storeBytes_eq_or m p bs q with heq | ⟨j, hj, heq⟩
  · exact heq
  · have := (List.getElem?_eq_some_iff.mp hj).1
    omega

theorem storeBytes_replicate (m : ℕ → α) (p n : ℕ) (b : α) (q : ℕ) :
    storeBytes m p (replicate n b) q = if p ≤ q ∧ q < p + n then b else m q := by
  split_ifs with h
  · obtain ⟨k, rfl⟩ := Nat.exists_eq_add_of_le h.1
    exact storeBytes_add (getElem?_replicate_of_lt (by omega))
  · exact storeBytes_of_outside m (by rw [length_replicate]; omega)

theorem loadBytes_storeBytes_of_disjoint (m : ℕ → α) {p q n : ℕ} {bs : List α}
    (h : p + bs.length ≤ q ∨ q + n ≤ p) : loadBytes (storeBytes m p bs) q n = loadBytes m q n := by
  refine map_congr_left fun k hk => storeBytes_of_outside m ?_
  have hlt := mem_range.mp hk
  omega

end VariabilityTestbed.Bytes

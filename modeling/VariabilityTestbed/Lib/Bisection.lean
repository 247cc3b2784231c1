import Mathlib.Order.Lattice

/-!
# Bisection

A search for a key in a sequence that may have the same value more than once. It stops at an entry
with the key, and otherwise at the last entry below the key.
-/

namespace VariabilityTestbed.Bisection

variable {α : Type*} [LinearOrder α]

/-- The search between `lo` and `hi - 1`. It fails if all entries are above the key. -/
def search (v : ℕ → α) (key : α) (lo hi : ℕ) : Option ℕ :=
  if lo < hi then
    let m := (lo + (hi - 1)) / 2
    if v m = key then some m
    else if key < v m then search v key lo m
    else search v key (m + 1) hi
  else if hi = 0 then none else some (hi - 1)
termination_by hi - lo

/-- The search finds the place where the key would be, if the key itself is not there. -/
theorem search_eq {v : ℕ → α} {key : α} {lo hi t : ℕ} (hlo : lo ≤ t + 1) (hhi : t < hi)
    (hbelow : ∀ j ≤ t, v j < key) (habove : ∀ j, t < j → j < hi → key < v j) :
    search v key lo hi = some t := by
  fun_induction search v key lo hi with
  | case1 lo hi hlt m heq =>
    rcases Nat.lt_or_ge t m with hm | hm
    · exact absurd heq (habove m hm (by omega)).ne'
    · exact absurd heq (hbelow m hm).ne
  | case2 lo hi hlt m hne hkey ih =>
    have hm : t < m := by
      by_contra hm
      exact absurd hkey (hbelow m (by omega)).asymm
    exact ih hlo hm fun j hj hjm => habove j hj (by omega)
  | case3 lo hi hlt m hne hkey ih =>
    have hm : m ≤ t := by
      by_contra hm
      exact hkey (habove m (by omega) (by omega))
    exact ih (by omega) hhi habove
  | case4 lo hlt => omega
  | case5 lo hi hlt hne =>
    congr 1
    omega

end VariabilityTestbed.Bisection

import Mathlib.Order.Lattice

/-!
# Climbing to a fixed point

A monotone function on the naturals is applied again and again, from a point that it does not lower,
until nothing changes. If some point above is not raised, then this ends, at the least such point.
-/

namespace VariabilityTestbed.Climbing

/-- `f` is applied until nothing changes. -/
def climb (f : ℕ → ℕ) : ℕ → ℕ → Option ℕ
  | 0, _ => none
  | n + 1, x => if f x = x then some x else climb f n (f x)

variable {f f' : ℕ → ℕ} {n x y b : ℕ}

theorem climb_fixed (h : climb f n x = some y) : f y = y := by
  induction n generalizing x with
  | zero => cases h
  | succ n ih =>
    rw [climb] at h
    split at h
    case isTrue hfix =>
      cases h
      exact hfix
    case isFalse => exact ih h

theorem climb_mono {n' : ℕ} (hn : n ≤ n') (h : climb f n x = some y) : climb f n' x = some y := by
  induction n generalizing n' x with
  | zero => cases h
  | succ n ih =>
    obtain ⟨m, rfl⟩ : ∃ m, n' = m + 1 := ⟨n' - 1, by omega⟩
    rw [climb] at h ⊢
    split at h
    case isTrue hfix => rwa [if_pos hfix]
    case isFalse hfix =>
      rw [if_neg hfix]
      exact ih (by omega) h

/-- More steps find nothing else. -/
theorem climb_unique {n' y' : ℕ} (h : climb f n x = some y) (h' : climb f n' x = some y') :
    y = y' := by
  have hmax := climb_mono (Nat.le_max_left n n') h
  rw [climb_mono (Nat.le_max_right n n') h'] at hmax
  cases hmax
  rfl

/-- A function that agrees up to a point that is not left climbs to the same place. -/
theorem climb_congr (heq : ∀ z ≤ b, f' z = f z) (hb : ∀ z ≤ b, f z ≤ b) (hx : x ≤ b) :
    climb f' n x = climb f n x := by
  induction n generalizing x with
  | zero => rfl
  | succ n ih => rw [climb, climb, heq x hx, ih (hb x hx)]

/-- Climbing below a point that is not raised ends, and not above it. -/
theorem exists_climb (hmono : Monotone f) (hx : x ≤ f x) (hb : f b ≤ b) (hxb : x ≤ b) :
    ∃ y, climb f (b - x + 1) x = some y ∧ x ≤ y ∧ y ≤ b := by
  induction hn : b - x using Nat.strong_induction_on generalizing x with
  | _ n ih =>
    rw [climb]
    by_cases hfix : f x = x
    · exact ⟨x, if_pos hfix, le_rfl, hxb⟩
    · have hlt : x < f x := lt_of_le_of_ne hx (Ne.symm hfix)
      have hfxb : f x ≤ b := (hmono hxb).trans hb
      obtain ⟨y, hy, hxy, hyb⟩ := ih (b - f x) (by omega) (hmono hx) hfxb rfl
      refine ⟨y, ?_, hx.trans hxy, hyb⟩
      rw [if_neg hfix]
      exact climb_mono (by omega) hy

end VariabilityTestbed.Climbing

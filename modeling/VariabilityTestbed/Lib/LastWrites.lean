import Mathlib.Logic.Function.Basic

/-!
# Last writes

Every write names the place that it writes. Behind a list of writes, a place holds the last write to
it, and what it held before if there is none.
-/

namespace VariabilityTestbed.LastWrites

variable {κ σ : Type*} [DecidableEq κ] {place : σ → κ} {f : κ → σ} {l k : List σ}

/-- The last write to a place. -/
def last (place : σ → κ) (l : List σ) (c : κ) : Option σ := (l.filter fun s => place s = c).getLast?

/-- What a place holds behind the writes `l`. -/
def after (place : σ → κ) (f : κ → σ) (l : List σ) (c : κ) : σ := (last place l c).getD (f c)

theorem after_append : after place f (l ++ k) = after place (after place f l) k := by
  funext c
  simp only [after, last, List.filter_append, List.getLast?_append]
  cases (k.filter fun s => place s = c).getLast? <;> simp

theorem after_cons (s : σ) :
    after place f (s :: l) = after place (Function.update f (place s) s) l := by
  have hone : after place f [s] = Function.update f (place s) s := by
    funext c
    by_cases h : place s = c
    · subst h
      simp [after, last]
    · rw [Function.update_of_ne (Ne.symm h)]
      simp [after, last, h]
  rw [← hone, ← after_append]
  rfl

/-- To write the same again changes nothing. -/
theorem after_after : after place (after place f l) l = after place f l := by
  funext c
  simp only [after]
  cases last place l c <;> rfl

end VariabilityTestbed.LastWrites

import Mathlib.Data.List.Infix

/-!
# Runs of a partial step function

A stateful component is a step function `σ → ι → Option σ`: the state before, the operation, and
the state after, with `none` for an operation that has no defined result (an access outside an
array, a failed assertion). A run is the fold of a list of operations.

Three rules carry everything that is proved about runs elsewhere.

* `run_induction` is induction on the *last* operation. The quantities that describe a run
  (how much was counted, which operation came last) are functions of the whole list so far, so
  the predicate it proves may mention the list.
* `Along.forall_prefix` is for an invariant that an operation keeps only under a condition on the
  state before it. `Along.forall_step` and `Along.monotone` are the same for what an operation
  brings about and for a quantity that it does not lower.
* `forall_prefix_iff` turns a property of every state along a run into a condition on each single
  step. It is stated as an equivalence because a step that breaks the property is worth knowing
  exactly.
-/

namespace VariabilityTestbed.Runs

open List Option

variable {σ ι : Type*}

/-- Perform `ops` one after the other, starting from `s`. -/
def run (step : σ → ι → Option σ) (s : σ) : List ι → Option σ
  | [] => some s
  | i :: ops => (step s i).bind fun s' => run step s' ops

variable {step : σ → ι → Option σ}

theorem run_cons (s : σ) (i : ι) (ops : List ι) :
    run step s (i :: ops) = (step s i).bind fun s' => run step s' ops := rfl

theorem run_append (s : σ) (p q : List ι) :
    run step s (p ++ q) = (run step s p).bind fun s' => run step s' q := by
  induction p generalizing s with
  | nil => rfl
  | cons i p ih =>
    rw [cons_append, run_cons, run_cons, bind_assoc]
    exact congrArg _ (funext fun s' => ih s')

/-- The last operation of a run, split off. -/
theorem run_concat (s : σ) (p : List ι) (i : ι) :
    run step s (p ++ [i]) = (run step s p).bind fun s' => step s' i := by
  rw [run_append]
  refine congrArg _ (funext fun s' => ?_)
  rw [run_cons]
  cases step s' i <;> rfl

theorem run_concat_eq_some {s s' : σ} {p : List ι} {i : ι} :
    run step s (p ++ [i]) = some s' ↔ ∃ t, run step s p = some t ∧ step t i = some s' := by
  rw [run_concat, bind_eq_some_iff]

variable {s₀ : σ} {ops : List ι}

/-- **Induction on the last operation.** -/
theorem run_induction {P : List ι → σ → Prop} (hnil : P [] s₀)
    (hstep : ∀ p i s s', run step s₀ p = some s → P p s → step s i = some s' → P (p ++ [i]) s')
    {s : σ} (h : run step s₀ ops = some s) : P ops s := by
  induction ops using reverseRecOn generalizing s with
  | nil =>
    cases h
    exact hnil
  | append_singleton p i ih =>
    obtain ⟨t, ht, hi⟩ := run_concat_eq_some.mp h
    exact hstep p i t s ht (ih ht) hi

variable {P : σ → Prop}

/-- An invariant of the step function holds at the end of every run. -/
theorem run_invariant (hstep : ∀ s i s', P s → step s i = some s' → P s')
    {s : σ} (h₀ : P s₀) (h : run step s₀ ops = some s) : P s :=
  run_induction (P := fun _ s => P s) h₀ (fun _ i s s' _ hP hi => hstep s i s' hP hi) h

/-- Every prefix of a defined run is defined. -/
theorem exists_run_of_prefix {s : σ} {p : List ι} (hp : p <+: ops)
    (h : run step s₀ ops = some s) : ∃ t, run step s₀ p = some t := by
  obtain ⟨q, rfl⟩ := hp
  rw [run_append, bind_eq_some_iff] at h
  exact ⟨h.choose, h.choose_spec.1⟩

/-- A property that every step of a run keeps holds of every state along it. -/
theorem forall_prefix {P : List ι → σ → Prop} (hnil : P [] s₀)
    (hstep : ∀ p i s s', p ++ [i] <+: ops → run step s₀ p = some s → P p s → step s i = some s' →
      P (p ++ [i]) s') :
    ∀ p t, p <+: ops → run step s₀ p = some t → P p t := by
  intro p
  induction p using reverseRecOn with
  | nil =>
    intro t _ ht
    cases ht
    exact hnil
  | append_singleton p i ih =>
    intro t hpi ht
    obtain ⟨u, hu, hi⟩ := run_concat_eq_some.mp ht
    exact hstep p i u t hpi hu (ih u ((prefix_append p [i]).trans hpi) hu) hi

/-- Every operation meets a condition in the state that it happens in. -/
def Along (step : σ → ι → Option σ) (C : σ → ι → Prop) : σ → List ι → Prop
  | _, [] => True
  | s, i :: ops => C s i ∧ ∀ s', step s i = some s' → Along step C s' ops

instance Along.decidable {C : σ → ι → Prop} [∀ s i, Decidable (C s i)] :
    (s : σ) → (ops : List ι) → Decidable (Along step C s ops)
  | _, [] => .isTrue trivial
  | s, i :: ops =>
    have : Decidable (∀ s', step s i = some s' → Along step C s' ops) :=
      match h : step s i with
      | none => .isTrue nofun
      | some t =>
        have : Decidable (Along step C t ops) := Along.decidable t ops
        decidable_of_iff (Along step C t ops) (by simp)
    inferInstanceAs (Decidable (C s i ∧ _))

variable {C : σ → ι → Prop}

/-- **An invariant that operations keep under a condition** holds of every state along a run of such
operations. -/
theorem Along.forall_prefix
    (hstep : ∀ s i s', P s → C s i → step s i = some s' → P s') (h₀ : P s₀)
    (h : Along step C s₀ ops) : ∀ p t, p <+: ops → run step s₀ p = some t → P t := by
  intro p
  induction p generalizing s₀ ops with
  | nil =>
    intro t _ ht
    exact some.inj ht ▸ h₀
  | cons i p ih =>
    intro t hp ht
    cases ops with
    | nil => exact absurd (prefix_nil.mp hp) (cons_ne_nil i p)
    | cons j ops =>
      obtain ⟨rfl, hrest⟩ := cons_prefix_cons.mp hp
      obtain ⟨s₁, hs₁, ht⟩ := bind_eq_some_iff.mp ht
      exact ih (hstep s₀ i s₁ h₀ h.1 hs₁) (h.2 s₁ hs₁) t hrest ht

/-- What each operation of a run meets, read off at one of them. -/
theorem Along.cond (h : Along step C s₀ ops) :
    ∀ p i s, p ++ [i] <+: ops → run step s₀ p = some s → C s i := by
  intro p
  induction p generalizing s₀ ops with
  | nil =>
    intro i s hp hs
    obtain ⟨rest, rfl⟩ := hp
    exact some.inj hs ▸ h.1
  | cons j p ih =>
    intro i s hp hs
    obtain ⟨rest, rfl⟩ := hp
    obtain ⟨s₁, hs₁, hs⟩ := bind_eq_some_iff.mp hs
    exact ih (h.2 s₁ hs₁) i s (prefix_append _ rest) hs

/-- **What single operations bring about under a condition** holds of every operation of a run. -/
theorem Along.forall_step {Q : σ → ι → σ → Prop}
    (hstep : ∀ s i s', P s → C s i → step s i = some s' → P s' ∧ Q s i s')
    (h₀ : P s₀) (h : Along step C s₀ ops) :
    ∀ p i s s', p ++ [i] <+: ops → run step s₀ p = some s → step s i = some s' → Q s i s' := by
  intro p i s s' hp hs hi
  have hP : P s := h.forall_prefix (fun s i s' hP hC hi => (hstep s i s' hP hC hi).1) h₀ p s
    ((prefix_append p [i]).trans hp) hs
  exact (hstep s i s' hP (h.cond p i s hp hs) hi).2

/-- A quantity that no operation lowers is never lower later in a run. -/
theorem Along.monotone {α : Type*} [Preorder α] (f : σ → α)
    (hstep : ∀ s i s', P s → C s i → step s i = some s' → P s' ∧ f s ≤ f s')
    (h₀ : P s₀) (h : Along step C s₀ ops) :
    ∀ p q s t, p <+: q → q <+: ops → run step s₀ p = some s → run step s₀ q = some t →
    f s ≤ f t := by
  intro p q
  induction q using reverseRecOn with
  | nil =>
    intro s t hp _ hs ht
    obtain rfl := prefix_nil.mp hp
    exact (some.inj (hs.symm.trans ht) ▸ le_refl (f s) : f s ≤ f t)
  | append_singleton q i ih =>
    intro s t hp hq hs ht
    obtain ⟨u, hu, hi⟩ := run_concat_eq_some.mp ht
    rcases prefix_concat_iff.mp hp with rfl | hp
    · exact (some.inj (hs.symm.trans ht) ▸ le_refl (f s) : f s ≤ f t)
    · exact (ih s u hp ((prefix_append q [i]).trans hq) hs hu).trans
        (h.forall_step (Q := fun s _ s' => f s ≤ f s') hstep h₀ q i u t hq hu hi)

/-- **A property of every state along a run, as a condition on each step.** `P p s` speaks of the
state `s` reached after the operations `p`; `C s i` speaks of the state before a step and of the
operation. If one step keeps `P` exactly when `C` holds of it, then `P` holds all along a run
exactly when every step of the run meets `C`. -/
theorem forall_prefix_iff {P : List ι → σ → Prop} {s : σ} (hnil : P [] s₀)
    (hstep : ∀ p i s s', p ++ [i] <+: ops → run step s₀ p = some s → step s i = some s' → P p s →
      (P (p ++ [i]) s' ↔ C s i))
    (h : run step s₀ ops = some s) :
    (∀ p t, p <+: ops → run step s₀ p = some t → P p t) ↔
      ∀ p i t, p ++ [i] <+: ops → run step s₀ p = some t → C t i := by
  constructor
  · intro hP p i t hpi ht
    obtain ⟨t', ht'⟩ := exists_run_of_prefix hpi h
    obtain ⟨u, hu, hi⟩ := run_concat_eq_some.mp ht'
    obtain rfl : u = t := some.inj (hu.symm.trans ht)
    have hp : P p u := hP p u ((prefix_append p [i]).trans hpi) hu
    exact (hstep p i u t' hpi hu hi hp).mp (hP (p ++ [i]) t' hpi ht')
  · intro hC
    refine forall_prefix hnil fun p i u t hpi hu hp hi => ?_
    exact (hstep p i u t hpi hu hi hp).mpr (hC p i u hpi hu)

/-! ### Results that are known -/

section Known

variable {α β : Type*} {o : Option α} {Q : α → Prop}

/-- A result that is known as far as `f` looks at it. -/
theorem exists_of_map (f : α → β) (y : β) (h : o.map f = some y)
    (hQ : ∀ s, o = some s → f s = y → Q s) :
    ∃ s, o = some s ∧ Q s := by
  obtain ⟨s, hs, hy⟩ := map_eq_some_iff.mp h
  exact ⟨s, hs, hQ s hs hy⟩

theorem exists_of_isSome (h : o.isSome) (hQ : ∀ s, o = some s → Q s) : ∃ s, o = some s ∧ Q s := by
  obtain ⟨s, hs⟩ := isSome_iff_exists.mp h
  exact ⟨s, hs, hQ s hs⟩

end Known

end VariabilityTestbed.Runs

import Mathlib.Algebra.Order.Group.Int
import Mathlib.Data.List.Pairwise

/-!
# The cycle counter of the guest

`cpu_get_ticks` adds an offset to the counter of the host. If that has gone back since the last call
it makes up for it. The last value, `cpu_ticks_prev`, is not set when the counter is enabled. If the
host goes back between that and the next call, but not behind the last value, the guest sees its
counter go back as well.
-/

namespace VariabilityTestbed.Timers

/-- What `TimersState` has for the counter. -/
structure Ticks where
  prev : ℤ
  offset : ℤ
  enabled : Bool

/-- `cpu_get_ticks`, when the counter of the host is `real`. -/
def cpuGetTicks (s : Ticks) (real : ℤ) : ℤ × Ticks :=
  if s.enabled then
    let offset := if real < s.prev then s.offset + (s.prev - real) else s.offset
    (real + offset, ⟨real, offset, true⟩)
  else (s.offset, s)

/-- `cpu_enable_ticks`. -/
def cpuEnableTicks (s : Ticks) (real : ℤ) : Ticks :=
  if s.enabled then s else { s with offset := s.offset - real, enabled := true }

/-- `cpu_disable_ticks`. -/
def cpuDisableTicks (s : Ticks) (real : ℤ) : Ticks :=
  if s.enabled then
    { (cpuGetTicks s real).2 with offset := (cpuGetTicks s real).1, enabled := false } else s

/-- The calls. -/
inductive TicksCall where
  | get
  | enable
  | disable
  deriving DecidableEq

/-- The state after a call. -/
def Ticks.after (s : Ticks) : TicksCall → ℤ → Ticks
  | .get, real => (cpuGetTicks s real).2
  | .enable, real => cpuEnableTicks s real
  | .disable, real => cpuDisableTicks s real

/-- What the calls of `cpu_get_ticks` return. Each call comes with the counter of the host. -/
def Ticks.values : Ticks → List (TicksCall × ℤ) → List ℤ
  | _, [] => []
  | s, (call, real) :: calls =>
    let rest := (s.after call real).values calls
    if call = .get then (cpuGetTicks s real).1 :: rest else rest

/-- The counter of the host when the ticks were enabled, if they were not read since. -/
def Ticks.unread (s : Ticks) (since : Option ℤ) (call : TicksCall) (real : ℤ) : Option ℤ :=
  if call = .enable then if s.enabled then since else some real else none

/-- When the ticks are read for the first time since they were enabled, the host is not behind where
it was then, or it was not ahead of `cpu_ticks_prev`. -/
def Ticks.Careful : Ticks → Option ℤ → List (TicksCall × ℤ) → Prop
  | _, _, [] => True
  | s, since, (call, real) :: calls =>
    (s.enabled = true → call ≠ .enable → ∀ e ∈ since, e ≤ max s.prev real) ∧
      (s.after call real).Careful (s.unread since call real) calls

/-- No value below this will be returned. -/
def Ticks.floor (s : Ticks) (since : Option ℤ) : ℤ :=
  if s.enabled then since.getD s.prev + s.offset else s.offset

variable {s : Ticks} {since : Option ℤ} {call : TicksCall} {real : ℤ} {calls : List (TicksCall × ℤ)}

theorem cpuGetTicks_enabled (h : s.enabled = true) (real : ℤ) :
    (cpuGetTicks s real).1 = max s.prev real + s.offset := by
  rw [cpuGetTicks, if_pos h]
  dsimp only
  split <;> omega

theorem floor_le_cpuGetTicks (h : s.enabled = true → ∀ e ∈ since, e ≤ max s.prev real) :
    s.floor since ≤ (cpuGetTicks s real).1 := by
  rw [Ticks.floor]
  split
  next hon =>
    rw [cpuGetTicks_enabled hon]
    cases since with
    | none => exact Int.add_le_add_right (le_max_left _ _) _
    | some e => exact Int.add_le_add_right (h hon e rfl) _
  next hoff => rw [cpuGetTicks, if_neg hoff]

/-- The floor does not fall, and a value that is returned becomes the floor. -/
theorem floor_step (h : s.enabled = true → call ≠ .enable → ∀ e ∈ since, e ≤ max s.prev real) :
    s.floor since ≤ (s.after call real).floor (s.unread since call real) ∧
      (call = .get → (s.after call real).floor (s.unread since call real) =
        (cpuGetTicks s real).1) := by
  cases hon : s.enabled with
  | false => cases call <;> simp [Ticks.floor, Ticks.after, Ticks.unread, cpuGetTicks,
      cpuEnableTicks, cpuDisableTicks, hon]
  | true =>
    cases call with
    | enable => simp [Ticks.floor, Ticks.after, Ticks.unread, cpuEnableTicks, hon]
    | get =>
      have hget : (s.after .get real).floor (s.unread since .get real) =
          (cpuGetTicks s real).1 := by
        simp [Ticks.floor, Ticks.after, Ticks.unread, cpuGetTicks, hon]
      exact ⟨hget ▸ floor_le_cpuGetTicks fun hon => h hon nofun, fun _ => hget⟩
    | disable =>
      refine ⟨?_, nofun⟩
      have hdisable : (s.after .disable real).floor (s.unread since .disable real) =
          (cpuGetTicks s real).1 := by
        simp [Ticks.floor, Ticks.after, cpuDisableTicks, hon]
      exact hdisable ▸ floor_le_cpuGetTicks fun hon => h hon nofun

theorem floor_le_values (h : s.Careful since calls) : ∀ v ∈ s.values calls, s.floor since ≤ v := by
  induction calls generalizing s since with
  | nil => exact nofun
  | cons c calls ih =>
    obtain ⟨call, real⟩ := c
    obtain ⟨hfloor, hget⟩ := floor_step h.1
    intro v hv
    rw [Ticks.values] at hv
    split at hv
    next hcall =>
      rcases List.mem_cons.mp hv with rfl | hv
      · exact hget hcall ▸ hfloor
      · exact hfloor.trans (ih h.2 v hv)
    next => exact hfloor.trans (ih h.2 v hv)

/-- **The counter of the guest never decreases** if the host is never behind where it was when the
ticks were enabled, and ahead of the last value, at the next reading; and this is what makes the
difference. While the ticks are disabled the counter stays as it is. -/
theorem ticks_never_decrease (s : Ticks) (calls : List (TicksCall × ℤ)) :
    (s.Careful none calls → (s.values calls).Pairwise (· ≤ ·)) ∧
      (s.enabled = false → (∀ c ∈ calls, c.1 ≠ .enable) → ∀ v ∈ s.values calls, v = s.offset) ∧
      (s.enabled = false → ∀ on real, s.offset ≤ (cpuGetTicks (cpuEnableTicks s on) real).1 ↔
        on ≤ max s.prev real) := by
  refine ⟨?_, ?_, fun hoff on real => ?_⟩
  · generalize none = since
    induction calls generalizing s since with
    | nil => exact fun _ => List.Pairwise.nil
    | cons c calls ih =>
      obtain ⟨call, real⟩ := c
      intro h
      rw [Ticks.values]
      split
      next hcall =>
        refine List.pairwise_cons.mpr ⟨fun v hv => ?_, ih _ _ h.2⟩
        exact (floor_step h.1).2 hcall ▸ floor_le_values h.2 v hv
      next => exact ih _ _ h.2
  · intro hoff
    induction calls with
    | nil => exact nofun
    | cons c calls ih =>
      obtain ⟨call, real⟩ := c
      intro hcalls v hv
      obtain ⟨hcall, hcalls⟩ := List.forall_mem_cons.mp hcalls
      have hsame : s.after call real = s := by
        cases call <;> simp_all [Ticks.after, cpuGetTicks, cpuDisableTicks]
      have hfirst : (cpuGetTicks s real).1 = s.offset := by simp [cpuGetTicks, hoff]
      rw [Ticks.values, hsame, hfirst] at hv
      split at hv
      · exact (List.mem_cons.mp hv).elim id (ih hcalls v)
      · exact ih hcalls v hv
  · have hon : (cpuEnableTicks s on).enabled = true := by simp [cpuEnableTicks, hoff]
    rw [cpuGetTicks_enabled hon]
    simp only [cpuEnableTicks, hoff, Bool.false_eq_true, if_false]
    omega

/-- The machine is stopped and continued, and the host goes back a little: so does the counter of
the guest. -/
theorem ticks_decrease :
    Ticks.values ⟨0, 0, false⟩ [(.enable, 10), (.get, 20), (.disable, 30), (.enable, 100),
      (.get, 50)] = [10, -30] := by
  decide

/-- The same with a host that goes back behind the last value. -/
theorem ticks_never_decrease_far :
    (Ticks.values ⟨0, 0, false⟩ [(.enable, 0), (.get, 20), (.disable, 30), (.enable, 25),
      (.get, 5)]).Pairwise (· ≤ ·) := by
  refine (ticks_never_decrease _ _).1 ?_
  simp [Ticks.Careful, Ticks.after, Ticks.unread, cpuGetTicks, cpuEnableTicks, cpuDisableTicks]

end VariabilityTestbed.Timers

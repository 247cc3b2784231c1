import Mathlib.Tactic.Ring

/-!
# The count of a periodic timer

`ptimer_get_count` divides the time that is left by the period, which has 32 bits behind the point.
It shifts both to the left as far as they fit into 64 bits, and rounds the divisor up. So the count
is never too high, and too low by two at most.

The shift depends on the time that is left. When that falls below a power of two, the shift grows
and the divisor is rounded by less. The count may go up then, although the timer counts down.
Whether it does is a matter of the frequency and of the rounding.
-/

namespace VariabilityTestbed.Timers

/-- What `ptimer_state` has for the count. Times are in nanoseconds. For counts below `2 ^ 32` and
frequencies up to 1 GHz nothing overflows: the shifts below are by leading zeros. -/
structure Ptimer where
  enabled : Bool
  limit : ℕ
  delta : ℕ
  periodFrac : ℕ
  period : ℕ
  nextEvent : ℤ

/-- `ptimer_reload`. -/
def ptimerReload (s : Ptimer) : Ptimer :=
  let delta := if s.delta = 0 then s.limit else s.delta
  if delta = 0 ∨ s.period = 0 then { s with delta := delta, enabled := false }
  else
    let frac := if s.periodFrac ≠ 0 then (s.periodFrac * delta) >>> 32 else 0
    { s with delta := delta, nextEvent := s.nextEvent + (delta * s.period + frac : ℕ) }

/-- `ptimer_set_freq`. -/
def ptimerSetFreq (s : Ptimer) (freq : ℕ) (now : ℤ) : Ptimer :=
  let s := { s with period := 1000000000 / freq, periodFrac := 1000000000 <<< 32 / freq % 2 ^ 32 }
  if s.enabled then ptimerReload { s with nextEvent := now } else s

/-- What `ptimer_run` does with the count of a timer, and `ptimer_set_count` if it runs. -/
def ptimerLoad (s : Ptimer) (count : ℕ) (now : ℤ) : Ptimer :=
  ptimerReload { s with enabled := true, delta := count, nextEvent := now }

/-- `clz64`. -/
def clz64 (val : ℕ) : ℕ := if val = 0 then 64 else 63 - val.log2

namespace Ptimer

/-- The shift of `ptimer_get_count`, for the time that is left. -/
def shift (s : Ptimer) (rem : ℕ) : ℕ := min (clz64 rem) (clz64 s.period)

/-- What it divides by. -/
def divisor (s : Ptimer) (shift : ℕ) : ℕ :=
  let div := s.period <<< shift
  if 32 ≤ shift then div ||| s.periodFrac <<< (shift - 32)
  else
    let div := if shift ≠ 0 then div ||| s.periodFrac >>> (32 - shift) else div
    if s.periodFrac <<< shift % 2 ^ 32 ≠ 0 then div + 1 else div

end Ptimer

/-- `ptimer_get_count`. A division by zero is `none`. -/
def ptimerGetCount (s : Ptimer) (now : ℤ) : Option ℕ :=
  if s.enabled then
    if now - s.nextEvent > 0 ∨ s.period = 0 then some 0
    else
      let rem := (s.nextEvent - now).toNat
      let div := s.divisor (s.shift rem)
      if div = 0 then none else some (rem <<< s.shift rem / div)
  else some s.delta

/-! ### What it should be -/

/-- The period, in units of `2 ^ -32` nanoseconds. -/
def Ptimer.exactPeriod (s : Ptimer) : ℕ := s.period * 2 ^ 32 + s.periodFrac

/-- A period that is shifted to the left, in nanoseconds, rounded up. -/
def scaledPeriod (period n : ℕ) : ℕ := (period * 2 ^ n + (2 ^ 32 - 1)) / 2 ^ 32

/-- The count does not go up while the time that is left goes from `rem` to `rem'`. -/
def StaysDown (s : Ptimer) (rem rem' : ℕ) : Prop :=
  ∀ c ∈ ptimerGetCount s (s.nextEvent - rem), ∀ c' ∈ ptimerGetCount s (s.nextEvent - rem'), c' ≤ c

/-- **The count is accurate and never increases** from `start` to the next event. -/
def CountRight (s : Ptimer) (start : ℤ) : Prop :=
  (∀ rem : ℕ, start ≤ s.nextEvent - rem → ∃ c, ptimerGetCount s (s.nextEvent - rem) = some c ∧
    c ≤ rem * 2 ^ 32 / s.exactPeriod ∧ rem * 2 ^ 32 / s.exactPeriod ≤ c + 3 ∧ c ≤ s.delta) ∧
  ∀ rem rem' : ℕ, start ≤ s.nextEvent - rem → rem' ≤ rem → StaysDown s rem rem'

/-! ### The shift -/

theorem le_clz64 {v : ℕ} (hv : v < 2 ^ 64) (hne : v ≠ 0) : 2 ^ 63 ≤ v * 2 ^ clz64 v := by
  have hlog : v.log2 ≤ 63 := Nat.le_of_lt_succ ((Nat.log2_lt hne).mpr hv)
  rw [clz64, if_neg hne]
  calc 2 ^ 63 = 2 ^ v.log2 * 2 ^ (63 - v.log2) := by rw [← Nat.pow_add, Nat.add_sub_cancel' hlog]
    _ ≤ v * 2 ^ (63 - v.log2) := Nat.mul_le_mul_right _ (Nat.log2_self_le hne)

/-- Where the shift changes there is a power of two. -/
theorem exists_pow_of_clz64_ne {m : ℕ} (h : clz64 (m + 1) ≠ clz64 m) : ∃ k, m + 1 = 2 ^ k := by
  refine ⟨(m + 1).log2, ?_⟩
  have hle : 2 ^ (m + 1).log2 ≤ m + 1 := Nat.log2_self_le (Nat.succ_ne_zero m)
  by_contra hne
  have hm : m ≠ 0 := by
    rintro rfl
    exact hne rfl
  have hlt : m + 1 < 2 ^ ((m + 1).log2 + 1) := Nat.lt_log2_self
  have hlog : m.log2 = (m + 1).log2 := (Nat.log2_eq_iff hm).mpr ⟨by omega, by omega⟩
  exact h (by rw [clz64, clz64, if_neg hm, if_neg (Nat.succ_ne_zero m), hlog])

theorem mul_two_pow_or {x y k : ℕ} (h : y < 2 ^ k) : x * 2 ^ k ||| y = x * 2 ^ k + y := by
  rw [← Nat.shiftLeft_eq, Nat.shiftLeft_add_eq_or_of_lt h]

/-! ### A timer that has been loaded -/

/-- What `ptimer_reload` leaves behind, when the timer was loaded at a time. -/
structure Ptimer.Loaded (s : Ptimer) (start : ℤ) : Prop where
  enabled : s.enabled = true
  period_pos : 0 < s.period
  period_lt : s.period < 2 ^ 30
  frac_lt : s.periodFrac < 2 ^ 32
  delta_lt : s.delta < 2 ^ 32
  nextEvent : s.nextEvent = start + (s.delta * s.period + s.periodFrac * s.delta / 2 ^ 32 : ℕ)

theorem ptimerSetFreq_period (s : Ptimer) (freq : ℕ) (now : ℤ) :
    (ptimerSetFreq s freq now).period = 1000000000 / freq ∧
    (ptimerSetFreq s freq now).periodFrac = 1000000000 <<< 32 / freq % 2 ^ 32 := by
  rw [ptimerSetFreq, ptimerReload]
  dsimp only
  split_ifs <;> exact ⟨rfl, rfl⟩

theorem loaded_ptimerLoad (s : Ptimer) {freq : ℕ} (now : ℤ) {count : ℕ} (start : ℤ)
    (hpos : 0 < freq) (hmax : freq ≤ 1000000000) (hcount : 0 < count) (hlt : count < 2 ^ 32) :
    (ptimerLoad (ptimerSetFreq s freq now) count start).Loaded start := by
  obtain ⟨hperiod, hfrac⟩ := ptimerSetFreq_period s freq now
  generalize ptimerSetFreq s freq now = s at hperiod hfrac
  have hperiod_pos : 0 < s.period := hperiod ▸ Nat.div_pos hmax hpos
  have hzero : (if s.periodFrac ≠ 0 then (s.periodFrac * count) >>> 32 else 0) =
      s.periodFrac * count / 2 ^ 32 := by
    rw [Nat.shiftRight_eq_div_pow]
    split_ifs with h
    · rfl
    · rw [not_not.mp h, Nat.zero_mul, Nat.zero_div]
  rw [ptimerLoad, ptimerReload]
  simp only [hcount.ne', hperiod_pos.ne', or_self, if_false, hzero]
  exact ⟨rfl, hperiod_pos, hperiod ▸ (Nat.div_le_self _ _).trans_lt (by decide),
    hfrac ▸ Nat.mod_lt _ (by decide), hlt, rfl⟩

namespace Ptimer

/-- The count, where there is one. -/
def ratio (s : Ptimer) (rem : ℕ) : ℕ := rem * 2 ^ s.shift rem / s.divisor (s.shift rem)

variable {s : Ptimer} {start : ℤ} {n rem : ℕ}

section Loaded

variable (h : s.Loaded start)

include h

/-- The divisor is the shifted period, rounded up. -/
theorem Loaded.divisor_spec (n : ℕ) : s.exactPeriod * 2 ^ n ≤ 2 ^ 32 * s.divisor n ∧
    2 ^ 32 * s.divisor n < s.exactPeriod * 2 ^ n + 2 ^ 32 := by
  have hexact : s.exactPeriod * 2 ^ n = 2 ^ 32 * (s.period * 2 ^ n) + s.periodFrac * 2 ^ n := by
    rw [exactPeriod]
    ring
  have hfrac : ∀ k, s.periodFrac * 2 ^ k < 2 ^ 32 * 2 ^ k := fun k =>
    Nat.mul_lt_mul_of_pos_right h.frac_lt (Nat.two_pow_pos k)
  simp only [divisor, hexact, Nat.shiftLeft_eq]
  by_cases hbig : 32 ≤ n
  · -- nothing is cut off
    obtain ⟨j, rfl⟩ := Nat.exists_eq_add_of_le hbig
    rw [if_pos hbig, Nat.add_sub_cancel_left, mul_two_pow_or (Nat.pow_add 2 32 j ▸ hfrac j),
      Nat.pow_add 2 32 j, Nat.mul_left_comm s.periodFrac]
    omega
  · have hlow : s.periodFrac >>> (32 - n) = s.periodFrac * 2 ^ n / 2 ^ 32 := by
      rw [Nat.shiftRight_eq_div_pow, ← Nat.mul_div_mul_right _ _ (Nat.two_pow_pos n), ← Nat.pow_add,
        Nat.sub_add_cancel (Nat.le_of_not_le hbig)]
    have hor : (if n ≠ 0 then s.period * 2 ^ n ||| s.periodFrac >>> (32 - n)
        else s.period * 2 ^ n) =
        s.period * 2 ^ n + s.periodFrac * 2 ^ n / 2 ^ 32 := by
      split_ifs with hzero
      · rw [hlow, mul_two_pow_or (Nat.div_lt_of_lt_mul (hfrac n))]
      · have := h.frac_lt
        obtain rfl := not_not.mp hzero
        omega
    rw [if_neg hbig, hor]
    split_ifs <;> omega

theorem Loaded.divisor_eq (n : ℕ) : s.divisor n = scaledPeriod s.exactPeriod n := by
  have := h.divisor_spec n
  rw [scaledPeriod]
  omega

theorem Loaded.exactPeriod_pos : 0 < s.exactPeriod :=
  Nat.add_pos_left (Nat.mul_pos h.period_pos (by decide)) _

theorem Loaded.divisor_pos (n : ℕ) : 0 < s.divisor n := by
  have hpos := Nat.mul_pos h.exactPeriod_pos (Nat.two_pow_pos n)
  exact Nat.pos_of_mul_pos_left (hpos.trans_le (h.divisor_spec n).1)

theorem Loaded.getCount_eq (rem : ℕ) :
    ptimerGetCount s (s.nextEvent - rem) = some (s.ratio rem) := by
  rw [ptimerGetCount, if_pos h.enabled, if_neg (not_or.mpr ⟨by omega, h.period_pos.ne'⟩),
    Int.sub_sub_self, Int.toNat_natCast, ratio, ← Nat.shiftLeft_eq]
  exact if_neg (h.divisor_pos _).ne'

theorem Loaded.rem_bounds (hrem : start ≤ s.nextEvent - rem) :
    rem * 2 ^ 32 ≤ s.exactPeriod * s.delta ∧ rem < s.exactPeriod := by
  have hexact : s.exactPeriod * s.delta = s.delta * s.period * 2 ^ 32 + s.periodFrac * s.delta := by
    rw [exactPeriod]
    ring
  have hle : rem * 2 ^ 32 ≤ s.exactPeriod * s.delta := by
    have := h.nextEvent
    omega
  exact ⟨hle, Nat.lt_of_mul_lt_mul_right
    (hle.trans_lt (Nat.mul_lt_mul_of_pos_left h.delta_lt h.exactPeriod_pos))⟩

/-- One of the numbers is shifted as far as it goes. -/
theorem Loaded.scaled (hrem : rem < s.exactPeriod) (hne : rem ≠ 0) :
    2 ^ 63 ≤ s.exactPeriod * 2 ^ s.shift rem := by
  obtain ⟨-, hpos, hperiod, hfrac, -, -⟩ := h
  rw [shift]
  rcases Nat.le_total (clz64 rem) (clz64 s.period) with hle | hle
  · rw [Nat.min_eq_left hle]
    refine (le_clz64 ?_ hne).trans (Nat.mul_le_mul_right _ hrem.le)
    rw [exactPeriod] at hrem
    omega
  · rw [Nat.min_eq_right hle]
    refine (le_clz64 (by omega) hpos.ne').trans (Nat.mul_le_mul_right _ ?_)
    rw [exactPeriod]
    omega

/-- The count is not too high, and too low by two at most. -/
theorem Loaded.ratio_spec (hrem : rem < s.exactPeriod) :
    s.ratio rem ≤ rem * 2 ^ 32 / s.exactPeriod ∧ rem * 2 ^ 32 / s.exactPeriod ≤
      s.ratio rem + 2 := by
  obtain ⟨hlow, hhigh⟩ := h.divisor_spec (s.shift rem)
  have hdivisor := h.divisor_pos (s.shift rem)
  have hperiod := h.exactPeriod_pos
  have hscaled := h.scaled hrem
  rw [ratio]
  generalize s.shift rem = n, s.exactPeriod = p at *
  generalize s.divisor n = d at *
  constructor
  · have hmul := Nat.div_mul_le_self (rem * 2 ^ n) d
    generalize rem * 2 ^ n / d = c at hmul ⊢
    refine (Nat.le_div_iff_mul_le hperiod).mpr (Nat.le_of_mul_le_mul_right ?_ (Nat.two_pow_pos n))
    calc c * p * 2 ^ n = c * (p * 2 ^ n) := Nat.mul_assoc ..
      _ ≤ c * (2 ^ 32 * d) := Nat.mul_le_mul_left c hlow
      _ = 2 ^ 32 * (c * d) := Nat.mul_left_comm ..
      _ ≤ 2 ^ 32 * (rem * 2 ^ n) := Nat.mul_le_mul_left _ hmul
      _ = rem * 2 ^ 32 * 2 ^ n := by ring
  · have hmul := Nat.div_mul_le_self (rem * 2 ^ 32) p
    have hlt : rem * 2 ^ 32 / p < 2 ^ 32 :=
      Nat.div_lt_of_lt_mul (Nat.mul_lt_mul_of_pos_right hrem (by decide))
    generalize rem * 2 ^ 32 / p = q at hmul hlt ⊢
    rcases Nat.lt_or_ge q 2 with hsmall | hge
    · exact hsmall.le.trans (Nat.le_add_left 2 _)
    obtain ⟨m, rfl⟩ := Nat.exists_eq_add_of_le' hge
    have hne : rem ≠ 0 := by
      rintro rfl
      exact absurd (hmul.trans_eq (Nat.zero_mul _)) (Nat.mul_pos (Nat.succ_pos _) hperiod).not_ge
    -- what rounding the divisor up costs
    have hgap : m * 2 ^ 32 ≤ 2 * (p * 2 ^ n) := by
      have := hscaled hne
      omega
    refine Nat.add_le_add_right ((Nat.le_div_iff_mul_le hdivisor).mpr ?_) 2
    refine Nat.le_of_mul_le_mul_left ?_ (by decide : 0 < 2 ^ 32)
    calc 2 ^ 32 * (m * d) = m * (2 ^ 32 * d) := Nat.mul_left_comm ..
      _ ≤ m * (p * 2 ^ n + 2 ^ 32) := Nat.mul_le_mul_left m hhigh.le
      _ = m * (p * 2 ^ n) + m * 2 ^ 32 := Nat.mul_add ..
      _ ≤ m * (p * 2 ^ n) + 2 * (p * 2 ^ n) := Nat.add_le_add_left hgap _
      _ = (m + 2) * p * 2 ^ n := by ring
      _ ≤ rem * 2 ^ 32 * 2 ^ n := Nat.mul_le_mul_right _ hmul
      _ = 2 ^ 32 * (rem * 2 ^ n) := by ring

theorem Loaded.staysDown_iff (rem rem' : ℕ) :
    StaysDown s rem rem' ↔ s.ratio rem' ≤ s.ratio rem := by
  simp [StaysDown, h.getCount_eq]

/-- Whether the count goes up when the time that is left falls below a power of two. -/
theorem Loaded.ratio_pow_iff {k : ℕ} (hk : k ≤ 63) : s.ratio (2 ^ k - 1) ≤ s.ratio (2 ^ k) ↔
    (s.period < 2 ^ k → (2 ^ k - 1) * 2 ^ (64 - k) / scaledPeriod s.exactPeriod (64 - k) ≤
      2 ^ k * 2 ^ (63 - k) / scaledPeriod s.exactPeriod (63 - k)) := by
  have hpos := Nat.two_pow_pos k
  have hclz : clz64 (2 ^ k) = 63 - k := by rw [clz64, if_neg hpos.ne', Nat.log2_two_pow]
  have hclz' : clz64 (2 ^ k - 1) = 64 - k := by
    rw [clz64]
    split_ifs with hzero
    · obtain rfl : k = 0 := Nat.pow_eq_one.mp (by omega : 2 ^ k = 1) |>.resolve_left (by decide)
      rfl
    · obtain ⟨j, rfl⟩ := Nat.exists_eq_succ_of_ne_zero (by rintro rfl; exact hzero rfl : k ≠ 0)
      rw [(Nat.log2_eq_iff hzero).mpr (by omega : 2 ^ j ≤ _ ∧ _ < 2 ^ (j + 1))]
      omega
  have hperiod : clz64 s.period = 63 - s.period.log2 := if_neg h.period_pos.ne'
  have hlog : s.period < 2 ^ k ↔ s.period.log2 < k := (Nat.log2_lt h.period_pos.ne').symm
  rw [ratio, ratio, shift, shift, hclz, hclz', hperiod, h.divisor_eq, h.divisor_eq, hlog]
  by_cases hlt : s.period.log2 < k
  · rw [Nat.min_eq_left (by omega), Nat.min_eq_left (by omega), forall_prop_of_true hlt]
  · rw [Nat.min_eq_right (by omega), Nat.min_eq_right (by omega)]
    exact iff_of_true (Nat.div_le_div_right (Nat.mul_le_mul_right _ (Nat.sub_le _ _))) fun hlt' =>
      absurd hlt' hlt

end Loaded

/-- The count increases at powers of two only. -/
theorem ratio_mono {m : ℕ} (h : ∀ k, m + 1 = 2 ^ k → s.ratio m ≤ s.ratio (m + 1)) :
    s.ratio m ≤ s.ratio (m + 1) := by
  by_cases hclz : clz64 (m + 1) = clz64 m
  · rw [ratio, ratio, shift, shift, hclz]
    exact Nat.div_le_div_right (Nat.mul_le_mul_right _ m.le_succ)
  · obtain ⟨k, hk⟩ := exists_pow_of_clz64_ne hclz
    exact h k hk

end Ptimer

/-- A timer that was loaded after its frequency was set. -/
theorem exactPeriod_ptimerLoad (s : Ptimer) (freq : ℕ) (now : ℤ) (count : ℕ) (start : ℤ) :
    let t := ptimerLoad (ptimerSetFreq s freq now) count start
    t.period = 1000000000 / freq ∧ t.exactPeriod = 1000000000 * 2 ^ 32 / freq := by
  obtain ⟨hperiod, hfrac⟩ := ptimerSetFreq_period s freq now
  have hkept : (ptimerLoad (ptimerSetFreq s freq now) count start).period = 1000000000 / freq ∧
      (ptimerLoad (ptimerSetFreq s freq now) count start).periodFrac =
      1000000000 <<< 32 / freq % 2 ^ 32 := by
    rw [← hperiod, ← hfrac, ptimerLoad, ptimerReload]
    dsimp only
    split_ifs <;> exact ⟨rfl, rfl⟩
  refine ⟨hkept.1, ?_⟩
  have hdiv : 1000000000 / freq = 1000000000 * 2 ^ 32 / freq / 2 ^ 32 := by
    rw [Nat.div_div_eq_div_mul, Nat.mul_comm freq, ← Nat.div_div_eq_div_mul,
      Nat.mul_div_cancel _ (by decide)]
  rw [Ptimer.exactPeriod, hkept.1, hkept.2, hdiv, Nat.shiftLeft_eq, Nat.div_add_mod']

/-- **When the count is accurate and never increases.** It is always accurate. It never increases
exactly if at every power of two above the period, up to the time that is loaded, the quotient by
the period that is rounded after the shift for less than this power is not above the quotient after
the shift for the power. -/
theorem count_right_iff (s : Ptimer) {freq : ℕ} (now : ℤ) {count : ℕ} (start : ℤ) (hpos : 0 < freq)
    (hmax : freq ≤ 1000000000) (hcount : 0 < count) (hlt : count < 2 ^ 32) :
    CountRight (ptimerLoad (ptimerSetFreq s freq now) count start) start ↔
      let period := 1000000000 * 2 ^ 32 / freq
      ∀ k, 1000000000 / freq < 2 ^ k → 2 ^ k ≤ count * period / 2 ^ 32 →
        (2 ^ k - 1) * 2 ^ (64 - k) / scaledPeriod period (64 - k) ≤
          2 ^ k * 2 ^ (63 - k) / scaledPeriod period (63 - k) := by
  have ht := loaded_ptimerLoad s now start hpos hmax hcount hlt
  obtain ⟨hperiod, hexact⟩ := exactPeriod_ptimerLoad s freq now count start
  have hdelta : (ptimerLoad (ptimerSetFreq s freq now) count start).delta = count := by
    rw [ptimerLoad, ptimerReload]
    dsimp only
    split_ifs <;> first | rfl | omega
  generalize ptimerLoad (ptimerSetFreq s freq now) count start = t at *
  dsimp only
  rw [← hperiod, ← hexact, ← hdelta]
  have hloaded : ∀ rem : ℕ, start ≤ t.nextEvent - rem ↔ rem ≤ t.delta * t.exactPeriod / 2 ^ 32 := by
    intro rem
    have hsplit :
        t.delta * t.exactPeriod = t.delta * t.period * 2 ^ 32 + t.periodFrac * t.delta := by
      rw [Ptimer.exactPeriod]
      ring
    have := ht.nextEvent
    omega
  have hpow : ∀ k, 2 ^ k ≤ t.delta * t.exactPeriod / 2 ^ 32 → k ≤ 63 := by
    intro k hk
    obtain ⟨-, hrem⟩ := ht.rem_bounds ((hloaded _).mpr hk)
    have := ht.period_lt
    have := ht.frac_lt
    rw [Ptimer.exactPeriod] at hrem
    exact Nat.le_of_lt_succ ((Nat.pow_lt_pow_iff_right (by decide : 1 < 2)).mp (by omega))
  constructor
  · intro hright k hk hle
    refine (ht.ratio_pow_iff (hpow k hle)).mp ?_ hk
    exact (ht.staysDown_iff _ _).mp (hright.2 _ _ ((hloaded _).mpr hle) (Nat.sub_le _ _))
  · intro hdown
    constructor
    · intro rem hrem
      obtain ⟨hbound, hperiod⟩ := ht.rem_bounds hrem
      obtain ⟨hhigh, hlow⟩ := ht.ratio_spec hperiod
      exact ⟨_, ht.getCount_eq rem, hhigh, hlow.trans (Nat.le_succ _),
        hhigh.trans (Nat.div_le_of_le_mul hbound)⟩
    · intro rem rem' hrem hle
      rw [ht.staysDown_iff]
      -- nanosecond by nanosecond
      induction rem, hle using Nat.le_induction with
      | base => exact le_rfl
      | succ m _ ih =>
        refine (ih (by omega)).trans (Ptimer.ratio_mono fun k hk => ?_)
        rw [hloaded, hk] at hrem
        rw [hk, Nat.eq_sub_of_add_eq hk]
        exact (ht.ratio_pow_iff (hpow k hrem)).mpr fun hlt => hdown k hlt hrem

/-- At 7 Hz the count goes from 2017612632 up to 2017612633. -/
theorem count_not_right :
    ¬ CountRight (ptimerLoad (ptimerSetFreq ⟨false, 0, 0, 0, 0, 0⟩ 7 0) 0xffffffff 0) 0 := by
  intro hright
  have hle := hright.2 (2 ^ 58) (2 ^ 58 - 1) (by decide +kernel) (by decide) 2017612632
      (by decide +kernel) 2017612633
    (by decide +kernel)
  exact absurd hle (by decide)

/-- At 1 GHz a short count is right. -/
theorem count_right_of_four :
    CountRight (ptimerLoad (ptimerSetFreq ⟨false, 0, 0, 0, 0, 0⟩ 1000000000 0) 4 0) 0 := by
  refine (count_right_iff _ 0 0 (by decide) le_rfl (by decide) (by decide)).mpr fun k _ hle => ?_
  have hlt : k < 3 := (Nat.pow_lt_pow_iff_right (by decide : 1 < 2)).mp (hle.trans_lt (by decide))
  obtain rfl | rfl | rfl : k = 0 ∨ k = 1 ∨ k = 2 := by omega
  all_goals decide +kernel

end VariabilityTestbed.Timers

import Mathlib.Algebra.Order.Group.Unbundled.Int
import VariabilityTestbed.Lib.Runs

/-!
# SysTick

The timer of a CPU of the M profile counts down from a reload value. The device keeps a single
number for it, `tick`: the time at which the counter reaches zero while it runs, and the time that
was left when it was stopped, with zero for a counter that has to be reloaded.

What the registers mean is said by `Counter`, a counter that runs, is stopped, or has stopped by
itself because there was nothing to reload. Two writes treat a stopped counter as one that runs: a
write to the current value, and a change of the clock source. And a counter that stops by itself
leaves in `tick` the time when it did.
-/

namespace VariabilityTestbed.Irq

open Option

namespace SysTick

open Runs

/-! ### The device -/

/-- The fields `systick`. `timer` is when the timer fires, if it is armed. -/
structure Device where
  control : BitVec 32
  reload : BitVec 32
  tick : ℤ
  timer : Option ℤ

/-- `SYSTICK_ENABLE`. -/
def Device.enable (s : Device) : Bool := s.control.getLsbD 0

/-- `SYSTICK_TICKINT`. -/
def Device.tickint (s : Device) : Bool := s.control.getLsbD 1

/-- `SYSTICK_CLKSOURCE`. -/
def Device.clksource (s : Device) : Bool := s.control.getLsbD 2

/-- `SYSTICK_COUNTFLAG`. -/
def Device.countflag (s : Device) : Bool := s.control.getLsbD 16

variable (systemClockScale : ℤ)

/-- `systick_scale`. -/
def systickScale (s : Device) : ℤ := if s.clksource then systemClockScale else 1000

/-- The time of a full period. -/
def period (s : Device) : ℤ := (s.reload + 1).toNat * systickScale systemClockScale s

/-- `systick_reload`. -/
def systickReload (s : Device) (reset : Option ℤ) : Device :=
  let tick := reset.getD s.tick + period systemClockScale s
  { s with tick := tick, timer := some tick }

/-- `systick_timer_tick`, the callback of the timer, with whether the exception becomes pending. -/
def timerTick (s : Device) : Device × Bool :=
  let s := { s with control := s.control ||| (1#32 <<< 16), timer := none }
  (if s.reload = 0 then { s with control := s.control &&& ~~~1#32 }
    else systickReload systemClockScale s none,
    s.tickint)

/-- `nvic_readl` of SysTick Control and Status. -/
def readControl (s : Device) : Device × BitVec 32 :=
  ({ s with control := s.control &&& ~~~(1#32 <<< 16) }, s.control)

/-- `nvic_readl` of SysTick Current Value, which divides by the scale. -/
def readCurrent (s : Device) (now : ℤ) : Option (BitVec 32) :=
  if !s.enable then some 0
  else if now ≥ s.tick then some 0
  else if systickScale systemClockScale s = 0 then none
  else
    let val := BitVec.ofInt 32 ((s.tick - (now + 1)) / systickScale systemClockScale s + 1)
    some (if val > s.reload then 0 else val)

/-- The control bits that a write gives. -/
def withControl (s : Device) (value : BitVec 32) : Device :=
  { s with control := (s.control &&& 0xfffffff8) ||| (value &&& 7) }

/-- `nvic_writel` of SysTick Control and Status. -/
def writeControl (s : Device) (value : BitVec 32) (now : ℤ) : Device :=
  let oldval := s.control
  let s := withControl s value
  if (oldval ^^^ value).getLsbD 0 then
    if value.getLsbD 0 then
      if s.tick ≠ 0 then { s with tick := s.tick + now, timer := some (s.tick + now) }
      else systickReload systemClockScale s (some now)
    else { s with timer := none, tick := if s.tick - now < 0 then 0 else s.tick - now }
  else if (oldval ^^^ value).getLsbD 2 then systickReload systemClockScale s (some now)
  else s

/-- `nvic_writel` of SysTick Reload Value. -/
def writeReload (s : Device) (value : BitVec 32) : Device := { s with reload := value }

/-- `nvic_writel` of SysTick Current Value. -/
def writeCurrent (s : Device) (now : ℤ) : Device :=
  let s := systickReload systemClockScale s (some now)
  { s with control := s.control &&& ~~~(1#32 <<< 16) }

/-! ### What it is for -/

/-- A counter: it reaches zero at a deadline, it is stopped with some time left, or it has stopped
by itself. A counter that is stopped with no time left is reloaded when it starts. -/
inductive Counter where
  | running (deadline : ℤ)
  | stopped (remaining : ℤ)
  | expired
  deriving DecidableEq

namespace Counter

/-- A counter is started: it goes on where it was stopped, or from the reload value. -/
def start (period now : ℤ) : Counter → Counter
  | running deadline => running deadline
  | stopped remaining => running (now + if remaining = 0 then period else remaining)
  | expired => running (now + period)

/-- A counter is stopped. -/
def stop (now : ℤ) : Counter → Counter
  | running deadline => stopped (max (deadline - now) 0)
  | c => c

/-- A counter is cleared: one that runs starts again from the reload value. -/
def clear (period now : ℤ) : Counter → Counter
  | running _ => running (now + period)
  | _ => stopped 0

/-- The clock of a counter is changed, which is a reason to reload one that runs. -/
def changeClock (period now : ℤ) : Counter → Counter
  | running _ => running (now + period)
  | c => c

/-- A counter reaches zero. -/
def reach (reload : BitVec 32) (period : ℤ) : Counter → Counter
  | running deadline => if reload = 0 then expired else running (deadline + period)
  | c => c

end Counter

/-! ### Accesses -/

/-- What happens to the device, at a time. -/
inductive Event where
  | readControl
  | readCurrent (now : ℤ)
  | writeControl (value : BitVec 32) (now : ℤ)
  | writeReload (value : BitVec 32)
  | writeCurrent (now : ℤ)
  /-- The timer fires. -/
  | fire (now : ℤ)

/-- The device, and the counter that it should be. -/
structure Machine where
  device : Device
  counter : Counter

/-- The device behind an event. A timer fires when it is due. -/
def deviceStep (s : Device) : Event → Option Device
  | .readControl => some (readControl s).1
  | .readCurrent now => (readCurrent systemClockScale s now).map fun _ => s
  | .writeControl value now => some (writeControl systemClockScale s value now)
  | .writeReload value => some (writeReload s value)
  | .writeCurrent now => some (writeCurrent systemClockScale s now)
  | .fire now =>
    match s.timer with
    | none => none
    | some deadline => if deadline ≤ now then some (timerTick systemClockScale s).1 else none

/-- The counter behind an event, from the registers before it. -/
def counterStep (s : Device) (c : Counter) : Event → Counter
  | .readControl | .readCurrent _ | .writeReload _ => c
  | .writeControl value now =>
    let period := period systemClockScale (withControl s value)
    if s.enable ≠ value.getLsbD 0 then if value.getLsbD 0 then c.start period now else c.stop now
    else if s.clksource ≠ value.getLsbD 2 then c.changeClock period now
    else c
  | .writeCurrent now => c.clear (period systemClockScale s) now
  | .fire _ => c.reach s.reload (period systemClockScale s)

/-- One event. -/
def step (m : Machine) (e : Event) : Option Machine :=
  (deviceStep systemClockScale m.device e).map fun s =>
    ⟨s, counterStep systemClockScale m.device m.counter e⟩

/-- Reset: everything is zero. -/
def reset : Machine := ⟨⟨0, 0, 0, none⟩, .stopped 0⟩

/-- **An access that the device is right about.** The current value is written, and the clock source
changed, only while the counter is enabled; a counter that has stopped by itself is not enabled
again; and the current value is not read with the system clock as the source before that has a
scale. -/
def Careful (m : Machine) : Event → Prop
  | .readCurrent _ => m.device.clksource = true → systemClockScale ≠ 0
  | .writeCurrent _ => m.device.enable = true
  | .writeControl value _ =>
    (m.device.enable = false → value.getLsbD 0 = false → value.getLsbD 2 = m.device.clksource) ∧
      (value.getLsbD 0 = true → m.counter ≠ .expired)
  | _ => True

instance (m : Machine) (e : Event) : Decidable (Careful systemClockScale m e) :=
  match e with
  | .readCurrent _ => inferInstanceAs (Decidable (m.device.clksource = true → systemClockScale ≠ 0))
  | .writeCurrent _ => inferInstanceAs (Decidable (m.device.enable = true))
  | .writeControl _ _ => inferInstanceAs (Decidable ((m.device.enable = false → _) ∧ _))
  | .readControl | .writeReload _ | .fire _ => .isTrue trivial

/-! ### The device counts -/

/-- The device is the counter. -/
def Counts (s : Device) : Counter → Prop
  | .running deadline => s.enable = true ∧ s.tick = deadline ∧ s.timer = some deadline
  | .stopped remaining => s.enable = false ∧ s.tick = remaining ∧ s.timer = none
  | .expired => s.enable = false ∧ s.timer = none

variable {systemClockScale} {s : Device} {c : Counter}

theorem withControl_enable (s : Device) (value : BitVec 32) :
    (withControl s value).enable = value.getLsbD 0 := by
  simp [withControl, Device.enable]

/-- `systick_reload` with a new start. -/
theorem counts_systickReload (now : ℤ) (henable : s.enable = true) :
    Counts (systickReload systemClockScale s (some now))
      (.running (now + period systemClockScale s)) :=
  ⟨henable, rfl, rfl⟩

/-- A write to SysTick Control and Status, by what it changes. -/
theorem writeControl_eq (s : Device) (value : BitVec 32) (now : ℤ) :
    writeControl systemClockScale s value now =
      if s.enable ≠ value.getLsbD 0 then
        if value.getLsbD 0 then
          if s.tick ≠ 0 then
            { withControl s value with tick := s.tick + now, timer := some (s.tick + now) }
          else systickReload systemClockScale (withControl s value) (some now)
        else { withControl s value with
          timer := none, tick := if s.tick - now < 0 then 0 else s.tick - now }
      else if s.clksource ≠ value.getLsbD 2 then
        systickReload systemClockScale (withControl s value) (some now)
      else withControl s value := by
  have hxor : ∀ i, (s.control ^^^ value).getLsbD i = true ↔ s.control.getLsbD i ≠ value.getLsbD i :=
    fun i => by rw [BitVec.getLsbD_xor]; exact bne_iff_ne
  simp only [writeControl, hxor]
  rfl

/-- A write to SysTick Control and Status. -/
theorem Counts.writeControl (h : Counts s c) (value : BitVec 32) (now : ℤ)
    (hcareful : Careful systemClockScale ⟨s, c⟩ (.writeControl value now)) :
    Counts (writeControl systemClockScale s value now)
      (counterStep systemClockScale s c (.writeControl value now)) := by
  have hnew := withControl_enable s value
  rw [writeControl_eq, counterStep]
  dsimp only
  cases c with
  | running deadline =>
    obtain ⟨henable, htick, htimer⟩ := h
    cases hbit : value.getLsbD 0 with
    | true =>
      rw [henable, if_neg (not_not.mpr rfl), if_neg (not_not.mpr rfl)]
      by_cases hclock : s.clksource ≠ value.getLsbD 2
      · rw [if_pos hclock, if_pos hclock]
        exact counts_systickReload now (hnew.trans hbit)
      · rw [if_neg hclock, if_neg hclock]
        exact ⟨hnew.trans hbit, htick, htimer⟩
    | false =>
      simp only [henable, ne_eq, reduceCtorEq, not_false_eq_true, if_true, if_false]
      refine ⟨hnew.trans hbit, ?_, rfl⟩
      rw [htick]
      dsimp only
      split_ifs <;> omega
  | stopped remaining =>
    obtain ⟨henable, htick, htimer⟩ := h
    cases hbit : value.getLsbD 0 with
    | true =>
      simp only [henable, ne_eq, reduceCtorEq, not_false_eq_true, if_true, htick, Counter.start]
      by_cases hzero : remaining = 0
      · rw [if_neg (not_not.mpr hzero), if_pos hzero]
        exact counts_systickReload now (hnew.trans hbit)
      · rw [if_pos hzero, if_neg hzero, add_comm]
        exact ⟨hnew.trans hbit, rfl, rfl⟩
    | false =>
      have hclock := hcareful.1 henable hbit
      rw [henable, if_neg (not_not.mpr rfl), if_neg (not_not.mpr rfl),
        if_neg (not_not.mpr hclock.symm), if_neg (not_not.mpr hclock.symm)]
      exact ⟨hnew.trans hbit, htick, htimer⟩
  | expired =>
    obtain ⟨henable, htimer⟩ := h
    cases hbit : value.getLsbD 0 with
    | true => exact absurd rfl (hcareful.2 hbit)
    | false =>
      have hclock := hcareful.1 henable hbit
      rw [henable, if_neg (not_not.mpr rfl), if_neg (not_not.mpr rfl),
        if_neg (not_not.mpr hclock.symm), if_neg (not_not.mpr hclock.symm)]
      exact ⟨hnew.trans hbit, htimer⟩

/-- The bits of COUNTFLAG do not matter. -/
theorem Counts.congr {s' : Device} (h : Counts s c) (henable : s'.enable = s.enable)
    (htick : s'.tick = s.tick) (htimer : s'.timer = s.timer) : Counts s' c := by
  cases c with
  | running deadline | stopped remaining =>
    exact ⟨henable.trans h.1, htick.trans h.2.1, htimer.trans h.2.2⟩
  | expired => exact ⟨henable.trans h.1, htimer.trans h.2⟩

/-- The timer is armed only while the counter runs. -/
theorem Counts.timer_eq_some (h : Counts s c) {deadline : ℤ} (htimer : s.timer = some deadline) :
    c = .running deadline := by
  cases c with
  | running d => exact congrArg _ (some.inj (h.2.2.symm.trans htimer))
  | stopped remaining => exact nomatch h.2.2.symm.trans htimer
  | expired => exact nomatch h.2.symm.trans htimer

/-- The counter is enabled only while it runs. -/
theorem Counts.of_enable (h : Counts s c) (henable : s.enable = true) :
    ∃ deadline, c = .running deadline := by
  cases c with
  | running deadline => exact ⟨deadline, rfl⟩
  | stopped remaining | expired => exact nomatch h.1.symm.trans henable

/-- The timer fires. -/
theorem Counts.timerTick {deadline : ℤ} (h : Counts s (.running deadline)) :
    Counts (timerTick systemClockScale s).1
      (Counter.reach s.reload (period systemClockScale s) (.running deadline)) := by
  obtain ⟨henable, htick, -⟩ := h
  have hclock :
      period systemClockScale { s with control := s.control ||| (1#32 <<< 16), timer := none } =
      period systemClockScale s := by
    simp [period, systickScale, Device.clksource]
  rw [SysTick.timerTick, Counter.reach]
  dsimp only
  split_ifs
  · exact ⟨by simp [Device.enable], rfl⟩
  · refine ⟨by simpa [systickReload, Device.enable] using henable, ?_, ?_⟩
    · rw [systickReload, hclock, getD_none, htick]
    · rw [systickReload, hclock, getD_none, htick]

theorem Counts.step {m m' : Machine} {e : Event} (h : Counts m.device m.counter)
    (he : Careful systemClockScale m e) (hstep : step systemClockScale m e = some m') :
    Counts m'.device m'.counter := by
  obtain ⟨s', hs', rfl⟩ := map_eq_some_iff.mp hstep
  cases e with
  | readControl =>
    cases hs'
    exact h.congr (by simp [readControl, Device.enable]) rfl rfl
  | readCurrent now =>
    obtain ⟨-, -, rfl⟩ := map_eq_some_iff.mp hs'
    exact h
  | writeControl value now => exact some.inj hs' ▸ h.writeControl value now he
  | writeReload value =>
    cases hs'
    exact h.congr rfl rfl rfl
  | writeCurrent now =>
    cases hs'
    obtain ⟨deadline, hc⟩ := h.of_enable he
    show Counts _ (m.counter.clear _ now)
    rw [hc]
    exact (counts_systickReload now he).congr (by simp [Device.enable, writeCurrent]) rfl rfl
  | fire now =>
    rw [deviceStep] at hs'
    split at hs'
    next => exact nomatch hs'
    next deadline htimer =>
      split_ifs at hs'
      cases hs'
      have hc := h.timer_eq_some htimer
      show Counts _ (m.counter.reach _ _)
      rw [hc] at h ⊢
      exact h.timerTick

theorem exists_readCurrent (s : Device) (now : ℤ)
    (hscale : s.clksource = true → systemClockScale ≠ 0) :
    ∃ val, readCurrent systemClockScale s now = some val ∧ val ≤ s.reload := by
  have hne : systickScale systemClockScale s ≠ 0 := by
    rw [systickScale]
    split_ifs with hclock
    · exact hscale hclock
    · decide
  have hzero : 0 ≤ s.reload := BitVec.not_lt.mp BitVec.not_lt_zero
  rw [readCurrent, if_neg hne]
  split_ifs
  · exact ⟨0, rfl, hzero⟩
  · exact ⟨0, rfl, hzero⟩
  · refine ⟨_, rfl, ?_⟩
    split_ifs with hgt
    · exact hzero
    · exact BitVec.not_lt.mp hgt

theorem counts_reset : Counts reset.device reset.counter := ⟨rfl, rfl, rfl⟩

end SysTick

end VariabilityTestbed.Irq

import Mathlib.Algebra.Order.BigOperators.Group.List
import VariabilityTestbed.Lib.Runs
import VariabilityTestbed.Variability.Counters

/-!
# Sleep accounting

A `WFI` instruction puts an ARM CPU to sleep: `HELPER(wfi)` notes the time and sets `halted`. The
sleep ends in `cpu_exec`, which clears `halted` when `cpu_has_work` finds a pending interrupt.
With `first_pwr_model` the time in between is added to `sleep_energy`.

The clock is stopped inside `cpu_has_work`, whatever that function answers. A halted CPU is polled
by `cpu_thread_is_idle` and by `cpu_exec` any number of times before it is woken, so the
clock stops at the *first poll* of a sleep, and a sleep is accounted in full only if no time passes
between its first poll and its end.
-/

namespace VariabilityTestbed.Variability

open Runs List

/-! ### The code -/

/-- `start_sleep_cycle_count` at time `now`. `sleep_start_event` of the installed model does
nothing. -/
def startSleepCycleCount (st : VarState) (now : Int64) : VarState :=
  { st with sleepStartTime := now, startedSleepCount := true }

/-- `update_sleep_energy`. -/
def updateSleepEnergy (st : VarState) (val : UInt64) : VarState :=
  { st with sleepEnergy := st.sleepEnergy + val }

/-- `sleep_stop_notify` of the installed model, when there is one. -/
def sleepStopNotify (st : VarState) (interval : UInt64) : VarState :=
  match st.currPowerModel with
  | none => st
  | some .firstPwrModel => updateSleepEnergy st interval

/-- `stop_sleep_cycle_count` at time `now`. -/
def stopSleepCycleCount (st : VarState) (now : Int64) : VarState :=
  if st.startedSleepCount then
    { sleepStopNotify st (now - st.sleepStartTime).toUInt64 with
      startedSleepCount := false
      sleepStartTime := 0 }
  else st

/-- `CPU_INTERRUPT_FIQ | CPU_INTERRUPT_HARD | CPU_INTERRUPT_EXITTB`. -/
def workMask : UInt32 := 0x10 ||| 0x2 ||| 0x4

/-- The answer of `cpu_has_work`. -/
def hasWork (interruptRequest : UInt32) : Bool := interruptRequest &&& workMask != 0

/-- `cpu_has_work` of `target-arm/cpu.h`: stop the sleep clock, then look for an interrupt. -/
def cpuHasWork (st : VarState) (now : Int64) (interruptRequest : UInt32) : VarState × Bool :=
  (stopSleepCycleCount st now, hasWork interruptRequest)

/-- The variability state and the `halted` flag of one CPU. -/
structure SleepState where
  var : VarState
  halted : Bool

/-- `HELPER(wfi)`. -/
def helperWfi (s : SleepState) (now : Int64) : SleepState :=
  { var := startSleepCycleCount s.var now, halted := true }

/-- The other conditions `cpu_thread_is_idle` looks at. -/
structure IdleFlags where
  /-- `env->stop || env->queued_work_first`. -/
  stopOrQueued : Bool
  /-- `env->stopped || !vm_running`. -/
  stoppedOrPaused : Bool
  /-- `kvm_enabled() && kvm_irqchip_in_kernel()`. -/
  kvmIrqchip : Bool

/-- `cpu_thread_is_idle`. The tests are short-circuit: `cpu_has_work` is called only for a halted
CPU that is neither stopped nor about to be. -/
def cpuThreadIsIdle (s : SleepState) (now : Int64) (f : IdleFlags) (interruptRequest : UInt32) :
    SleepState × Bool :=
  if f.stopOrQueued then (s, false)
  else if f.stoppedOrPaused then (s, true)
  else if !s.halted then (s, false)
  else
    let (var, work) := cpuHasWork s.var now interruptRequest
    ({ s with var := var }, !(work || f.kvmIrqchip))

/-- The entry of `cpu_exec`; `false` stands for the return of `EXCP_HALTED`. -/
def cpuExecEntry (s : SleepState) (now : Int64) (interruptRequest : UInt32) : SleepState × Bool :=
  if s.halted then
    let (var, work) := cpuHasWork s.var now interruptRequest
    if work then ({ var := var, halted := false }, true) else ({ s with var := var }, false)
  else (s, true)

/-- What can happen to the CPU, with the `vm_clock` time at which it does. -/
inductive SleepEvent where
  | wfi (now : Int64)
  | idlePoll (now : Int64) (f : IdleFlags) (interruptRequest : UInt32)
  | cpuExec (now : Int64) (interruptRequest : UInt32)

/-- The time of an event. -/
def SleepEvent.now : SleepEvent → Int64
  | .wfi now => now
  | .idlePoll now _ _ => now
  | .cpuExec now _ => now

/-- One event. A halted CPU executes no `WFI`. -/
def sleepStep (s : SleepState) : SleepEvent → Option SleepState
  | .wfi now => if s.halted then none else some (helperWfi s now)
  | .idlePoll now f interruptRequest => some (cpuThreadIsIdle s now f interruptRequest).1
  | .cpuExec now interruptRequest => some (cpuExecEntry s now interruptRequest).1

/-- A running CPU at program start. -/
def initSleepState (n : ClassCount) : SleepState := ⟨initState n, false⟩

/-! ### The sleeps in an event sequence

Read off the events, without looking at the counters. -/

/-- A completed sleep. -/
structure Sleep where
  /-- When the CPU executed `WFI`. -/
  wfi : Int64
  /-- When `cpu_has_work` was first called after that. -/
  firstPoll : Int64
  /-- When `cpu_exec` cleared `halted`. -/
  wake : Int64
  deriving DecidableEq

/-- Where the CPU is between two events. -/
inductive Phase where
  | running
  | asleep (wfi : Int64)
  | polled (wfi firstPoll : Int64)

/-- Does a call of `cpu_thread_is_idle` on a halted CPU get as far as `cpu_has_work`? -/
def IdleFlags.polls (f : IdleFlags) : Bool := !f.stopOrQueued && !f.stoppedOrPaused

/-- The phase and the completed sleeps after one more event. -/
def trackStep : Phase × List Sleep → SleepEvent → Phase × List Sleep
  | (.running, l), .wfi now => (.asleep now, l)
  | (.asleep t₀, l), .idlePoll now f _ =>
      if f.polls then (.polled t₀ now, l) else (.asleep t₀, l)
  | (.asleep t₀, l), .cpuExec now ir =>
      if hasWork ir then (.running, l ++ [⟨t₀, now, now⟩]) else (.polled t₀ now, l)
  | (.polled t₀ t₁, l), .cpuExec now ir =>
      if hasWork ir then (.running, l ++ [⟨t₀, t₁, now⟩]) else (.polled t₀ t₁, l)
  | p, _ => p

/-- The phase and the completed sleeps after a whole sequence, starting with a running CPU. -/
def track (events : List SleepEvent) : Phase × List Sleep :=
  events.foldl trackStep (.running, [])

theorem track_concat (events : List SleepEvent) (e : SleepEvent) :
    track (events ++ [e]) = trackStep (track events) e := by
  simp [track]

/-- The time slept, from `WFI` to wake-up, summed over the completed sleeps. -/
def timeSlept (l : List Sleep) : ℤ := (l.map fun x => x.wake.toInt - x.wfi.toInt).sum

/-- The time from `WFI` to the first poll, summed over the completed sleeps. -/
def timeToFirstPoll (l : List Sleep) : ℤ := (l.map fun x => x.firstPoll.toInt - x.wfi.toInt).sum

/-! ### What is accounted -/

/-- The part of `sleep_energy` that belongs to the sleep in progress. -/
def Phase.accounted : Phase → ℤ
  | .polled t₀ t₁ => t₁.toInt - t₀.toInt
  | _ => 0

/-- The flags of the CPU in each phase. -/
def Phase.Matches (s : SleepState) : Phase → Prop
  | .running => s.halted = false ∧ s.var.startedSleepCount = false
  | .asleep t₀ => s.halted = true ∧ s.var.startedSleepCount = true ∧ s.var.sleepStartTime = t₀
  | .polled _ _ => s.halted = true ∧ s.var.startedSleepCount = false

/-- The state agrees with the events: the flags follow the phase, and the energy is the time to
the first poll of every sleep so far. -/
structure Tracked (p : Phase × List Sleep) (s : SleepState) : Prop where
  model : s.var.currPowerModel = some .firstPwrModel
  flags : p.1.Matches s
  energy : s.var.sleepEnergy = UInt64.ofInt (timeToFirstPoll p.2 + p.1.accounted)

/-- An elapsed time, as the `uint64_t` handed to `sleep_stop_notify`. -/
theorem toUInt64_sub_eq_ofInt (a b : Int64) :
    (a - b).toUInt64 = UInt64.ofInt (a.toInt - b.toInt) := by
  have hcast : ∀ x : Int64, x.toUInt64 = UInt64.ofInt x.toInt := by
    intro x
    apply UInt64.toBitVec_inj.mp
    rw [UInt64.ofInt, UInt64.toBitVec_ofNat']
    change x.toBitVec = BitVec.ofNat 64 (x.toBitVec.toInt % 2 ^ 64).toNat
    apply BitVec.eq_of_toNat_eq
    rw [BitVec.toNat_ofNat, BitVec.toInt_eq_toNat_bmod]
    have hlt := x.toBitVec.isLt
    simp only [Int.bmod]
    omega
  rw [Int64.toUInt64_sub, hcast, hcast, Int.sub_eq_add_neg, UInt64.ofInt_add, UInt64.ofInt_neg]
  grind

/-- The state a running clock leaves when it is stopped. -/
theorem stopSleepCycleCount_eq {st : VarState} (hm : st.currPowerModel = some .firstPwrModel)
    (hs : st.startedSleepCount = true) (now : Int64) :
    stopSleepCycleCount st now =
      { st with
        sleepEnergy := st.sleepEnergy + (now - st.sleepStartTime).toUInt64
        startedSleepCount := false
        sleepStartTime := 0 } := by
  simp [stopSleepCycleCount, hs, sleepStopNotify, hm, updateSleepEnergy]

theorem stopSleepCycleCount_of_not_started {st : VarState} (hs : st.startedSleepCount = false)
    (now : Int64) : stopSleepCycleCount st now = st := by
  simp [stopSleepCycleCount, hs]

/-- Stopping the clock adds the time since `WFI` to what is accounted. -/
theorem Tracked.stop {t₀ : Int64} {l : List Sleep} {s : SleepState}
    (h : Tracked (.asleep t₀, l) s) (now : Int64) :
    (stopSleepCycleCount s.var now).currPowerModel = some .firstPwrModel ∧
      (stopSleepCycleCount s.var now).startedSleepCount = false ∧
      (stopSleepCycleCount s.var now).sleepEnergy =
        UInt64.ofInt (timeToFirstPoll l + (now.toInt - t₀.toInt)) := by
  obtain ⟨-, hstarted, hstart⟩ := h.flags
  rw [stopSleepCycleCount_eq h.model hstarted]
  refine ⟨h.model, rfl, ?_⟩
  change s.var.sleepEnergy + (now - s.var.sleepStartTime).toUInt64 = _
  rw [hstart, toUInt64_sub_eq_ofInt, h.energy, UInt64.ofInt_add _ (now.toInt - t₀.toInt)]
  simp [Phase.accounted]

/-- A poll by `cpu_thread_is_idle` stops the clock of a halted CPU and changes nothing else. -/
theorem cpuThreadIsIdle_fst (s : SleepState) (now : Int64) (f : IdleFlags) (ir : UInt32) :
    (cpuThreadIsIdle s now f ir).1 =
      if s.halted && f.polls then { s with var := stopSleepCycleCount s.var now } else s := by
  cases hh : s.halted <;> cases hq : f.stopOrQueued <;> cases hp : f.stoppedOrPaused <;>
    simp [cpuThreadIsIdle, cpuHasWork, IdleFlags.polls, hh, hq, hp]

/-- `cpu_exec` stops the clock of a halted CPU and wakes it if there is work. -/
theorem cpuExecEntry_fst (s : SleepState) (now : Int64) (ir : UInt32) :
    (cpuExecEntry s now ir).1 =
      if s.halted then ⟨stopSleepCycleCount s.var now, !hasWork ir⟩ else s := by
  cases hh : s.halted <;> cases hw : hasWork ir <;> simp [cpuExecEntry, cpuHasWork, hh, hw]

/-- **One event keeps the state in agreement.** The cases are those of `trackStep`: only an event
that reaches `cpu_has_work` while the clock runs changes the energy. -/
theorem Tracked.step {p : Phase × List Sleep} {s s' : SleepState} {e : SleepEvent}
    (h : Tracked p s) (hs : sleepStep s e = some s') : Tracked (trackStep p e) s' := by
  obtain ⟨ph, l⟩ := p
  cases ph with
  | running =>
    obtain ⟨hhalt, hstarted⟩ := h.flags
    cases e with
    | wfi now =>
      obtain rfl : helperWfi s now = s' := by simpa [sleepStep, hhalt] using hs
      exact ⟨h.model, ⟨rfl, rfl, rfl⟩, h.energy⟩
    | idlePoll now f ir =>
      obtain rfl : s = s' := by simpa [sleepStep, cpuThreadIsIdle_fst, hhalt] using hs
      exact h
    | cpuExec now ir =>
      obtain rfl : s = s' := by simpa [sleepStep, cpuExecEntry_fst, hhalt] using hs
      exact h
  | asleep t₀ =>
    obtain ⟨hhalt, hstarted, hstart⟩ := h.flags
    cases e with
    | wfi now => simp [sleepStep, hhalt] at hs
    | idlePoll now f ir =>
      obtain ⟨hm, hst, hen⟩ := h.stop now
      cases hpoll : f.polls with
      | true =>
        obtain rfl : { s with var := stopSleepCycleCount s.var now } = s' := by
          simpa [sleepStep, cpuThreadIsIdle_fst, hhalt, hpoll] using hs
        rw [trackStep, if_pos hpoll]
        exact ⟨hm, ⟨hhalt, hst⟩, hen⟩
      | false =>
        obtain rfl : s = s' := by simpa [sleepStep, cpuThreadIsIdle_fst, hpoll] using hs
        rw [trackStep, if_neg (by simp [hpoll])]
        exact h
    | cpuExec now ir =>
      obtain ⟨hm, hst, hen⟩ := h.stop now
      obtain rfl : ⟨stopSleepCycleCount s.var now, !hasWork ir⟩ = s' := by
        simpa [sleepStep, cpuExecEntry_fst, hhalt] using hs
      cases hw : hasWork ir with
      | true =>
        rw [trackStep, if_pos hw]
        refine ⟨hm, ⟨rfl, hst⟩, ?_⟩
        rw [hen]
        simp [timeToFirstPoll, Phase.accounted]
      | false =>
        rw [trackStep, if_neg (by simp [hw])]
        exact ⟨hm, ⟨rfl, hst⟩, hen⟩
  | polled t₀ t₁ =>
    obtain ⟨hhalt, hstarted⟩ := h.flags
    have hstop : ∀ now, stopSleepCycleCount s.var now = s.var :=
      stopSleepCycleCount_of_not_started hstarted
    cases e with
    | wfi now => simp [sleepStep, hhalt] at hs
    | idlePoll now f ir =>
      obtain rfl : s = s' := by simpa [sleepStep, cpuThreadIsIdle_fst, hstop] using hs
      exact h
    | cpuExec now ir =>
      obtain rfl : ⟨s.var, !hasWork ir⟩ = s' := by
        simpa [sleepStep, cpuExecEntry_fst, hhalt, hstop] using hs
      cases hw : hasWork ir with
      | true =>
        rw [trackStep, if_pos hw]
        refine ⟨h.model, ⟨rfl, hstarted⟩, ?_⟩
        rw [h.energy]
        simp [timeToFirstPoll, Phase.accounted]
      | false =>
        rw [trackStep, if_neg (by simp [hw])]
        exact ⟨h.model, ⟨rfl, hstarted⟩, h.energy⟩

variable {n : ClassCount} {events : List SleepEvent} {s : SleepState}

theorem tracked_of_run (h : run sleepStep (initSleepState n) events = some s) :
    Tracked (track events) s := by
  refine run_induction (P := fun events s => Tracked (track events) s) ?_ ?_ h
  · exact ⟨rfl, ⟨rfl, rfl⟩, rfl⟩
  · intro p e s s' _ ht hs
    rw [track_concat]
    exact ht.step hs

/-- A CPU that is running again has no sleep in progress. -/
theorem Tracked.running_of_not_halted {p : Phase × List Sleep} (h : Tracked p s)
    (hrun : s.halted = false) : p.1 = .running := by
  obtain ⟨ph, l⟩ := p
  cases ph with
  | running => rfl
  | asleep t₀ | polled t₀ t₁ => exact absurd h.flags.1 (by simp [hrun])

/-- **What is accounted**: the time from each `WFI` to the first poll after it. -/
theorem sleepEnergy_of_run (h : run sleepStep (initSleepState n) events = some s)
    (hrun : s.halted = false) :
    s.var.sleepEnergy = UInt64.ofInt (timeToFirstPoll (track events).2) := by
  have ht := tracked_of_run h
  rw [ht.energy, ht.running_of_not_halted hrun]
  simp [Phase.accounted]

/-! ### When it is the time slept

All sums below are sums of lengths of disjoint intervals of `int64_t` times, so they stay below
`2 ^ 64` and the counter does not wrap. -/

/-- The sleeps found so far lie before `last`, one after the other. -/
def Phase.Bounded (last slept : ℤ) : Phase → Prop
  | .running => slept ≤ last + 2 ^ 63
  | .asleep t₀ => slept ≤ t₀.toInt + 2 ^ 63 ∧ t₀.toInt ≤ last
  | .polled t₀ t₁ => slept ≤ t₀.toInt + 2 ^ 63 ∧ t₀.toInt ≤ t₁.toInt ∧ t₁.toInt ≤ last

/-- Every sleep runs forwards in time, and together they fit before `last`. -/
structure Ordered (p : Phase × List Sleep) (last : ℤ) : Prop where
  forwards : ∀ x ∈ p.2, x.wfi.toInt ≤ x.firstPoll.toInt ∧ x.firstPoll.toInt ≤ x.wake.toInt
  bounded : p.1.Bounded last (timeSlept p.2)

theorem Ordered.mono {p : Phase × List Sleep} {last last' : ℤ} (h : Ordered p last)
    (hle : last ≤ last') : Ordered p last' := by
  obtain ⟨ph, l⟩ := p
  refine ⟨h.forwards, ?_⟩
  have hb := h.bounded
  cases ph <;> simp only [Phase.Bounded] at hb ⊢ <;> omega

/-- A sleep that ends now is appended to those before it. -/
theorem Ordered.wake {ph : Phase} {l : List Sleep} {x : Sleep} (h : Ordered (ph, l) x.wake.toInt)
    (hslept : timeSlept l ≤ x.wfi.toInt + 2 ^ 63)
    (hx : x.wfi.toInt ≤ x.firstPoll.toInt ∧ x.firstPoll.toInt ≤ x.wake.toInt) :
    Ordered (.running, l ++ [x]) x.wake.toInt := by
  refine ⟨fun y hy => ?_, ?_⟩
  · rcases mem_append.mp hy with hy | hy
    · exact h.forwards y hy
    · obtain rfl := mem_singleton.mp hy
      exact hx
  · simp only [Phase.Bounded, timeSlept, map_append, sum_append, map_cons,
      map_nil, sum_singleton] at hslept ⊢
    omega

theorem Ordered.step {p : Phase × List Sleep} {e : SleepEvent} (h : Ordered p e.now.toInt) :
    Ordered (trackStep p e) e.now.toInt := by
  obtain ⟨ph, l⟩ := p
  have hb := h.bounded
  cases ph with
  | running =>
    cases e with
    | wfi now => exact ⟨h.forwards, hb, le_rfl⟩
    | idlePoll now f ir | cpuExec now ir => exact h
  | asleep t₀ =>
    obtain ⟨hslept, ht₀⟩ := hb
    cases e with
    | wfi now => exact h
    | idlePoll now f ir =>
      simp only [trackStep]
      split
      · exact ⟨h.forwards, hslept, ht₀, le_rfl⟩
      · exact h
    | cpuExec now ir =>
      simp only [trackStep]
      split
      · exact Ordered.wake (x := ⟨t₀, now, now⟩) h hslept ⟨ht₀, le_rfl⟩
      · exact ⟨h.forwards, hslept, ht₀, le_rfl⟩
  | polled t₀ t₁ =>
    obtain ⟨hslept, ht₀, ht₁⟩ := hb
    cases e with
    | wfi now | idlePoll now f ir => exact h
    | cpuExec now ir =>
      simp only [trackStep]
      split
      · exact Ordered.wake (x := ⟨t₀, t₁, now⟩) h hslept ⟨ht₀, ht₁⟩
      · exact h

/-- Events in time order give sleeps in time order. -/
theorem ordered_track (hsorted : events.Pairwise fun a b => a.now ≤ b.now) {last : ℤ}
    (hlast : ∀ e ∈ events, e.now.toInt ≤ last) (hmin : -2 ^ 63 ≤ last) :
    Ordered (track events) last := by
  induction events using reverseRecOn generalizing last with
  | nil =>
    refine ⟨nofun, ?_⟩
    change (0 : ℤ) ≤ last + 2 ^ 63
    omega
  | append_singleton es e ih =>
    obtain ⟨hes, -, hcross⟩ := pairwise_append.mp hsorted
    have hbefore : ∀ e' ∈ es, e'.now.toInt ≤ e.now.toInt := fun e' he' =>
      Int64.le_iff_toInt_le.mp (hcross e' he' e (mem_singleton_self e))
    rw [track_concat]
    exact (ih hes hbefore e.now.le_toInt).step.mono (hlast e (by simp))

/-- Time to the first poll is time slept exactly when no sleep goes on after its first poll. -/
theorem timeToFirstPoll_eq_iff {l : List Sleep}
    (hf : ∀ x ∈ l, x.wfi.toInt ≤ x.firstPoll.toInt ∧ x.firstPoll.toInt ≤ x.wake.toInt) :
    0 ≤ timeToFirstPoll l ∧ timeToFirstPoll l ≤ timeSlept l ∧
      (timeToFirstPoll l = timeSlept l ↔ ∀ x ∈ l, x.firstPoll = x.wake) := by
  induction l with
  | nil => simp [timeToFirstPoll, timeSlept]
  | cons x l ih =>
    obtain ⟨hx₀, hx₁⟩ := hf x (.head _)
    obtain ⟨hpos, hle, hiff⟩ := ih fun y hy => hf y (.tail _ hy)
    have hpoll : timeToFirstPoll (x :: l) = (x.firstPoll.toInt - x.wfi.toInt) + timeToFirstPoll l :=
      rfl
    have hslept : timeSlept (x :: l) = (x.wake.toInt - x.wfi.toInt) + timeSlept l := rfl
    refine ⟨by omega, by omega, ?_⟩
    rw [forall_mem_cons, ← hiff, ← Int64.toInt_inj]
    omega

/-- **When sleep is accounted exactly.** For a CPU that is running again, `sleep_energy` is the
total time from `WFI` to wake-up if and only if in every sleep the first call of `cpu_has_work`
came at the moment of the wake-up. -/
theorem sleepEnergy_exact_iff (h : run sleepStep (initSleepState n) events = some s)
    (hsorted : events.Pairwise fun a b => a.now ≤ b.now) (hrun : s.halted = false) :
    (s.var.sleepEnergy.toNat : ℤ) = timeSlept (track events).2 ↔
      ∀ x ∈ (track events).2, x.firstPoll = x.wake := by
  have hord : Ordered (track events) (2 ^ 63 - 1) :=
    ordered_track hsorted (fun e _ => Int.le_sub_one_of_lt e.now.toInt_lt) (by omega)
  obtain ⟨hpos, hle, hiff⟩ := timeToFirstPoll_eq_iff hord.forwards
  have hmax : timeSlept (track events).2 < 2 ^ 64 := by
    have hb := hord.bounded
    rw [(tracked_of_run h).running_of_not_halted hrun] at hb
    simp only [Phase.Bounded] at hb
    omega
  have henergy : (s.var.sleepEnergy.toNat : ℤ) = timeToFirstPoll (track events).2 := by
    rw [sleepEnergy_of_run h hrun, UInt64.ofInt, UInt64.toNat_ofNat']
    omega
  rw [henergy, hiff]

/-- A halted CPU that is polled after ten nanoseconds, without an interrupt, and woken after a
hundred. -/
def polledSleep : List SleepEvent :=
  [.wfi 0, .idlePoll 10 ⟨false, false, false⟩ 0, .cpuExec 100 2]

/-- Ninety of the hundred nanoseconds are missing from `sleep_energy`. -/
theorem sleepEnergy_short_after_idle_poll :
    ¬ ∀ s, run sleepStep (initSleepState ⟨0, by decide⟩) polledSleep = some s →
      (polledSleep.Pairwise fun a b => a.now ≤ b.now) → s.halted = false →
      (s.var.sleepEnergy.toNat : ℤ) = timeSlept (track polledSleep).2 := by
  intro hall
  have hsorted : polledSleep.Pairwise fun a b => a.now ≤ b.now := by
    simp only [polledSleep, pairwise_cons]
    decide
  exact absurd (hall _ rfl hsorted rfl) (by decide)

theorem sleepEnergy_exact_unpolled :
    ∃ s, run sleepStep (initSleepState ⟨0, by decide⟩) [.wfi 0, .cpuExec 100 2] = some s ∧
      (s.var.sleepEnergy.toNat : ℤ) = timeSlept (track [.wfi 0, .cpuExec 100 2]).2 := by
  refine ⟨_, rfl, (sleepEnergy_exact_iff rfl ?_ rfl).mpr (by decide)⟩
  simp only [pairwise_cons]
  decide

end VariabilityTestbed.Variability

import Mathlib.Tactic.Linarith
import Mathlib.Tactic.Ring
import VariabilityTestbed.Lib.Runs

/-!
# Virtual time from the instruction counter

With `-icount` the virtual clock is the number of instructions executed, scaled by a power of two,
plus a bias. The counter is advanced by a whole slice before the slice is executed, and what has not
been executed yet is subtracted when the clock is read. The scale changes in adaptive mode. While
all CPUs are idle no instruction is executed, and the bias is moved on by the real time that has
passed, the *warp*.

A machine is the clock together with what the host knows of the warp: since when the CPUs have been
idle. In adaptive mode the warp moves the clock to the real time when that is nearer, also when it
lies in the past. And `vm_clock_warp_start` is zero, which is not the value for "no warp", until
`qemu_clock_warp` has been called.
-/

namespace VariabilityTestbed.Icount

open Function Runs Option

/-! ### The clock -/

/-- `use_icount`: one instruction every `2 ^ shift` nanoseconds, or as fast as the host is. -/
inductive Mode where
  | fixed (shift : ℕ)
  | adaptive
  deriving DecidableEq

structure Config where
  mode : Mode
  iothread : Bool
  cpus : ℕ

/-- The instructions that a CPU may still execute: `icount_decr.u16.low` and `icount_extra`. -/
structure Budget where
  low : BitVec 16
  extra : ℤ

def Budget.left (b : Budget) : ℤ := b.low.toNat + b.extra

/-- The variables of `qemu-timer.c` and `cpus.c`. `rtClock` is the host's clock, `warpTimer` is when
the warp timer fires, if it is armed. -/
structure Clock (cpus : ℕ) where
  rtClock : ℤ
  cpuTicksEnabled : Bool
  cpuClockOffset : ℤ
  vmRunning : Bool
  qemuIcount : ℤ
  icountTimeShift : ℕ
  qemuIcountBias : ℤ
  lastDelta : ℤ
  vmClockWarpStart : ℤ
  warpTimer : Option ℤ
  cpuSingleEnv : Option (Fin cpus)
  budget : Fin cpus → Budget

variable {cpus : ℕ}

/-- `cpu_get_clock`: the real time during which the machine ran. -/
def cpuGetClock (s : Clock cpus) : ℤ :=
  if s.cpuTicksEnabled then s.rtClock + s.cpuClockOffset else s.cpuClockOffset

/-- What `cpu_get_icount` subtracts from the counter. -/
def pending (s : Clock cpus) : ℤ :=
  match s.cpuSingleEnv with
  | none => 0
  | some env => (s.budget env).left

/-- `cpu_get_icount`, which is `qemu_get_clock_ns(vm_clock)`. -/
def cpuGetIcount (s : Clock cpus) : ℤ :=
  s.qemuIcountBias + (s.qemuIcount - pending s) * 2 ^ s.icountTimeShift

/-- `cpu_enable_ticks`. -/
def cpuEnableTicks (s : Clock cpus) : Clock cpus :=
  if s.cpuTicksEnabled then s
  else { s with cpuClockOffset := s.cpuClockOffset - s.rtClock, cpuTicksEnabled := true }

/-- `cpu_disable_ticks`. -/
def cpuDisableTicks (s : Clock cpus) : Clock cpus :=
  if s.cpuTicksEnabled then { s with cpuClockOffset := cpuGetClock s, cpuTicksEnabled := false }
  else s

/-- `vm_start`. -/
def vmStart (s : Clock cpus) : Clock cpus :=
  if s.vmRunning then s else { cpuEnableTicks s with vmRunning := true }

/-- `vm_stop`. -/
def vmStop (s : Clock cpus) : Clock cpus :=
  if s.vmRunning then { cpuDisableTicks s with vmRunning := false } else s

/-- `ICOUNT_WOBBLE`. -/
def icountWobble : ℤ := 1000000000 / 10

/-- `MAX_ICOUNT_SHIFT`. -/
def maxIcountShift : ℕ := 10

/-- The shift that `icount_adjust` goes on with. -/
def adjustedShift (s : Clock cpus) (delta : ℤ) : ℕ :=
  -- the guest is too far ahead
  let shift :=
    if 0 < delta ∧ s.lastDelta + icountWobble < delta * 2 ∧ 0 < s.icountTimeShift then
      s.icountTimeShift - 1
    else s.icountTimeShift
  -- the guest is too far behind
  if delta < 0 ∧ delta * 2 < s.lastDelta - icountWobble ∧ shift < maxIcountShift then
    shift + 1 else shift

/-- `icount_adjust`. -/
def icountAdjust (s : Clock cpus) : Clock cpus :=
  if s.vmRunning then
    let curTime := cpuGetClock s
    let curIcount := cpuGetIcount s
    let delta := curIcount - curTime
    let shift := adjustedShift s delta
    { s with
      icountTimeShift := shift
      lastDelta := delta
      qemuIcountBias := curIcount - s.qemuIcount * 2 ^ shift }
  else s

/-- `qemu_icount_round`. `1 << icount_time_shift` is an `int`. -/
def qemuIcountRound (s : Clock cpus) (count : ℤ) : Option ℤ :=
  if s.icountTimeShift < 31 then some ((count + 2 ^ s.icountTimeShift - 1) / 2 ^ s.icountTimeShift)
  else none

/-- `qemu_next_icount_deadline`. `timer` is when the first timer of the virtual clock fires. -/
def qemuNextIcountDeadline (s : Clock cpus) (timer : Option ℤ) : ℤ :=
  let delta :=
    match timer with
    | none => 0x7fffffff
    | some expireTime => expireTime - cpuGetIcount s
  if delta < 0 then 0 else delta

variable (c : Config)

/-- How far `icount_warp_rt` moves the clock. -/
def warpDelta (s : Clock cpus) : ℤ :=
  let warpDelta := s.rtClock - s.vmClockWarpStart
  match c.mode with
  | .fixed _ => warpDelta
  | .adaptive => min warpDelta (cpuGetClock s - cpuGetIcount s)

/-- `icount_warp_rt`. While the machine runs, it reads the first timer of the virtual clock without
a test whether there is one. -/
def icountWarpRt (s : Clock cpus) (timer : Option ℤ) : Option (Clock cpus) :=
  if s.vmClockWarpStart = -1 then some s
  else if s.vmRunning && timer.isNone then none
  else
    some { s with
      qemuIcountBias := if s.vmRunning then s.qemuIcountBias + warpDelta c s else s.qemuIcountBias
      vmClockWarpStart := -1 }

/-- `qemu_clock_warp(vm_clock)`. `idle` is what `all_cpu_threads_idle` returns. Only a build with an
I/O thread has a warp timer. -/
def qemuClockWarp (s : Clock cpus) (idle : Bool) (timer : Option ℤ) : Option (Clock cpus) :=
  if c.iothread then
    (icountWarpRt c s timer).map fun s =>
      if idle && timer.isSome then
        let s := { s with vmClockWarpStart := s.rtClock }
        let deadline := qemuNextIcountDeadline s timer
        if 0 < deadline then { s with warpTimer := some (s.vmClockWarpStart + deadline) } else s
      else { s with warpTimer := none }
  else some s

/-- What `qemu_calculate_timeout` does to the counter in a build without an I/O thread. -/
def qemuCalculateTimeout (s : Clock cpus) (timer : Option ℤ) : Option (Clock cpus) :=
  let delta :=
    match c.mode with
    | .fixed _ => 0
    | .adaptive => cpuGetIcount s - cpuGetClock s
  if s.vmRunning = false ∨ 0 < delta then some s
  else
    (qemuIcountRound s (min (qemuNextIcountDeadline s timer) 10000000)).map fun count =>
      { s with qemuIcount := s.qemuIcount + count }

/-- The instructions that have not been executed are taken off the counter. -/
def foldBack (s : Clock cpus) (env : Fin cpus) : Clock cpus :=
  { s with
    qemuIcount := s.qemuIcount - (s.budget env).left
    budget := update s.budget env ⟨0, 0⟩ }

/-- A number of instructions, as `icount_decr.u16.low` and `icount_extra`. -/
def budgetOf (count : ℤ) : Budget :=
  let decr := if 0xffff < count then 0xffff else count
  ⟨BitVec.ofInt 16 decr, count - decr⟩

/-- `tcg_cpu_exec`, up to where `cpu_exec` has set `cpu_single_env`. -/
def tcgCpuExec (s : Clock cpus) (env : Fin cpus) (timer : Option ℤ) : Option (Clock cpus) :=
  let s := foldBack s env
  (qemuIcountRound s (qemuNextIcountDeadline s timer)).map fun count =>
    { s with
      qemuIcount := s.qemuIcount + count
      budget := update s.budget env (budgetOf count)
      cpuSingleEnv := some env }

/-- `n` instructions of the translated code, which are at most those in `icount_decr.u16.low`. -/
def execute (s : Clock cpus) (env : Fin cpus) (n : ℕ) : Option (Clock cpus) :=
  if n ≤ (s.budget env).low.toNat then
    some { s with
      budget := update s.budget env
        ⟨(s.budget env).low - BitVec.ofNat 16 n, (s.budget env).extra⟩ }
  else none

/-- `cpu_exec` refills the decrementer. -/
def refill (s : Clock cpus) (env : Fin cpus) : Option (Clock cpus) :=
  if (s.budget env).extra = 0 then none
  else some { s with budget := update s.budget env (budgetOf (s.budget env).left) }

/-- `tcg_cpu_exec` from where `cpu_exec` resets `cpu_single_env`. -/
def tcgCpuExecEnd (s : Clock cpus) (env : Fin cpus) : Clock cpus :=
  { foldBack s env with cpuSingleEnv := none }

/-! ### Runs -/

/-- What happens. `timer` is when the first timer of the virtual clock fires. Callbacks of timers
are not called in the middle of a slice. -/
inductive Event (cpus : ℕ) where
  | pass (d : ℕ)
  | vmStart
  | vmStop
  | slice (env : Fin cpus) (timer : Option ℤ)
  | execute (n : ℕ)
  | refill
  | sliceEnd
  | adjust
  | clockWarp (idle : Bool) (timer : Option ℤ)
  | warpTimer (timer : Option ℤ)
  | calculateTimeout (timer : Option ℤ)

def clockStep (s : Clock cpus) : Event cpus → Option (Clock cpus)
  | .pass d => some { s with rtClock := s.rtClock + d }
  | .vmStart => some (vmStart s)
  | .vmStop => some (vmStop s)
  | .slice env timer => if s.cpuSingleEnv = none then tcgCpuExec s env timer else none
  | .execute n => s.cpuSingleEnv.bind fun env => execute s env n
  | .refill => s.cpuSingleEnv.bind fun env => refill s env
  | .sliceEnd => s.cpuSingleEnv.map fun env => tcgCpuExecEnd s env
  | .adjust => if s.cpuSingleEnv = none then some (icountAdjust s) else none
  | .clockWarp idle timer => qemuClockWarp c s idle timer
  | .warpTimer timer =>
    match s.warpTimer with
    | none => none
    | some expireTime =>
      if s.cpuSingleEnv = none ∧ expireTime ≤ s.rtClock then
        icountWarpRt c { s with warpTimer := none } timer
      else none
  | .calculateTimeout timer =>
    if s.cpuSingleEnv = none ∧ c.iothread = false then qemuCalculateTimeout c s timer else none

/-- The clock, since when there is a warp that the clock does not account for yet, and whether
`qemu_clock_warp` has been called. -/
structure Machine (cpus : ℕ) where
  clock : Clock cpus
  warp : Option ℤ
  called : Bool

/-- The real time since the warp started. -/
def Machine.warped (m : Machine cpus) : ℤ :=
  match m.warp with
  | none => 0
  | some start => m.clock.rtClock - start

/-- A warp starts when `qemu_clock_warp` finds the CPUs idle while a timer waits, and ends when it
is accounted for. -/
def warpStep (m : Machine cpus) : Event cpus → Option ℤ
  | .clockWarp idle timer =>
    if c.iothread then if idle && timer.isSome then some m.clock.rtClock else none else m.warp
  | .warpTimer _ => none
  | _ => m.warp

def calledStep (m : Machine cpus) : Event cpus → Bool
  | .clockWarp _ _ => m.called || c.iothread
  | _ => m.called

def step (m : Machine cpus) (e : Event cpus) : Option (Machine cpus) :=
  (clockStep c m.clock e).map fun s => ⟨s, warpStep c m e, calledStep c m e⟩

/-- Nothing has happened, and the host's clock shows `rtClock`. -/
def reset (rtClock : ℤ) : Machine c.cpus where
  clock :=
    { rtClock := rtClock
      cpuTicksEnabled := false
      cpuClockOffset := 0
      vmRunning := false
      qemuIcount := 0
      icountTimeShift :=
        match c.mode with
        | .fixed shift => shift
        | .adaptive => 3
      qemuIcountBias := 0
      lastDelta := 0
      vmClockWarpStart := 0
      warpTimer := none
      cpuSingleEnv := none
      budget := fun _ => ⟨0, 0⟩ }
  warp := none
  called := false

/-- In adaptive mode the guest is not ahead of real time. -/
def NotAhead (s : Clock cpus) : Prop := c.mode = .adaptive → cpuGetIcount s ≤ cpuGetClock s

/-- The machine does not run before a first `qemu_clock_warp`, and a warp is accounted for when
there is a timer and the guest is not ahead of real time. -/
def Careful (m : Machine cpus) : Event cpus → Prop
  | .vmStart => c.iothread = true → m.called = true
  | .clockWarp _ timer | .warpTimer timer =>
    m.clock.vmRunning = true → m.clock.vmClockWarpStart ≠ -1 → timer.isSome = true ∧
      NotAhead c m.clock
  | _ => True

instance (s : Clock cpus) : Decidable (NotAhead c s) := inferInstanceAs (Decidable (_ → _))

instance (m : Machine cpus) : (e : Event cpus) → Decidable (Careful c m e)
  | .vmStart => inferInstanceAs (Decidable (_ → _))
  | .clockWarp _ _ | .warpTimer _ => inferInstanceAs (Decidable (_ → _ → _))
  | .pass _ | .vmStop | .slice _ _ | .execute _ | .refill | .sliceEnd | .adjust
  | .calculateTimeout _ =>
    inferInstanceAs (Decidable True)

/-! ### What each function does -/

/-- How far the clock is moved by a call of `icount_warp_rt`. -/
def accounted (s : Clock cpus) : ℤ :=
  if s.vmClockWarpStart ≠ -1 ∧ s.vmRunning = true then warpDelta c s else 0

/-- In a slice of `env` the counter and the budget change together, but for `n` instructions that
are executed. -/
def Slice (s : Clock cpus) (env : Fin cpus) (n : ℕ) (s' : Clock cpus) : Prop :=
  ∃ count b single,
    s' = { s with qemuIcount := count, budget := update s.budget env b, cpuSingleEnv := single } ∧
    count - b.left = s.qemuIcount - (s.budget env).left + n ∧ 0 ≤ b.extra ∧
    (single = some env ∨ single = none ∧ b.left = 0)

section

variable {c} {s s' : Clock cpus}

theorem qemuIcountRound_nonneg {count n : ℤ} (h : qemuIcountRound s count = some n)
    (hcount : 0 ≤ count) :
    0 ≤ n := by
  rw [qemuIcountRound] at h
  split_ifs at h
  cases h
  have hpow : (0 : ℤ) < 2 ^ s.icountTimeShift := Int.pow_pos (by decide)
  exact Int.ediv_nonneg (by omega) hpow.le

theorem qemuNextIcountDeadline_nonneg (s : Clock cpus) (timer : Option ℤ) :
    0 ≤ qemuNextIcountDeadline s timer := by
  rw [qemuNextIcountDeadline.eq_def]
  dsimp only
  split_ifs with h
  · exact le_refl 0
  · exact Int.not_lt.mp h

/-- The budget is all of the count, whatever the decrementer holds. -/
theorem budgetOf_spec {count : ℤ} (hcount : 0 ≤ count) :
    (budgetOf count).left = count ∧ 0 ≤ (budgetOf count).extra := by
  rw [budgetOf, Budget.left]
  dsimp only
  rw [BitVec.toNat_ofInt]
  split_ifs with h <;> omega

theorem vmStart_eq (s : Clock cpus) : ∃ enabled offset,
    vmStart s = { s with
      cpuTicksEnabled := enabled, cpuClockOffset := offset, vmRunning := true } := by
  rw [vmStart, cpuEnableTicks]
  split_ifs with hrunning
  · refine ⟨s.cpuTicksEnabled, s.cpuClockOffset, ?_⟩
    rw [← hrunning]
  · exact ⟨_, _, rfl⟩
  · exact ⟨_, _, rfl⟩

theorem vmStop_eq (s : Clock cpus) : ∃ enabled offset,
    vmStop s = { s with
      cpuTicksEnabled := enabled, cpuClockOffset := offset, vmRunning := false } := by
  rw [vmStop, cpuDisableTicks]
  split_ifs with hrunning
  · exact ⟨_, _, rfl⟩
  · exact ⟨_, _, rfl⟩
  · refine ⟨s.cpuTicksEnabled, s.cpuClockOffset, ?_⟩
    rw [← Bool.eq_false_iff.mpr hrunning]

theorem slice_tcgCpuExec {env : Fin cpus} {timer : Option ℤ}
    (h : tcgCpuExec s env timer = some s') :
    Slice s env 0 s' := by
  obtain ⟨count, hcount, rfl⟩ := map_eq_some_iff.mp h
  have hspec :=
    budgetOf_spec (qemuIcountRound_nonneg hcount (qemuNextIcountDeadline_nonneg _ timer))
  refine ⟨s.qemuIcount - (s.budget env).left + count, budgetOf count, some env, ?_, ?_,
    hspec.2, .inl rfl⟩
  · rw [foldBack, update_idem]
  · rw [hspec.1, add_sub_cancel_right, Nat.cast_zero, add_zero]

theorem slice_execute {env : Fin cpus} {n : ℕ} (hextra : 0 ≤ (s.budget env).extra)
    (hsingle : s.cpuSingleEnv = some env) (h : execute s env n = some s') : Slice s env n s' := by
  rw [execute] at h
  split_ifs at h with hn
  cases h
  refine ⟨_, _, _, rfl, ?_, hextra, .inl hsingle⟩
  have hlt := (s.budget env).low.isLt
  have hlow : ((s.budget env).low - BitVec.ofNat 16 n).toNat = (s.budget env).low.toNat - n := by
    rw [BitVec.toNat_sub, BitVec.toNat_ofNat]
    omega
  simp only [Budget.left, hlow]
  omega

theorem slice_refill {env : Fin cpus} (hextra : 0 ≤ (s.budget env).extra)
    (hsingle : s.cpuSingleEnv = some env) (h : refill s env = some s') : Slice s env 0 s' := by
  rw [refill] at h
  split_ifs at h
  cases h
  have hleft : 0 ≤ (s.budget env).left := by
    rw [Budget.left]
    omega
  obtain ⟨hleft, hextra⟩ := budgetOf_spec hleft
  exact ⟨_, _, _, rfl, by rw [hleft, Nat.cast_zero, add_zero], hextra, .inl hsingle⟩

theorem slice_tcgCpuExecEnd (s : Clock cpus) (env : Fin cpus) :
    Slice s env 0 (tcgCpuExecEnd s env) :=
  ⟨_, ⟨0, 0⟩, _, rfl, by simp [Budget.left, foldBack], le_refl 0, .inr ⟨rfl, rfl⟩⟩

/-- The bias makes up for a change of the shift. -/
theorem icountAdjust_eq (hsingle : s.cpuSingleEnv = none) : ∃ shift delta bias,
    icountAdjust s =
      { s with icountTimeShift := shift, lastDelta := delta, qemuIcountBias := bias } ∧
    cpuGetIcount (icountAdjust s) = cpuGetIcount s := by
  rw [icountAdjust]
  split_ifs
  · refine ⟨_, _, _, rfl, ?_⟩
    simp only [cpuGetIcount, pending, hsingle]
    ring
  · exact ⟨_, _, _, rfl, rfl⟩

theorem icountWarpRt_eq {timer : Option ℤ} (h : icountWarpRt c s timer = some s') :
    s' = { s with qemuIcountBias := s.qemuIcountBias + accounted c s, vmClockWarpStart := -1 } := by
  rw [icountWarpRt] at h
  rw [accounted]
  split_ifs at h with hstart _ hrunning
  · rw [if_neg (fun h => h.1 hstart), add_zero, ← hstart]
    exact (some.inj h).symm
  · rw [if_pos ⟨hstart, hrunning⟩]
    exact (some.inj h).symm
  · rw [if_neg (fun h => hrunning h.2), add_zero]
    exact (some.inj h).symm

theorem isSome_icountWarpRt {timer : Option ℤ}
    (h : s.vmRunning = true → s.vmClockWarpStart ≠ -1 → timer.isSome = true) :
    (icountWarpRt c s timer).isSome = true := by
  rw [icountWarpRt]
  split_ifs with hstart hnull
  · rfl
  · rw [Bool.and_eq_true, isNone_iff_eq_none] at hnull
    exact nomatch hnull.2 ▸ h hnull.1 hstart
  all_goals rfl

theorem qemuClockWarp_eq (hio : c.iothread = true) {idle : Bool} {timer : Option ℤ}
    (h : qemuClockWarp c s idle timer = some s') : ∃ warpTimer, s' =
      { s with
        qemuIcountBias := s.qemuIcountBias + accounted c s
        vmClockWarpStart := if idle && timer.isSome then s.rtClock else -1
        warpTimer := warpTimer } := by
  rw [qemuClockWarp, if_pos hio] at h
  obtain ⟨s₁, hs₁, rfl⟩ := map_eq_some_iff.mp h
  rw [icountWarpRt_eq hs₁]
  dsimp only
  split_ifs <;> exact ⟨_, rfl⟩

theorem qemuCalculateTimeout_eq {timer : Option ℤ} (h : qemuCalculateTimeout c s timer = some s') :
    ∃ count, 0 ≤ count ∧ s' = { s with qemuIcount := s.qemuIcount + count } := by
  rw [qemuCalculateTimeout.eq_def] at h
  dsimp only at h
  split_ifs at h
  · cases h
    exact ⟨0, le_refl 0, by rw [add_zero]⟩
  · obtain ⟨count, hcount, rfl⟩ := map_eq_some_iff.mp h
    exact ⟨count, qemuIcountRound_nonneg hcount
      (le_min (qemuNextIcountDeadline_nonneg s timer) (by decide)), rfl⟩

end

/-! ### The invariant -/

/-- Between slices nothing is left of a budget. -/
structure Budgeted (s : Clock cpus) : Prop where
  extra : ∀ env, 0 ≤ (s.budget env).extra
  left : ∀ env, s.cpuSingleEnv ≠ some env → (s.budget env).left = 0

/-- `vm_clock_warp_start` is the start of the warp, from the first `qemu_clock_warp` on. -/
structure Warped (c : Config) (m : Machine cpus) : Prop where
  start : m.called = true → m.clock.vmClockWarpStart = m.warp.getD (-1)
  uncalled : m.called = false →
    m.clock.warpTimer = none ∧ m.warp = none ∧ (c.iothread = true → m.clock.vmRunning = false)
  past : ∀ start, m.warp = some start → start ≤ m.clock.rtClock

section

variable {s s' : Clock cpus} (h : Budgeted s)
include h

theorem Budgeted.congr (hsingle : s'.cpuSingleEnv = s.cpuSingleEnv)
    (hbudget : s'.budget = s.budget) :
    Budgeted s' where
  extra := hbudget ▸ h.extra
  left := hbudget ▸ hsingle ▸ h.left

/-- What is left of the budget of a CPU is subtracted, if no other CPU runs. -/
theorem Budgeted.cpuGetIcount_eq {env : Fin cpus}
    (hother : s.cpuSingleEnv = none ∨ s.cpuSingleEnv = some env) :
    cpuGetIcount s = s.qemuIcountBias + (s.qemuIcount - (s.budget env).left) *
      2 ^ s.icountTimeShift := by
  obtain hsingle | hsingle := hother
  · rw [cpuGetIcount, pending, hsingle, h.left env (hsingle ▸ nofun)]
  · rw [cpuGetIcount, pending, hsingle]

/-- A slice keeps the invariant, and the clock counts the instructions that are executed. -/
theorem Budgeted.slice {env : Fin cpus} {n : ℕ}
    (hother : s.cpuSingleEnv = none ∨ s.cpuSingleEnv = some env) (hslice : Slice s env n s') :
    Budgeted s' ∧ cpuGetIcount s' = cpuGetIcount s + n * 2 ^ s.icountTimeShift := by
  have hvalue := h.cpuGetIcount_eq hother
  obtain ⟨count, b, single, rfl, hcount, hextra, hsingle⟩ := hslice
  have hbudgeted : Budgeted
      { s with qemuIcount := count, budget := update s.budget env b, cpuSingleEnv := single } := by
    refine ⟨fun env' => ?_, fun env' hne => ?_⟩
    · show 0 ≤ (update s.budget env b env').extra
      rw [update_apply]
      split_ifs
      · exact hextra
      · exact h.extra env'
    · show (update s.budget env b env').left = 0
      rw [update_apply]
      split_ifs with henv
      · exact (hsingle.resolve_left (henv ▸ hne)).2
      · refine h.left env' fun hsome => ?_
        obtain hnone | hsome' := hother
        · exact nomatch hnone.symm.trans hsome
        · exact henv (some.inj (hsome.symm.trans hsome'))
  refine ⟨hbudgeted, ?_⟩
  rw [hbudgeted.cpuGetIcount_eq (hsingle.symm.imp_left And.left), hvalue]
  dsimp only
  rw [update_self, hcount]
  ring

end

section

variable {c} {m : Machine cpus} (h : Warped c m)
include h

/-- Slices, and changes of the counter and of its scale, leave the host's clock and the warp
alone. -/
theorem Warped.congr {s' : Clock cpus} (hclock : s'.rtClock = m.clock.rtClock)
    (hrunning : s'.vmRunning = m.clock.vmRunning)
    (hstart : s'.vmClockWarpStart = m.clock.vmClockWarpStart)
    (htimer : s'.warpTimer = m.clock.warpTimer) : Warped c ⟨s', m.warp, m.called⟩ where
  start := hstart ▸ h.start
  uncalled := htimer ▸ hrunning ▸ h.uncalled
  past := hclock ▸ h.past

theorem Warped.slice {s' : Clock cpus} {env : Fin cpus} {n : ℕ} (hslice : Slice m.clock env n s') :
    Warped c ⟨s', m.warp, m.called⟩ := by
  obtain ⟨count, b, single, rfl, -⟩ := hslice
  exact h.congr rfl rfl rfl rfl

theorem Warped.pass (d : ℕ) :
    Warped c ⟨{ m.clock with rtClock := m.clock.rtClock + d }, m.warp, m.called⟩ where
  start := h.start
  uncalled := h.uncalled
  past start hstart :=
    (h.past start hstart).trans (Int.le_add_of_nonneg_right (Int.natCast_nonneg d))

theorem Warped.switch {enabled running : Bool} {offset : ℤ}
    (hrunning : m.called = false → c.iothread = true → running = false) :
    Warped c ⟨{ m.clock with
      cpuTicksEnabled := enabled, cpuClockOffset := offset, vmRunning := running },
      m.warp, m.called⟩ where
  start := h.start
  uncalled hc := ⟨(h.uncalled hc).1, (h.uncalled hc).2.1, hrunning hc⟩
  past := h.past

/-- The warp timer fires only after a first `qemu_clock_warp`. -/
theorem Warped.called {expireTime : ℤ} (htimer : m.clock.warpTimer = some expireTime) :
    m.called = true := by
  by_contra hc
  exact nomatch htimer.symm.trans (h.uncalled (Bool.not_eq_true _ ▸ hc)).1

theorem Warped.warped_nonneg : 0 ≤ m.warped := by
  rw [Machine.warped]
  split
  next => exact le_refl 0
  next start hstart => exact Int.sub_nonneg.mpr (h.past start hstart)

/-- What `icount_warp_rt` adds is between nothing and the length of the warp. -/
theorem Warped.accounted_bounds (hio : m.called = false → c.iothread = true)
    (hahead : m.clock.vmRunning = true → m.clock.vmClockWarpStart ≠ -1 → NotAhead c m.clock) :
    0 ≤ accounted c m.clock ∧ accounted c m.clock ≤ m.warped := by
  have hwarped := h.warped_nonneg
  rw [accounted]
  split_ifs with hrun
  · obtain ⟨hstart, hrunning⟩ := hrun
    -- the machine runs, so `qemu_clock_warp` has been called
    have hcalled : m.called = true := by
      by_contra hc
      have hc : m.called = false := Bool.not_eq_true _ ▸ hc
      exact nomatch hrunning.symm.trans ((h.uncalled hc).2.2 (hio hc))
    have hdelta : m.clock.rtClock - m.clock.vmClockWarpStart = m.warped := by
      rw [h.start hcalled] at hstart ⊢
      rw [Machine.warped]
      cases hw : m.warp with
      | none => exact absurd (hw ▸ rfl) hstart
      | some start => rfl
    rw [warpDelta, hdelta]
    cases hmode : c.mode with
    | fixed shift => exact ⟨hwarped, le_refl _⟩
    | adaptive =>
      have hle := hahead hrunning hstart hmode
      exact ⟨le_min hwarped (Int.sub_nonneg.mpr hle), min_le_left _ _⟩
  · exact ⟨le_refl 0, hwarped⟩

end

/-! ### Every run -/

/-- A call of `icount_warp_rt`. -/
def Event.accounts : Event cpus → Bool
  | .clockWarp _ _ | .warpTimer _ => true
  | _ => false

/-- What one event may do to the value of the clock. -/
structure Ticks (m : Machine cpus) (e : Event cpus) (m' : Machine cpus) : Prop where
  le : cpuGetIcount m.clock ≤ cpuGetIcount m'.clock
  adjust : e = .adjust → cpuGetIcount m'.clock = cpuGetIcount m.clock
  warp : e.accounts = true → cpuGetIcount m'.clock ≤ cpuGetIcount m.clock + m.warped

section

variable {c} {m m' : Machine cpus}

/-- The value of the clock when its bias is moved on. -/
theorem Ticks.of_add {e : Event cpus} {d : ℤ} (hadjust : e ≠ .adjust) (h0 : 0 ≤ d)
    (hd : d ≤ m.warped) (h : cpuGetIcount m'.clock = cpuGetIcount m.clock + d) : Ticks m e m' where
  le := h ▸ Int.le_add_of_nonneg_right h0
  adjust he := absurd he hadjust
  warp _ := h ▸ Int.add_le_add_left hd _

theorem Ticks.of_eq {e : Event cpus} (haccounts : e.accounts = false)
    (h : cpuGetIcount m'.clock = cpuGetIcount m.clock) : Ticks m e m' :=
  ⟨h.ge, fun _ => h, fun he => nomatch haccounts.symm.trans he⟩

theorem step_spec {e : Event cpus} (hb : Budgeted m.clock) (hw : Warped c m) (he : Careful c m e)
    (hstep : step c m e = some m') : (Budgeted m'.clock ∧ Warped c m') ∧ Ticks m e m' := by
  obtain ⟨s', hs', rfl⟩ := map_eq_some_iff.mp hstep
  have hslice : ∀ {env n}, m.clock.cpuSingleEnv = none ∨ m.clock.cpuSingleEnv = some env →
      Slice m.clock env n s' → e ≠ .adjust → e.accounts = false →
      (Budgeted s' ∧ Warped c ⟨s', m.warp, m.called⟩) ∧ Ticks m e ⟨s', m.warp, m.called⟩ := by
    intro env n hother hslice hadjust haccounts
    obtain ⟨hb', hvalue⟩ := hb.slice hother hslice
    have hpow : (0 : ℤ) ≤ n * 2 ^ m.clock.icountTimeShift := by positivity
    exact ⟨⟨hb', hw.slice hslice⟩, (Int.le_add_of_nonneg_right hpow).trans_eq hvalue.symm,
      fun he => absurd he hadjust, fun he => nomatch haccounts.symm.trans he⟩
  cases e with
  | pass d =>
    cases hs'
    exact ⟨⟨hb.congr rfl rfl, hw.pass d⟩, .of_eq rfl rfl⟩
  | vmStart =>
    cases hs'
    obtain ⟨enabled, offset, hstart⟩ := vmStart_eq m.clock
    rw [hstart]
    exact ⟨⟨hb.congr rfl rfl, hw.switch fun hc hio => absurd (he hio) (hc ▸ nofun)⟩, .of_eq rfl rfl⟩
  | vmStop =>
    cases hs'
    obtain ⟨enabled, offset, hstop⟩ := vmStop_eq m.clock
    rw [hstop]
    exact ⟨⟨hb.congr rfl rfl, hw.switch fun _ _ => rfl⟩, .of_eq rfl rfl⟩
  | slice env timer =>
    obtain ⟨hsingle, hs'⟩ := ite_none_right_eq_some.mp hs'
    exact hslice (.inl hsingle) (slice_tcgCpuExec hs') nofun rfl
  | execute n =>
    obtain ⟨env, hsingle, hs'⟩ := bind_eq_some_iff.mp hs'
    exact hslice (.inr hsingle) (slice_execute (hb.extra env) hsingle hs') nofun rfl
  | refill =>
    obtain ⟨env, hsingle, hs'⟩ := bind_eq_some_iff.mp hs'
    exact hslice (.inr hsingle) (slice_refill (hb.extra env) hsingle hs') nofun rfl
  | sliceEnd =>
    obtain ⟨env, hsingle, rfl⟩ := map_eq_some_iff.mp hs'
    exact hslice (.inr hsingle) (slice_tcgCpuExecEnd m.clock env) nofun rfl
  | adjust =>
    obtain ⟨hsingle, hs'⟩ := ite_none_right_eq_some.mp hs'
    cases hs'
    obtain ⟨shift, delta, bias, hadjust, hvalue⟩ := icountAdjust_eq hsingle
    rw [hadjust] at hvalue ⊢
    exact ⟨⟨hb.congr rfl rfl, hw.congr rfl rfl rfl rfl⟩, .of_eq rfl hvalue⟩
  | clockWarp idle timer =>
    rw [warpStep, calledStep]
    by_cases hio : c.iothread = true
    · obtain ⟨warpTimer, rfl⟩ := qemuClockWarp_eq hio hs'
      obtain ⟨h0, hle⟩ := hw.accounted_bounds (fun _ => hio) fun hrun hstart => (he hrun hstart).2
      rw [if_pos hio, hio, Bool.or_true]
      refine ⟨⟨hb.congr rfl rfl, fun _ => ?_, nofun, fun start hstart => ?_⟩,
        .of_add nofun h0 hle (add_right_comm ..)⟩
      · split_ifs <;> rfl
      · split_ifs at hstart
        exact (some.inj hstart).ge
    · rw [clockStep, qemuClockWarp, if_neg hio] at hs'
      cases hs'
      rw [if_neg hio, Bool.eq_false_iff.mpr hio, Bool.or_false]
      exact ⟨⟨hb, hw⟩, .of_add nofun (le_refl 0) hw.warped_nonneg (add_zero _).symm⟩
  | warpTimer timer =>
    rw [clockStep] at hs'
    split at hs'
    next => exact nomatch hs'
    next expireTime htimer =>
      obtain ⟨-, hs'⟩ := ite_none_right_eq_some.mp hs'
      obtain rfl := icountWarpRt_eq hs'
      have hcalled := hw.called htimer
      obtain ⟨h0, hle⟩ := hw.accounted_bounds (fun hc => nomatch hc.symm.trans hcalled)
        fun hrun hstart => (he hrun hstart).2
      exact ⟨⟨hb.congr rfl rfl, fun _ => rfl, fun hc => absurd hcalled (hc ▸ nofun), nofun⟩,
        .of_add nofun h0 hle (add_right_comm ..)⟩
  | calculateTimeout timer =>
    obtain ⟨-, hs'⟩ := ite_none_right_eq_some.mp hs'
    obtain ⟨count, hcount, rfl⟩ := qemuCalculateTimeout_eq hs'
    refine ⟨⟨hb.congr rfl rfl, hw.congr rfl rfl rfl rfl⟩, ?_, nofun, nofun⟩
    have hpow : (0 : ℤ) ≤ count * 2 ^ m.clock.icountTimeShift := by positivity
    show cpuGetIcount m.clock ≤
      m.clock.qemuIcountBias + (m.clock.qemuIcount + count - pending m.clock) *
      2 ^ m.clock.icountTimeShift
    rw [cpuGetIcount]
    linarith

end

theorem budgeted_reset (rtClock : ℤ) : Budgeted (reset c rtClock).clock :=
  ⟨fun _ => le_refl 0, fun _ _ => rfl⟩

theorem warped_reset (rtClock : ℤ) : Warped c (reset c rtClock) :=
  ⟨nofun, fun _ => ⟨rfl, rfl, fun _ => rfl⟩, nofun⟩

end VariabilityTestbed.Icount

import Mathlib.Data.UInt

/-!
# The cycle and energy counters

`qemu-variability.c` keeps three families of counters, each of them twice: once for the five
instruction classes that are built in, once for an array indexed by the configured classes.

```
total_*_cycle_count, total_cycle_count[]       cycles counted since the start
cycle_count_chkpt_*, cycle_count_chkpt[]       the totals at the last frequency change
prev_*_insn_energy,  prev_insn_exec_energy[]   energy of the periods before that change
```

`VarState` holds them together with the other static variables of the file. All of them are
`uint64_t`, so every addition and subtraction below wraps.

## Class arrays

The class arrays have `MAX_INSN_CLASSES` entries and every loop over them stops at
`total_insn_classes`. A bound above the array size is not a value the loops can be run with, so
`ClassCount` carries the inequality; whether a configuration file can produce such a bound is a
question about the file, and is asked there. An entry is addressed as `instruction_type - 1`, and
`classSlot` is that subtraction with the array bounds checked.

## Uninitialised locals

The counters are read into structures on the caller's stack. A reading function takes the old
contents of that structure and returns the new ones, so an entry it does not write keeps whatever
was there: nothing is assumed about uninitialised memory.
-/

namespace VariabilityTestbed.Variability

/-- `exec-all.h`: the number of entries of every class array. -/
def MAX_INSN_CLASSES : ℕ := 6

/-- A `uint64_t[MAX_INSN_CLASSES]`. -/
abbrev ClassArray : Type := Fin MAX_INSN_CLASSES → UInt64

/-- A value of `total_insn_classes` that the loops over class arrays may be run with. -/
structure ClassCount where
  /-- The number of configured classes. -/
  val : ℕ
  /-- It does not exceed the arrays. -/
  le_max : val ≤ MAX_INSN_CLASSES
  deriving DecidableEq

/-- The five instruction classes with counters of their own. -/
inductive FixedClass where
  | dataProc
  | branch
  | multiply
  | ldst
  | misc
  deriving DecidableEq, Repr

/-- `for (i = 0; i < total_insn_classes; ++i) dst[i] = f(i)`. -/
def forClasses (n : ClassCount) (dst f : ClassArray) : ClassArray :=
  fun i => if i.val < n.val then f i else dst i

@[simp] theorem forClasses_of_lt {n : ClassCount} {i : Fin MAX_INSN_CLASSES} (h : i.val < n.val)
    (dst f : ClassArray) : forClasses n dst f i = f i := if_pos h

theorem forClasses_of_not_lt {n : ClassCount} {i : Fin MAX_INSN_CLASSES} (h : ¬ i.val < n.val)
    (dst f : ClassArray) : forClasses n dst f i = dst i := if_neg h

/-- The entry `insn_class - 1` of a class array, or `none` when that is outside the array. -/
def classSlot (insnClass : UInt8) : Option (Fin MAX_INSN_CLASSES) :=
  if h : 1 ≤ insnClass.toNat ∧ insnClass.toNat ≤ MAX_INSN_CLASSES then
    some ⟨insnClass.toNat - 1, by omega⟩
  else none

theorem classSlot_eq_some {c : UInt8} {i : Fin MAX_INSN_CLASSES} :
    classSlot c = some i ↔ c.toNat = i.val + 1 := by
  have hi := i.isLt
  rw [classSlot]
  split
  · rename_i h
    rw [Option.some.injEq, Fin.ext_iff]
    change c.toNat - 1 = i.val ↔ _
    omega
  · rename_i h
    exact ⟨nofun, fun hc => absurd (by omega) h⟩

theorem classSlot_eq_none {c : UInt8} :
    classSlot c = none ↔ ¬ (1 ≤ c.toNat ∧ c.toNat ≤ MAX_INSN_CLASSES) := by
  rw [classSlot]
  split <;> simp_all

/-- `struct cycle_counter`. -/
structure CycleCounter where
  /-- `data_proc_cycles` to `misc_cycles`. -/
  fixed : FixedClass → UInt64
  /-- `cycle_count`. -/
  cycleCount : ClassArray

/-- `struct energy_counter`. -/
structure EnergyCounter where
  /-- `data_proc_energy` to `misc_energy`. -/
  fixed : FixedClass → UInt64
  /-- `sleep_energy`. -/
  sleepEnergy : UInt64
  /-- `insn_energy`. -/
  insnEnergy : ClassArray

/-- The counters of a `TranslationBlock`: what one execution of it is charged. -/
structure TbCounters where
  /-- `data_proc_cycle_count` to `misc_cycle_count`. -/
  fixed : FixedClass → UInt64
  /-- `cycle_count`. -/
  cycleCount : ClassArray

/-- The power models of the tree. `curr_power_model` points to one of them or is `NULL`. -/
inductive PowerModel where
  | firstPwrModel
  deriving DecidableEq, Repr

/-- The static variables of `qemu-variability.c`, with `current_frequency` of
`first-power-model.c`. -/
structure VarState where
  totalInsnClasses : ClassCount
  totalFixed : FixedClass → UInt64
  totalCycleCount : ClassArray
  prevFixed : FixedClass → UInt64
  prevInsnExecEnergy : ClassArray
  chkptFixed : FixedClass → UInt64
  cycleCountChkpt : ClassArray
  startedSleepCount : Bool
  sleepStartTime : Int64
  sleepEnergy : UInt64
  currPowerModel : Option PowerModel
  errorsActivated : Bool
  currentFrequency : UInt64

/-- `power-model.h`: `DEFAULT_FREQUENCY`. -/
def DEFAULT_FREQUENCY : UInt64 := 400

/-- Program start, after `class_info_init` and `power_init`: every counter is zero and
`first_pwr_model` is installed. -/
def initState (n : ClassCount) : VarState where
  totalInsnClasses := n
  totalFixed := fun _ => 0
  totalCycleCount := fun _ => 0
  prevFixed := fun _ => 0
  prevInsnExecEnergy := fun _ => 0
  chkptFixed := fun _ => 0
  cycleCountChkpt := fun _ => 0
  startedSleepCount := false
  sleepStartTime := 0
  sleepEnergy := 0
  currPowerModel := some .firstPwrModel
  errorsActivated := false
  currentFrequency := DEFAULT_FREQUENCY

/-! ### Counting -/

/-- `increment_cycle_counters`: charge one execution of a translation block. -/
def incrementCycleCounters (st : VarState) (tb : TbCounters) : VarState :=
  { st with
    totalFixed := fun k => st.totalFixed k + tb.fixed k
    totalCycleCount := forClasses st.totalInsnClasses st.totalCycleCount
      fun i => st.totalCycleCount i + tb.cycleCount i }

/-- `increment_class_cycle_counter`: `total_cycle_count[insn_class - 1] += cycle_count`. Unlike
the loops it does not look at `total_insn_classes`. -/
def incrementClassCycleCounter (st : VarState) (insnClass cycleCount : UInt8) : Option VarState :=
  (classSlot insnClass).map fun i =>
    { st with
      totalCycleCount := Function.update st.totalCycleCount i
        (st.totalCycleCount i + cycleCount.toUInt64) }

/-- `read_all_cycle_counters`, reading into `s`. -/
def readAllCycleCounters (st : VarState) (s : CycleCounter) : CycleCounter where
  fixed := st.totalFixed
  cycleCount := forClasses st.totalInsnClasses s.cycleCount st.totalCycleCount

/-- `read_all_cycle_counter_chkpts`, reading into `s`. -/
def readAllCycleCounterChkpts (st : VarState) (s : CycleCounter) : CycleCounter where
  fixed := st.chkptFixed
  cycleCount := forClasses st.totalInsnClasses s.cycleCount st.cycleCountChkpt

/-- `reset_all_cycle_counters`. The checkpoint and the accumulated energy are left alone. -/
def resetAllCycleCounters (st : VarState) : VarState :=
  { st with
    totalFixed := fun _ => 0
    totalCycleCount := forClasses st.totalInsnClasses st.totalCycleCount fun _ => 0 }

/-! ### Energy -/

/-- `serve_active_power` of `first-power-model.c`: one unit of energy for each cycle since the
checkpoint. `cc` and `chk` are the old contents of its two locals. -/
def serveActivePower (st : VarState) (cc chk : CycleCounter) (s : EnergyCounter) : EnergyCounter :=
  let cycleCount := readAllCycleCounters st cc
  let cycleCountChkpt := readAllCycleCounterChkpts st chk
  { s with
    fixed := fun k => cycleCount.fixed k - cycleCountChkpt.fixed k
    insnEnergy := forClasses st.totalInsnClasses s.insnEnergy
      fun i => cycleCount.cycleCount i - cycleCountChkpt.cycleCount i }

/-- The contents of the stack slots that the energy functions declare without initialising. -/
structure Locals where
  /-- `serve_active_power`: `cycle_count`. -/
  cycleCount : CycleCounter
  /-- `serve_active_power`: `cycle_count_chkpt`. -/
  cycleCountChkpt : CycleCounter
  /-- `freq_changed_set_chkpt`: `cur_energy`; `calculate_active_energy`: `prev_energy`. -/
  energy : EnergyCounter
  /-- `frequency_change_handler`: `cur_count`. -/
  curCount : CycleCounter

/-- `curr_power_model->read_active_power(s)`, when a model is installed. -/
def readActivePower (st : VarState) (loc : Locals) (s : EnergyCounter) : EnergyCounter :=
  match st.currPowerModel with
  | none => s
  | some .firstPwrModel => serveActivePower st loc.cycleCount loc.cycleCountChkpt s

/-- `accumulate_energy`: close the period that ends at a frequency change. The five built-in
classes add the period's energy; the class array is overwritten with it. -/
def accumulateEnergy (st : VarState) (s : EnergyCounter) : VarState :=
  { st with
    prevFixed := fun k => st.prevFixed k + s.fixed k
    prevInsnExecEnergy := forClasses st.totalInsnClasses st.prevInsnExecEnergy s.insnEnergy }

/-- `read_all_prev_energy`, reading into `s`. -/
def readAllPrevEnergy (st : VarState) (s : EnergyCounter) : EnergyCounter :=
  { s with
    fixed := st.prevFixed
    insnEnergy := forClasses st.totalInsnClasses s.insnEnergy st.prevInsnExecEnergy }

/-- `calculate_active_energy`, reading into `s`. -/
def calculateActiveEnergy (st : VarState) (loc : Locals) (s : EnergyCounter) : EnergyCounter :=
  let s := readActivePower st loc s
  let prevEnergy := readAllPrevEnergy st loc.energy
  { s with
    fixed := fun k => s.fixed k + prevEnergy.fixed k
    insnEnergy := forClasses st.totalInsnClasses s.insnEnergy
      fun i => s.insnEnergy i + prevEnergy.insnEnergy i }

/-- `calculate_sleep_energy`, reading into `s`: `serve_sleep_power` of the installed model. -/
def calculateSleepEnergy (st : VarState) (s : EnergyCounter) : EnergyCounter :=
  match st.currPowerModel with
  | none => s
  | some .firstPwrModel => { s with sleepEnergy := st.sleepEnergy }

/-- `freq_has_changed` of `first-power-model.c`. -/
def freqHasChanged (st : VarState) (newFreq : UInt64) : VarState :=
  { st with currentFrequency := newFreq }

/-- `freq_changed_set_chkpt`: accumulate the energy of the period, then move the checkpoint to
the counters in `s`. -/
def freqChangedSetChkpt (st : VarState) (loc : Locals) (s : CycleCounter) : VarState :=
  let curEnergy := readActivePower st loc loc.energy
  let st := accumulateEnergy st curEnergy
  let st :=
    { st with
      chkptFixed := s.fixed
      cycleCountChkpt := forClasses st.totalInsnClasses st.cycleCountChkpt s.cycleCount }
  match st.currPowerModel with
  | none => st
  | some .firstPwrModel => freqHasChanged st 100

/-- `frequency_change_handler` of `hw/stellaris.c`: read the counters and set the checkpoint to
them. The energies it also computes from the clock register stay in a local that is not read. -/
def frequencyChangeHandler (st : VarState) (loc : Locals) : VarState :=
  freqChangedSetChkpt st loc (readAllCycleCounters st loc.curCount)

/-- What a frequency change does to checkpoints and totals. -/
theorem frequencyChangeHandler_chkpt (st : VarState) (loc : Locals) :
    (frequencyChangeHandler st loc).totalFixed = st.totalFixed ∧
      (frequencyChangeHandler st loc).chkptFixed = st.totalFixed ∧
      (frequencyChangeHandler st loc).totalCycleCount = st.totalCycleCount ∧
      (frequencyChangeHandler st loc).cycleCountChkpt =
        forClasses st.totalInsnClasses st.cycleCountChkpt st.totalCycleCount := by
  have hcount : forClasses st.totalInsnClasses st.cycleCountChkpt
      (forClasses st.totalInsnClasses loc.curCount.cycleCount st.totalCycleCount) =
        forClasses st.totalInsnClasses st.cycleCountChkpt st.totalCycleCount := by
    funext i
    by_cases hi : i.val < st.totalInsnClasses.val <;> simp [forClasses, hi]
  rw [← hcount, frequencyChangeHandler, freqChangedSetChkpt]
  dsimp only
  split <;> exact ⟨rfl, rfl, rfl, rfl⟩

end VariabilityTestbed.Variability

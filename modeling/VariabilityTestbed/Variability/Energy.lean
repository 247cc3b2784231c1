import VariabilityTestbed.Lib.Runs
import VariabilityTestbed.Lib.Words
import VariabilityTestbed.Variability.Counters

/-!
# Active energy across frequency changes

`first_pwr_model` charges one unit of energy for each cycle, at any frequency. The energy that
`calculate_active_energy` reports should therefore be the number of cycles counted since the
start, however often the frequency changed in between.

The report is put together from three pieces of state: the running totals, the checkpoint of the
last frequency change and the energy accumulated at earlier changes. `Balanced` says what each of
them holds after an arbitrary sequence of operations, in terms of the operations alone.

For the five built-in classes the pieces balance. For the configured classes they do not:
`accumulate_energy` assigns where it adds for the built-in ones, so what was accumulated at one
change is lost at the next. Only the cycles since the last change *but one* are reported.
-/

namespace VariabilityTestbed.Variability

open Runs Words

/-- The operations that move the counters. -/
inductive CounterOp where
  /-- `increment_cycle_counters`: a translation block is charged. -/
  | execTb (tb : TbCounters)
  /-- `increment_class_cycle_counter`: a single instruction is charged. -/
  | chargeClass (insnClass cycleCount : UInt8)
  /-- `frequency_change_handler`, with the contents of its uninitialised locals. -/
  | freqChange (loc : Locals)

/-- One operation on the counters. -/
def step (st : VarState) : CounterOp → Option VarState
  | .execTb tb => some (incrementCycleCounters st tb)
  | .chargeClass insnClass cycleCount => incrementClassCycleCounter st insnClass cycleCount
  | .freqChange loc => some (frequencyChangeHandler st loc)

/-! ### What a list of operations counts -/

/-- The cycles one operation counts for a built-in class. -/
def CounterOp.fixedCycles (k : FixedClass) : CounterOp → ℕ
  | .execTb tb => (tb.fixed k).toNat
  | .chargeClass _ _ => 0
  | .freqChange _ => 0

/-- The cycles one operation counts for entry `i` of the class array, with `n` classes
configured. -/
def CounterOp.classCycles (n : ClassCount) (i : Fin MAX_INSN_CLASSES) : CounterOp → ℕ
  | .execTb tb => if i.val < n.val then (tb.cycleCount i).toNat else 0
  | .chargeClass insnClass cycleCount =>
      if classSlot insnClass = some i then cycleCount.toNat else 0
  | .freqChange _ => 0

/-- The cycles counted for a built-in class. -/
def countedFixed (ops : List CounterOp) (k : FixedClass) : ℕ :=
  (ops.map (CounterOp.fixedCycles k)).sum

/-- The cycles counted for entry `i` of the class array. -/
def countedClass (n : ClassCount) (ops : List CounterOp) (i : Fin MAX_INSN_CLASSES) : ℕ :=
  (ops.map (CounterOp.classCycles n i)).sum

@[simp] theorem countedFixed_nil (k : FixedClass) : countedFixed [] k = 0 := rfl

@[simp] theorem countedClass_nil (n : ClassCount) (i : Fin MAX_INSN_CLASSES) :
    countedClass n [] i = 0 := rfl

theorem countedFixed_concat (ops : List CounterOp) (op : CounterOp) (k : FixedClass) :
    countedFixed (ops ++ [op]) k = countedFixed ops k + op.fixedCycles k := by
  simp [countedFixed]

theorem countedClass_concat (n : ClassCount) (ops : List CounterOp) (op : CounterOp)
    (i : Fin MAX_INSN_CLASSES) :
    countedClass n (ops ++ [op]) i = countedClass n ops i + op.classCycles n i := by
  simp [countedClass]

/-! ### The last frequency change -/

/-- Is the operation a frequency change? -/
def CounterOp.isFreqChange : CounterOp → Bool
  | .freqChange _ => true
  | _ => false

/-- The operations before the last frequency change; none when there was no change. -/
def beforeLastChange : List CounterOp → List CounterOp
  | [] => []
  | op :: ops => if ops.any CounterOp.isFreqChange then op :: beforeLastChange ops else []

theorem beforeLastChange_concat_freqChange (ops : List CounterOp) (loc : Locals) :
    beforeLastChange (ops ++ [.freqChange loc]) = ops := by
  induction ops with
  | nil => rfl
  | cons op ops ih =>
    rw [List.cons_append, beforeLastChange, ih]
    simp [CounterOp.isFreqChange]

theorem beforeLastChange_concat_of_not {op : CounterOp} (h : op.isFreqChange = false)
    (ops : List CounterOp) : beforeLastChange (ops ++ [op]) = beforeLastChange ops := by
  induction ops with
  | nil => rfl
  | cons op' ops ih =>
    rw [List.cons_append, beforeLastChange, beforeLastChange, ih]
    simp [h]

/-! ### The balance -/

/-- **What the three pieces of state hold** after the operations `ops`. The last clause is where
the class array differs from the built-in classes: its accumulated energy covers the period
between the last two changes, not everything before the last one. -/
structure Balanced (n : ClassCount) (ops : List CounterOp) (st : VarState) : Prop where
  classes : st.totalInsnClasses = n
  model : st.currPowerModel = some .firstPwrModel
  totalFixed : ∀ k, st.totalFixed k = UInt64.ofNat (countedFixed ops k)
  chkptFixed : ∀ k, st.chkptFixed k = UInt64.ofNat (countedFixed (beforeLastChange ops) k)
  prevFixed : ∀ k, st.prevFixed k = st.chkptFixed k
  total : ∀ i, st.totalCycleCount i = UInt64.ofNat (countedClass n ops i)
  chkpt : ∀ i : Fin MAX_INSN_CLASSES, i.val < n.val →
    st.cycleCountChkpt i = UInt64.ofNat (countedClass n (beforeLastChange ops) i)
  prev : ∀ i : Fin MAX_INSN_CLASSES, i.val < n.val →
    st.prevInsnExecEnergy i = UInt64.ofNat (countedClass n (beforeLastChange ops) i) -
      UInt64.ofNat (countedClass n (beforeLastChange (beforeLastChange ops)) i)

theorem balanced_initState (n : ClassCount) : Balanced n [] (initState n) where
  classes := rfl
  model := rfl
  totalFixed _ := rfl
  chkptFixed _ := rfl
  prevFixed _ := rfl
  total _ := rfl
  chkpt _ _ := rfl
  prev _ _ := by simp [initState, beforeLastChange]

variable {n : ClassCount} {ops : List CounterOp} {st : VarState}

theorem Balanced.execTb (h : Balanced n ops st) (tb : TbCounters) :
    Balanced n (ops ++ [.execTb tb]) (incrementCycleCounters st tb) := by
  have hlast : beforeLastChange (ops ++ [.execTb tb]) = beforeLastChange ops :=
    beforeLastChange_concat_of_not rfl ops
  refine ⟨h.classes, h.model, fun k => ?_, ?_, h.prevFixed, fun i => ?_, ?_, ?_⟩
  · rw [countedFixed_concat, UInt64.ofNat_add, ← h.totalFixed k]
    simp [incrementCycleCounters, CounterOp.fixedCycles]
  · rw [hlast]; exact h.chkptFixed
  · rw [countedClass_concat, UInt64.ofNat_add, ← h.total i]
    by_cases hi : i.val < n.val <;>
      simp [incrementCycleCounters, CounterOp.classCycles, forClasses, h.classes, hi]
  · rw [hlast]; exact h.chkpt
  · rw [hlast]; exact h.prev

theorem Balanced.chargeClass (h : Balanced n ops st) {c y : UInt8} {st' : VarState}
    (hst : incrementClassCycleCounter st c y = some st') :
    Balanced n (ops ++ [.chargeClass c y]) st' := by
  have hlast : beforeLastChange (ops ++ [.chargeClass c y]) = beforeLastChange ops :=
    beforeLastChange_concat_of_not rfl ops
  obtain ⟨j, hj, rfl⟩ := Option.map_eq_some_iff.mp hst
  refine ⟨h.classes, h.model, fun k => ?_, ?_, h.prevFixed, fun i => ?_, ?_, ?_⟩
  · rw [countedFixed_concat, UInt64.ofNat_add, ← h.totalFixed k]
    simp [CounterOp.fixedCycles]
  · rw [hlast]; exact h.chkptFixed
  · rw [countedClass_concat, UInt64.ofNat_add, ← h.total i]
    rcases eq_or_ne i j with rfl | hij
    · simp [CounterOp.classCycles, hj]
    · simp [CounterOp.classCycles, hj, hij, Ne.symm hij]
  · rw [hlast]; exact h.chkpt
  · rw [hlast]; exact h.prev

/-- A frequency change moves the totals into the checkpoint. The built-in classes keep everything
accumulated so far; the class array keeps only the period that ends here. -/
theorem Balanced.freqChange (h : Balanced n ops st) (loc : Locals) :
    Balanced n (ops ++ [.freqChange loc]) (frequencyChangeHandler st loc) := by
  have hlast : beforeLastChange (ops ++ [.freqChange loc]) = ops :=
    beforeLastChange_concat_freqChange ops loc
  have hst : frequencyChangeHandler st loc =
      { st with
        prevFixed := fun k => st.prevFixed k + (st.totalFixed k - st.chkptFixed k)
        prevInsnExecEnergy := forClasses n st.prevInsnExecEnergy
          fun i => st.totalCycleCount i - st.cycleCountChkpt i
        chkptFixed := st.totalFixed
        cycleCountChkpt := forClasses n st.cycleCountChkpt st.totalCycleCount
        currentFrequency := 100 } := by
    have hm := h.model
    have hc := h.classes
    unfold frequencyChangeHandler freqChangedSetChkpt accumulateEnergy readActivePower
    simp only [hm, hc, serveActivePower, readAllCycleCounters, readAllCycleCounterChkpts,
      freqHasChanged]
    congr 1
    · funext i
      by_cases hi : i.val < n.val <;> simp [forClasses, hi]
    · funext i
      by_cases hi : i.val < n.val <;> simp [forClasses, hi]
  rw [hst]
  refine ⟨h.classes, h.model, fun k => ?_, fun k => ?_, fun k => ?_, fun i => ?_,
    fun i hi => ?_, fun i hi => ?_⟩
  · rw [countedFixed_concat]; exact h.totalFixed k
  · rw [hlast]; exact h.totalFixed k
  · change st.prevFixed k + (st.totalFixed k - st.chkptFixed k) = st.totalFixed k
    rw [h.prevFixed k]
    grind
  · rw [countedClass_concat]; exact h.total i
  · rw [hlast, ← h.total i]
    exact forClasses_of_lt hi _ _
  · rw [hlast, ← h.total i, ← h.chkpt i hi]
    exact forClasses_of_lt hi st.prevInsnExecEnergy fun i => st.totalCycleCount i - _

/-- **The balance after any run.** -/
theorem balanced_of_run (h : run step (initState n) ops = some st) : Balanced n ops st := by
  refine run_induction (P := Balanced n) (balanced_initState n) ?_ h
  intro p op s s' _ hb hs
  cases op with
  | execTb tb =>
    cases hs
    exact hb.execTb tb
  | chargeClass c y => exact hb.chargeClass hs
  | freqChange loc =>
    cases hs
    exact hb.freqChange loc

/-! ### The report -/

theorem Balanced.activeEnergy_fixed (h : Balanced n ops st) (loc : Locals) (s : EnergyCounter)
    (k : FixedClass) :
    (calculateActiveEnergy st loc s).fixed k = UInt64.ofNat (countedFixed ops k) := by
  have hreport : (calculateActiveEnergy st loc s).fixed k =
      st.totalFixed k - st.chkptFixed k + st.prevFixed k := by
    simp [calculateActiveEnergy, readActivePower, h.model, serveActivePower,
      readAllCycleCounters, readAllCycleCounterChkpts, readAllPrevEnergy]
  rw [hreport, h.prevFixed k, ← h.totalFixed k]
  grind

/-- What is reported for a configured class: the cycles since the last frequency change but
one. -/
theorem Balanced.activeEnergy_class (h : Balanced n ops st) (loc : Locals) (s : EnergyCounter)
    {i : Fin MAX_INSN_CLASSES} (hi : i.val < n.val) :
    (calculateActiveEnergy st loc s).insnEnergy i = UInt64.ofNat (countedClass n ops i) -
      UInt64.ofNat (countedClass n (beforeLastChange (beforeLastChange ops)) i) := by
  have hreport : (calculateActiveEnergy st loc s).insnEnergy i =
      st.totalCycleCount i - st.cycleCountChkpt i + st.prevInsnExecEnergy i := by
    simp [calculateActiveEnergy, readActivePower, h.model, h.classes, serveActivePower,
      readAllCycleCounters, readAllCycleCounterChkpts, readAllPrevEnergy, hi]
  rw [hreport, h.prev i hi, h.chkpt i hi, h.total i]
  grind

/-- The reported energy is the number of cycles counted, for each built-in class and for each
configured class. -/
def EnergyConserved (n : ClassCount) (ops : List CounterOp) (st : VarState) (loc : Locals)
    (s : EnergyCounter) : Prop :=
  (∀ k, (calculateActiveEnergy st loc s).fixed k = UInt64.ofNat (countedFixed ops k)) ∧
    ∀ i : Fin MAX_INSN_CLASSES, i.val < n.val →
      (calculateActiveEnergy st loc s).insnEnergy i = UInt64.ofNat (countedClass n ops i)

/-- **When energy is conserved.** The report is right exactly when nothing (modulo `2 ^ 64`) was
counted for any configured class before the last frequency change but one. In particular it is
right as long as the frequency has changed at most once. -/
theorem activeEnergy_conserved_iff (h : run step (initState n) ops = some st) (loc : Locals)
    (s : EnergyCounter) :
    EnergyConserved n ops st loc s ↔
      ∀ i : Fin MAX_INSN_CLASSES, i.val < n.val →
        countedClass n (beforeLastChange (beforeLastChange ops)) i % 2 ^ 64 = 0 := by
  have hb := balanced_of_run h
  constructor
  · intro hc i hi
    have hclass := hc.2 i hi
    rw [hb.activeEnergy_class loc s hi] at hclass
    exact (sub_ofNat_eq_self_iff _ _).mp hclass
  · intro hz
    refine ⟨hb.activeEnergy_fixed loc s, fun i hi => ?_⟩
    rw [hb.activeEnergy_class loc s hi]
    exact (sub_ofNat_eq_self_iff _ _).mpr (hz i hi)

/-! ### A lost period

One class, one block of five cycles, then two frequency changes: the first change accumulates the
five units, the second replaces them by the empty period in between. -/

/-- Zeroed stack slots. -/
def zeroLocals : Locals where
  cycleCount := ⟨fun _ => 0, fun _ => 0⟩
  cycleCountChkpt := ⟨fun _ => 0, fun _ => 0⟩
  energy := ⟨fun _ => 0, 0, fun _ => 0⟩
  curCount := ⟨fun _ => 0, fun _ => 0⟩

/-- One configured class. -/
def oneClass : ClassCount := ⟨1, by decide⟩

/-- A block whose instructions take five cycles, all of them in the first class. -/
def fiveCycles : TbCounters := ⟨fun _ => 0, fun i => if i.val = 0 then 5 else 0⟩

theorem activeEnergy_lost_after_two_changes :
    ¬ ∀ st, run step (initState oneClass)
        [.execTb fiveCycles, .freqChange zeroLocals, .freqChange zeroLocals] = some st →
      EnergyConserved oneClass
        [.execTb fiveCycles, .freqChange zeroLocals, .freqChange zeroLocals] st zeroLocals
        zeroLocals.energy := by
  intro hall
  have hclass := (hall _ rfl).2 ⟨0, by decide⟩ (by decide)
  cases hclass

theorem activeEnergy_kept_after_one_change :
    ∃ st, run step (initState oneClass) [.execTb fiveCycles, .freqChange zeroLocals] = some st ∧
      EnergyConserved oneClass [.execTb fiveCycles, .freqChange zeroLocals] st zeroLocals
        zeroLocals.energy :=
  ⟨_, rfl, (activeEnergy_conserved_iff rfl zeroLocals zeroLocals.energy).mpr (by decide)⟩

end VariabilityTestbed.Variability

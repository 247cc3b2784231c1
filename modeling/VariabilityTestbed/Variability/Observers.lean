import VariabilityTestbed.QObject
import VariabilityTestbed.Variability.Energy

/-!
# Who reads the counters

Three readers report the same quantities: the monitor commands `query-energy` and
`query-cyclecount`, and the guest, through the registers of the variability module.

They do not sum the same counters. `do_info_energy` adds up the five built-in classes,
`varmod_read` adds the configured classes to them. `do_info_cyclecount` reports the totals of the
built-in classes under the indices `1` to `5`, while the cycles of the class with index `k` are
kept in `total_cycle_count[k - 1]`. The readers agree on a state only if the counters that one of
them leaves out happen to cancel.

The guest reads a counter of 64 bits in two halves, and the module does not keep the upper half for
the second read. When the lower half wraps in between, the guest puts two different values together.
-/

namespace VariabilityTestbed.Variability

open Runs Words QObject

/-! ### The readers -/

/-- `do_info_energy`, with the old contents of its local `s`. -/
def doInfoEnergy (st : VarState) (loc : Locals) (s : EnergyCounter) : QDict :=
  let s := calculateActiveEnergy st loc s
  let s := calculateSleepEnergy st s
  let dynamicEnergy := s.fixed .dataProc + s.fixed .branch + s.fixed .multiply + s.fixed .ldst +
    s.fixed .misc
  let leakageEnergy := s.sleepEnergy
  let entry (type : String) (value : UInt64) : QObject :=
    .qdict (qdictPutObj (qdictPutObj [] "ENERGY_TYPE" (.qstring type))
      "value" (.qint value.toInt64))
  qdictPutObj (qdictPutObj [] "1" (entry "DYNAMIC" dynamicEnergy))
    "2" (entry "LEAKAGE" leakageEnergy)

/-- The instruction class index under which `do_info_cyclecount` reports a built-in class. -/
def FixedClass.idx : FixedClass → Int64
  | .dataProc => 1
  | .branch => 2
  | .multiply => 3
  | .ldst => 4
  | .misc => 5

/-- The key of that report. -/
def FixedClass.key : FixedClass → String
  | .dataProc => "1"
  | .branch => "2"
  | .multiply => "3"
  | .ldst => "4"
  | .misc => "5"

/-- The entry of the class array that holds the class with that index. -/
def FixedClass.slot : FixedClass → Fin MAX_INSN_CLASSES
  | .dataProc => ⟨0, by decide⟩
  | .branch => ⟨1, by decide⟩
  | .multiply => ⟨2, by decide⟩
  | .ldst => ⟨3, by decide⟩
  | .misc => ⟨4, by decide⟩

/-- `do_info_cyclecount`. -/
def doInfoCyclecount (st : VarState) : QDict :=
  let put (d : QDict) (k : FixedClass) : QDict :=
    qdictPutObj d k.key (.qdict (qdictPutObj (qdictPutObj [] "instruction_class_idx" (.qint k.idx))
      "cycle_count" (.qint (st.totalFixed k).toInt64)))
  put (put (put (put (put [] .dataProc) .branch) .multiply) .ldst) .misc

/-- `class_energy_sum` of `varmod_read`. -/
def classEnergySum (n : ClassCount) (energy : ClassArray) : UInt64 :=
  (List.finRange MAX_INSN_CLASSES).foldl
    (fun sum i => if i.val < n.val then sum + energy i else sum) 0

/-- The old contents of the locals of `varmod_read`. -/
structure VarmodLocals where
  energy : Locals
  active : EnergyCounter
  sleep : EnergyCounter
  cy : CycleCounter

/-- `varmod_read`: one 32-bit register of the variability module. -/
def varmodRead (st : VarState) (loc : VarmodLocals) (offset : ℕ) : UInt32 :=
  let active := calculateActiveEnergy st loc.energy loc.active
  let sleep := calculateSleepEnergy st loc.sleep
  let cy := readAllCycleCounters st loc.cy
  let dynamic := classEnergySum st.totalInsnClasses active.insnEnergy + active.fixed .dataProc +
    active.fixed .branch + active.fixed .multiply + active.fixed .ldst + active.fixed .misc
  match offset with
  | 0x00 => (cy.fixed .dataProc).toUInt32
  | 0x04 => (cy.fixed .dataProc >>> 32).toUInt32
  | 0x08 => (cy.fixed .branch).toUInt32
  | 0x0c => (cy.fixed .branch >>> 32).toUInt32
  | 0x10 => (cy.fixed .multiply).toUInt32
  | 0x14 => (cy.fixed .multiply >>> 32).toUInt32
  | 0x18 => (cy.fixed .ldst).toUInt32
  | 0x1c => (cy.fixed .ldst >>> 32).toUInt32
  | 0x20 => (cy.fixed .misc).toUInt32
  | 0x24 => (cy.fixed .misc >>> 32).toUInt32
  | 0x28 => dynamic.toUInt32
  | 0x2c => (dynamic >>> 32).toUInt32
  | 0x68 => sleep.sleepEnergy.toUInt32
  | 0x6c => (sleep.sleepEnergy >>> 32).toUInt32
  | 0x70 => if st.errorsActivated then 1 else 0
  | _ => 0

/-- What the guest puts together from the two registers of the dynamic energy:
`(varmod_read(0x2c) << 32) | varmod_read(0x28)`. -/
def guestDynamicEnergy (st : VarState) (loc : VarmodLocals) : UInt64 :=
  (varmodRead st loc 0x2c).toUInt64 <<< 32 ||| (varmodRead st loc 0x28).toUInt64

/-- The `DYNAMIC` value in the answer of `query-energy`. -/
def dynamicValue (ret : QDict) : Option Int64 :=
  ((qdictGet ret "1").bind toQDict).bind fun d => qdictGetInt d "value"

/-- The cycle count that the answer of `query-cyclecount` gives for a class index. -/
def cycleCountValue (ret : QDict) (k : FixedClass) : Option Int64 :=
  ((qdictGet ret k.key).bind toQDict).bind fun d => qdictGetInt d "cycle_count"

/-! ### What they report -/

theorem dynamicValue_doInfoEnergy (st : VarState) (loc : Locals) (s : EnergyCounter) :
    dynamicValue (doInfoEnergy st loc s) =
      let e := calculateActiveEnergy st loc s
      some (e.fixed .dataProc + e.fixed .branch + e.fixed .multiply + e.fixed .ldst +
        e.fixed .misc).toInt64 := by
  have hsleep : (calculateSleepEnergy st (calculateActiveEnergy st loc s)).fixed =
      (calculateActiveEnergy st loc s).fixed := by
    rw [calculateSleepEnergy]
    split <;> rfl
  simp [dynamicValue, doInfoEnergy, qdictGet_put_of_ne, toQDict, qdictGetInt, getInt, hsleep]

theorem cycleCountValue_doInfoCyclecount (st : VarState) (k : FixedClass) :
    cycleCountValue (doInfoCyclecount st) k = some (st.totalFixed k).toInt64 := by
  cases k <;>
    simp [cycleCountValue, doInfoCyclecount, FixedClass.key, qdictGet_put, toQDict,
    qdictGetInt, getInt]

theorem guestDynamicEnergy_eq (st : VarState) (loc : VarmodLocals) :
    guestDynamicEnergy st loc =
      let e := calculateActiveEnergy st loc.energy loc.active
      classEnergySum st.totalInsnClasses e.insnEnergy + e.fixed .dataProc + e.fixed .branch +
        e.fixed .multiply + e.fixed .ldst + e.fixed .misc :=
  hi_or_lo _

/-! ### When they agree -/

/-- All readers report the same: the dynamic energy of `query-energy` is the value the guest
reads, and the cycle counts of `query-cyclecount` are the totals of the classes with these
indices. Values are compared as 64-bit words. -/
def ObserversAgree (st : VarState) (loc : VarmodLocals) : Prop :=
  dynamicValue (doInfoEnergy st loc.energy loc.active) = some (guestDynamicEnergy st loc).toInt64 ∧
    ∀ k : FixedClass,
      cycleCountValue (doInfoCyclecount st) k = some (st.totalCycleCount k.slot).toInt64

/-- The cycles a list of operations counts for all configured classes together. -/
def countedClasses (n : ClassCount) (ops : List CounterOp) : ℕ :=
  (List.finRange MAX_INSN_CLASSES).foldl
    (fun sum i => if i.val < n.val then sum + countedClass n ops i else sum) 0

/-- Sums of differences, entry by entry. -/
theorem classEnergySum_sub (n : ClassCount) (f g : Fin MAX_INSN_CLASSES → ℕ) (energy : ClassArray)
    (h : ∀ i : Fin MAX_INSN_CLASSES, i.val < n.val →
      energy i = UInt64.ofNat (f i) - UInt64.ofNat (g i)) :
    classEnergySum n energy =
      UInt64.ofNat ((List.finRange MAX_INSN_CLASSES).foldl
        (fun sum i => if i.val < n.val then sum + f i else sum) 0) -
      UInt64.ofNat ((List.finRange MAX_INSN_CLASSES).foldl
        (fun sum i => if i.val < n.val then sum + g i else sum) 0) := by
  have key : ∀ (l : List (Fin MAX_INSN_CLASSES)) (a : UInt64) (b c : ℕ),
      a = UInt64.ofNat b - UInt64.ofNat c →
      l.foldl (fun sum i => if i.val < n.val then sum + energy i else sum) a =
        UInt64.ofNat (l.foldl (fun sum i => if i.val < n.val then sum + f i else sum) b) -
        UInt64.ofNat (l.foldl (fun sum i => if i.val < n.val then sum + g i else sum) c) := by
    intro l
    induction l with
    | nil => intro a b c habc; exact habc
    | cons i l ih =>
      intro a b c habc
      simp only [List.foldl_cons]
      apply ih
      by_cases hi : i.val < n.val
      · rw [if_pos hi, if_pos hi, if_pos hi, habc, h i hi, UInt64.ofNat_add, UInt64.ofNat_add]
        grind
      · rw [if_neg hi, if_neg hi, if_neg hi, habc]
  exact key _ 0 0 0 (by decide)

variable {n : ClassCount} {ops : List CounterOp} {st : VarState}

/-- The two dynamic energies differ by what is reported for the configured classes. -/
theorem dynamic_agree_iff (hb : Balanced n ops st) (loc : VarmodLocals) :
    dynamicValue (doInfoEnergy st loc.energy loc.active) =
        some (guestDynamicEnergy st loc).toInt64 ↔
      countedClasses n ops % 2 ^ 64 =
        countedClasses n (beforeLastChange (beforeLastChange ops)) % 2 ^ 64 := by
  have hsum := classEnergySum_sub n (countedClass n ops)
    (countedClass n (beforeLastChange (beforeLastChange ops)))
    (calculateActiveEnergy st loc.energy loc.active).insnEnergy
    fun i hi => hb.activeEnergy_class loc.energy loc.active hi
  rw [dynamicValue_doInfoEnergy, guestDynamicEnergy_eq, hb.classes, Option.some.injEq,
    toInt64_inj, ← ofNat_eq_ofNat_iff]
  simp only [hsum, countedClasses]
  grind

/-- **When the readers agree.** After a run they do exactly when the cycles counted for the
configured classes since the last frequency change but one sum to zero, and each built-in class
has counted as much as the configured class with its index (both modulo `2 ^ 64`). -/
theorem observers_agree_iff (h : run step (initState n) ops = some st) (loc : VarmodLocals) :
    ObserversAgree st loc ↔
      countedClasses n ops % 2 ^ 64 =
          countedClasses n (beforeLastChange (beforeLastChange ops)) % 2 ^ 64 ∧
        ∀ k : FixedClass, countedFixed ops k % 2 ^ 64 = countedClass n ops k.slot % 2 ^ 64 := by
  have hb := balanced_of_run h
  refine and_congr (dynamic_agree_iff hb loc) (forall_congr' fun k => ?_)
  rw [cycleCountValue_doInfoCyclecount, Option.some.injEq, toInt64_inj, hb.totalFixed k,
    hb.total k.slot, ofNat_eq_ofNat_iff]

/-- Zeroed locals of `varmod_read`. -/
def zeroVarmodLocals : VarmodLocals :=
  ⟨zeroLocals, zeroLocals.energy, zeroLocals.energy, zeroLocals.curCount⟩

/-- One block of five cycles in the first class: the guest reads an energy of five, the monitor
reports none. -/
theorem observers_disagree_after_one_block :
    ¬ ∀ st, run step (initState oneClass) [.execTb fiveCycles] = some st →
      ObserversAgree st zeroVarmodLocals := by
  intro hall
  obtain ⟨st, hst⟩ : ∃ st, run step (initState oneClass) [.execTb fiveCycles] = some st := ⟨_, rfl⟩
  have hdyn := (dynamic_agree_iff (balanced_of_run hst) zeroVarmodLocals).mp (hall st hst).1
  cases hdyn

/-- Five cycles in the first class that are also counted as data processing, and then two frequency
changes. -/
theorem observers_agree_after_changes :
    ∃ st, run step (initState oneClass)
      [.execTb { fiveCycles with fixed := Function.update 0 .dataProc 5 },
        .freqChange zeroLocals, .freqChange zeroLocals] = some st ∧
      st.totalFixed .dataProc = 5 ∧ ObserversAgree st zeroVarmodLocals := by
  refine exists_of_map (fun st => st.totalFixed .dataProc) 5 rfl fun st hst hfive => ⟨hfive, ?_⟩
  exact (observers_agree_iff hst zeroVarmodLocals).mpr ⟨by decide, fun k => by cases k <;> decide⟩

/-! ### A counter in two halves -/

/-- The offset of the lower half of a counter. -/
def FixedClass.offset : FixedClass → ℕ
  | .dataProc => 0x00
  | .branch => 0x08
  | .multiply => 0x10
  | .ldst => 0x18
  | .misc => 0x20

theorem varmodRead_offset (st : VarState) (loc : VarmodLocals) (k : FixedClass) :
    varmodRead st loc k.offset = (st.totalFixed k).toUInt32 := by
  cases k <;> rfl

theorem varmodRead_offset_add (st : VarState) (loc : VarmodLocals) (k : FixedClass) :
    varmodRead st loc (k.offset + 4) = (st.totalFixed k >>> 32).toUInt32 := by
  cases k <;> rfl

/-- What the guest puts together from the lower half, read in one state, and the upper half, read in
a later one. -/
def guestCycles (k : FixedClass) (st st' : VarState) (loc loc' : VarmodLocals) : UInt64 :=
  (varmodRead st' loc' (k.offset + 4)).toUInt64 <<< 32 ||| (varmodRead st loc k.offset).toUInt64

theorem toNat_guestCycles (k : FixedClass) (st st' : VarState) (loc loc' : VarmodLocals) :
    (guestCycles k st st' loc loc').toNat =
      (st'.totalFixed k).toNat / 2 ^ 32 * 2 ^ 32 + (st.totalFixed k).toNat % 2 ^ 32 := by
  rw [guestCycles, varmodRead_offset, varmodRead_offset_add, toNat_hi_or_lo]

theorem step_totalFixed {st' : VarState} {op : CounterOp} (h : step st op = some st')
    (k : FixedClass) :
    st'.totalFixed k = st.totalFixed k + UInt64.ofNat (op.fixedCycles k) := by
  cases op with
  | execTb tb =>
    cases h
    simp [incrementCycleCounters, CounterOp.fixedCycles]
  | chargeClass c y =>
    obtain ⟨i, -, rfl⟩ := Option.map_eq_some_iff.mp h
    simp [CounterOp.fixedCycles]
  | freqChange loc =>
    cases h
    simp [(frequencyChangeHandler_chkpt st loc).1, CounterOp.fixedCycles]

/-- A run adds what it counts. -/
theorem run_totalFixed {st' : VarState} (h : run step st ops = some st') (k : FixedClass) :
    st'.totalFixed k = st.totalFixed k + UInt64.ofNat (countedFixed ops k) := by
  refine run_induction
    (P := fun p s => s.totalFixed k = st.totalFixed k + UInt64.ofNat (countedFixed p k)) ?_ ?_ h
  · simp
  · intro p op s s' _ hs hstep
    rw [step_totalFixed hstep, hs, countedFixed_concat, UInt64.ofNat_add]
    grind

/-- **A counter read in two halves.** The guest obtains a value between the two that the counter had
exactly when neither the lower half nor the counter as a whole wraps between the reads. If only the
lower half does, the value is too large, by less than `2 ^ 32`. -/
theorem guestCycles_between_iff {st' : VarState} (h : run step st ops = some st') (k : FixedClass)
    (loc loc' : VarmodLocals) :
    (st.totalFixed k ≤ guestCycles k st st' loc loc' ∧
        guestCycles k st st' loc loc' ≤ st'.totalFixed k ↔
      (st.totalFixed k).toNat % 2 ^ 32 + countedFixed ops k % 2 ^ 32 < 2 ^ 32 ∧
        (st.totalFixed k).toNat + countedFixed ops k % 2 ^ 64 < 2 ^ 64) ∧
    ((st.totalFixed k).toNat + countedFixed ops k % 2 ^ 64 < 2 ^ 64 →
      st.totalFixed k ≤ guestCycles k st st' loc loc' ∧
        (guestCycles k st st' loc loc').toNat < (st'.totalFixed k).toNat + 2 ^ 32) := by
  have hguest := toNat_guestCycles k st st' loc loc'
  have htotal :
      (st'.totalFixed k).toNat = ((st.totalFixed k).toNat + countedFixed ops k) % 2 ^ 64 := by
    rw [run_totalFixed h k, UInt64.toNat_add, UInt64.toNat_ofNat', Nat.add_mod_mod]
  have hst := (st.totalFixed k).toNat_lt
  simp only [UInt64.le_iff_toNat_le, hguest]
  omega

/-- A block whose instructions take so many cycles, all of them of data processing. -/
def dataProcCycles (n : UInt64) : TbCounters :=
  ⟨fun k => if k = .dataProc then n else 0, fun _ => 0⟩

/-- The counter goes from `0xffffffff` to `0x100000000` between the reads, and the guest obtains
`0x1ffffffff`. -/
theorem guestCycles_above_after_carry :
    ¬ ∀ st st', run step (initState oneClass) [.execTb (dataProcCycles 0xffffffff)] = some st →
      run step st [.execTb (dataProcCycles 1)] = some st' →
      st.totalFixed .dataProc ≤
          guestCycles .dataProc st st' zeroVarmodLocals zeroVarmodLocals ∧
        guestCycles .dataProc st st' zeroVarmodLocals zeroVarmodLocals ≤
          st'.totalFixed .dataProc := by
  intro hall
  exact absurd (hall _ _ rfl rfl).2 (by decide)

theorem guestCycles_between_without_carry :
    ∃ st', run step (initState oneClass) [.execTb (dataProcCycles 5)] = some st' ∧
      (initState oneClass).totalFixed .dataProc ≤
          guestCycles .dataProc (initState oneClass) st' zeroVarmodLocals zeroVarmodLocals ∧
        guestCycles .dataProc (initState oneClass) st' zeroVarmodLocals zeroVarmodLocals ≤
          st'.totalFixed .dataProc := by
  obtain ⟨st', hst'⟩ :
    ∃ st', run step (initState oneClass) [.execTb (dataProcCycles 5)] = some st' :=
    ⟨_, rfl⟩
  refine ⟨st', hst', ?_⟩
  exact (guestCycles_between_iff hst' .dataProc zeroVarmodLocals zeroVarmodLocals).1.mpr (by decide)

end VariabilityTestbed.Variability

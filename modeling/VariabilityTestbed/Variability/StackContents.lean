import VariabilityTestbed.Variability.Checkpoints
import VariabilityTestbed.Variability.Observers

/-!
# What the stack held before

The energies are collected in structures on the stack, which are declared without a value. The power
model fills them in; when none is installed nobody does. `freq_changed_set_chkpt` then accumulates
whatever was on the stack, and the readers report it. The first frequency change is the one of
`ssys_reset`, and at that time no model is installed.

A run is a list of operations, each with the contents of the stack that it finds. Two runs with the
same operations should give the same energies.
-/

namespace VariabilityTestbed.Variability

open Runs QObject List Option

/-- The operations on counters and energies. -/
inductive PowerOp where
  /-- `increment_cycle_counters`. -/
  | execTb (tb : TbCounters)
  /-- `increment_class_cycle_counter`. -/
  | chargeClass (insnClass cycleCount : UInt8)
  /-- `reset_all_cycle_counters`. -/
  | reset
  /-- `frequency_change_handler`. -/
  | freqChange
  /-- `power_model_init`. -/
  | powerModelInit (model : Option PowerModel)
  /-- `calculate_active_energy`. -/
  | readActive
  /-- `calculate_sleep_energy`. -/
  | readSleep
  /-- `do_info_energy`. -/
  | infoEnergy

/-- The contents of the stack that an operation finds: its own locals and those of the functions
that it calls. -/
structure Stack where
  locals : Locals
  energy : EnergyCounter

/-- What the readers of energy give. `calculate_active_energy` fills in the entries of the
configured classes. -/
inductive Report where
  | active (fixed : FixedClass → UInt64) (classes : Fin MAX_INSN_CLASSES → Option UInt64)
  | sleep (energy : UInt64)
  | info (ret : QDict)

/-- The variables, and what has been reported. -/
structure PowerState where
  vars : VarState
  reports : List Report

def PowerState.report (p : PowerState) (r : Report) : PowerState :=
  { p with reports := p.reports ++ [r] }

/-- What `calculate_active_energy` gives. -/
def activeReport (st : VarState) (stack : Stack) : Report :=
  let e := calculateActiveEnergy st stack.locals stack.energy
  .active e.fixed fun i => if i.val < st.totalInsnClasses.val then some (e.insnEnergy i) else none

/-- One operation, with the stack that it finds. -/
def powerStep (p : PowerState) (x : PowerOp × Stack) : Option PowerState :=
  match x.1 with
  | .execTb tb => some { p with vars := incrementCycleCounters p.vars tb }
  | .chargeClass c y => (incrementClassCycleCounter p.vars c y).map fun st => { p with vars := st }
  | .reset => some { p with vars := resetAllCycleCounters p.vars }
  | .freqChange => some { p with vars := frequencyChangeHandler p.vars x.2.locals }
  | .powerModelInit model => some { p with vars := { p.vars with currPowerModel := model } }
  | .readActive => some (p.report (activeReport p.vars x.2))
  | .readSleep => some (p.report (.sleep (calculateSleepEnergy p.vars x.2.energy).sleepEnergy))
  | .infoEnergy => some (p.report (.info (doInfoEnergy p.vars x.2.locals x.2.energy)))

/-- Two runs agree on the accumulated energies and on the reports. -/
structure Agree (p q : PowerState) : Prop where
  prevFixed : p.vars.prevFixed = q.vars.prevFixed
  prevClasses : p.vars.prevInsnExecEnergy = q.vars.prevInsnExecEnergy
  reports : p.reports = q.reports

/-- Program start, without a power model. -/
def powerStart (n : ClassCount) : PowerState := ⟨startState n none, []⟩

/-- **Independence of the stack**: two runs of the same operations agree, whatever they find. -/
def Independent (n : ClassCount) (ops : List PowerOp) : Prop :=
  ∀ xs ys : List (PowerOp × Stack), xs.map Prod.fst = ops → ys.map Prod.fst = ops →
    ∀ p q, run powerStep (powerStart n) xs = some p → run powerStep (powerStart n) ys =
    some q → Agree p q

/-- The operations that read energies from the power model. -/
def PowerOp.NeedsModel : PowerOp → Prop
  | .freqChange | .readActive | .readSleep | .infoEnergy => True
  | _ => False

/-- The power model behind an operation. -/
def PowerOp.install (model : Option PowerModel) : PowerOp → Option PowerModel
  | .powerModelInit m => m
  | _ => model

/-- A model is installed whenever energies are read. -/
def Guarded : Option PowerModel → List PowerOp → Prop
  | _, [] => True
  | model, op :: ops => (op.NeedsModel → model ≠ none) ∧ Guarded (op.install model) ops

variable {n : ClassCount} {st st' : VarState} {p q p' q' : PowerState} {op : PowerOp} {a b : Stack}

theorem powerStep_model (h : powerStep p (op, a) = some p') :
    p'.vars.currPowerModel = op.install p.vars.currPowerModel := by
  cases op with
  | chargeClass c y =>
    obtain ⟨st, hst, rfl⟩ := map_eq_some_iff.mp h
    obtain ⟨i, -, rfl⟩ := map_eq_some_iff.mp hst
    rfl
  | freqChange =>
    cases h
    show (frequencyChangeHandler p.vars a.locals).currPowerModel = p.vars.currPowerModel
    rw [frequencyChangeHandler, freqChangedSetChkpt]
    dsimp only
    split <;> rfl
  | _ =>
    cases h
    rfl

/-! ### With a model -/

theorem readActivePower_eq (hm : st.currPowerModel ≠ none) (loc loc' : Locals)
    (s s' : EnergyCounter) :
    (readActivePower st loc s).fixed = (readActivePower st loc' s').fixed ∧
      ∀ i : Fin MAX_INSN_CLASSES, i.val < st.totalInsnClasses.val →
        (readActivePower st loc s).insnEnergy i = (readActivePower st loc' s').insnEnergy i := by
  obtain ⟨m, hm⟩ := ne_none_iff_exists'.mp hm
  refine ⟨?_, fun i hi => ?_⟩
  · rw [readActivePower, readActivePower, hm]
    rfl
  · rw [readActivePower, readActivePower, hm]
    simp [serveActivePower, readAllCycleCounters, readAllCycleCounterChkpts, hi]

theorem forClasses_congr {n : ClassCount} {dst f g : ClassArray}
    (h : ∀ i : Fin MAX_INSN_CLASSES, i.val < n.val → f i = g i) :
    forClasses n dst f = forClasses n dst g := by
  funext i
  rw [forClasses, forClasses]
  split_ifs with hi
  · exact h i hi
  · rfl

section

variable (hm : st.currPowerModel ≠ none)
include hm

theorem frequencyChangeHandler_congr (loc loc' : Locals) :
    frequencyChangeHandler st loc = frequencyChangeHandler st loc' := by
  obtain ⟨hfixed, hclasses⟩ := readActivePower_eq hm loc loc' loc.energy loc'.energy
  have haccumulate : accumulateEnergy st (readActivePower st loc loc.energy) =
      accumulateEnergy st (readActivePower st loc' loc'.energy) := by
    rw [accumulateEnergy, accumulateEnergy, hfixed, forClasses_congr hclasses]
  have hcount : forClasses st.totalInsnClasses st.cycleCountChkpt
      (readAllCycleCounters st loc.curCount).cycleCount =
      forClasses st.totalInsnClasses st.cycleCountChkpt
      (readAllCycleCounters st loc'.curCount).cycleCount := by
    refine forClasses_congr fun i hi => ?_
    simp [readAllCycleCounters, hi]
  rw [frequencyChangeHandler, frequencyChangeHandler, freqChangedSetChkpt,
    freqChangedSetChkpt, haccumulate]
  rw [show forClasses (accumulateEnergy st _).totalInsnClasses
    (accumulateEnergy st _).cycleCountChkpt
    (readAllCycleCounters st loc.curCount).cycleCount = _ from hcount]
  rfl

theorem calculateActiveEnergy_eq (loc loc' : Locals) (s s' : EnergyCounter) :
    (calculateActiveEnergy st loc s).fixed = (calculateActiveEnergy st loc' s').fixed ∧
      ∀ i : Fin MAX_INSN_CLASSES, i.val < st.totalInsnClasses.val →
        (calculateActiveEnergy st loc s).insnEnergy i =
          (calculateActiveEnergy st loc' s').insnEnergy i := by
  obtain ⟨hfixed, hclasses⟩ := readActivePower_eq hm loc loc' s s'
  refine ⟨?_, fun i hi => ?_⟩
  · funext k
    rw [calculateActiveEnergy, calculateActiveEnergy]
    dsimp only
    rw [hfixed]
    rfl
  · rw [calculateActiveEnergy, calculateActiveEnergy]
    dsimp only
    rw [forClasses_of_lt hi, forClasses_of_lt hi, hclasses i hi]
    simp [readAllPrevEnergy, hi]

theorem activeReport_congr (a b : Stack) : activeReport st a = activeReport st b := by
  obtain ⟨hfixed, hclasses⟩ := calculateActiveEnergy_eq hm a.locals b.locals a.energy b.energy
  rw [activeReport, activeReport, hfixed]
  congr 1
  funext i
  split_ifs with hi
  · rw [hclasses i hi]
  · rfl

theorem calculateSleepEnergy_congr (s s' : EnergyCounter) :
    (calculateSleepEnergy st s).sleepEnergy = (calculateSleepEnergy st s').sleepEnergy := by
  obtain ⟨m, hm⟩ := ne_none_iff_exists'.mp hm
  rw [calculateSleepEnergy, calculateSleepEnergy, hm]

end

theorem calculateSleepEnergy_fixed (st : VarState) (s : EnergyCounter) :
    (calculateSleepEnergy st s).fixed = s.fixed := by
  rw [calculateSleepEnergy]
  split <;> rfl

theorem doInfoEnergy_congr (hm : st.currPowerModel ≠ none) (a b : Stack) :
    doInfoEnergy st a.locals a.energy = doInfoEnergy st b.locals b.energy := by
  obtain ⟨hfixed, -⟩ := calculateActiveEnergy_eq hm a.locals b.locals a.energy b.energy
  rw [doInfoEnergy, doInfoEnergy]
  simp only [calculateSleepEnergy_fixed, hfixed]
  rw [calculateSleepEnergy_congr hm (calculateActiveEnergy st a.locals a.energy)
    (calculateActiveEnergy st b.locals b.energy)]

/-- **One operation with a model** does the same whatever it finds on the stack. -/
theorem powerStep_congr (h : op.NeedsModel → p.vars.currPowerModel ≠ none) (a b : Stack) :
    powerStep p (op, a) = powerStep p (op, b) := by
  cases op with
  | freqChange =>
    rw [powerStep, powerStep]
    dsimp only
    rw [frequencyChangeHandler_congr (h trivial) a.locals b.locals]
  | readActive =>
    rw [powerStep, powerStep]
    dsimp only
    rw [activeReport_congr (h trivial) a b]
  | readSleep =>
    rw [powerStep, powerStep]
    dsimp only
    rw [calculateSleepEnergy_congr (h trivial) a.energy b.energy]
  | infoEnergy =>
    rw [powerStep, powerStep]
    dsimp only
    rw [doInfoEnergy_congr (h trivial) a b]
  | _ => rfl

theorem Guarded.run_congr : ∀ {xs ys : List (PowerOp × Stack)} {p : PowerState},
    xs.map Prod.fst = ys.map Prod.fst → Guarded p.vars.currPowerModel (xs.map Prod.fst) →
      run powerStep p xs = run powerStep p ys
  | [], [], _, _, _ => rfl
  | (op, a) :: xs, (op', b) :: ys, p, heq, h => by
    obtain ⟨rfl, hrest⟩ := List.cons.inj heq
    rw [run_cons, run_cons, powerStep_congr h.1 a b]
    cases hp : powerStep p (op, b) with
    | none => rfl
    | some p' =>
      have hguard := h.2
      rw [← powerStep_model hp] at hguard
      exact Guarded.run_congr hrest hguard

/-! ### Without one -/

/-- A stack of zeros. -/
def zeroStack : Stack := ⟨zeroLocals, zeroLocals.energy⟩

/-- A stack with ones where energies will be. -/
def oneStack : Stack :=
  let ones : EnergyCounter := ⟨fun k => if k = .dataProc then 1 else 0, 1, fun _ => 0⟩
  ⟨{ zeroLocals with energy := ones }, ones⟩

/-- One unit more has been accumulated, and nothing else is different. -/
def Shifted (st st' : VarState) : Prop :=
  st' = { st with prevFixed := fun k => st.prevFixed k + if k = .dataProc then 1 else 0 }

/-- Two runs that will never agree again. -/
def Tainted (p q : PowerState) : Prop :=
  p.reports.length = q.reports.length ∧ (p.reports ≠ q.reports ∨ Shifted p.vars q.vars)

theorem Tainted.not_agree (h : Tainted p q) : ¬Agree p q := by
  intro hagree
  have hshift := h.2.resolve_left (not_not.mpr hagree.reports)
  have hprev := congrFun hagree.prevFixed .dataProc
  rw [hshift] at hprev
  exact absurd ((Words.add_ofNat_eq_self_iff (p.vars.prevFixed .dataProc) 1).mp hprev.symm)
    (by decide)

/-- How many reports an operation makes. -/
def PowerOp.nbReports : PowerOp → ℕ
  | .readActive | .readSleep | .infoEnergy => 1
  | _ => 0

theorem powerStep_reports (h : powerStep p (op, a) = some p') :
    ∃ l, p'.reports = p.reports ++ l ∧ l.length = op.nbReports := by
  cases op with
  | chargeClass c y =>
    obtain ⟨st, -, rfl⟩ := map_eq_some_iff.mp h
    exact ⟨[], (append_nil _).symm, rfl⟩
  | readActive | readSleep | infoEnergy =>
    cases h
    exact ⟨_, rfl, rfl⟩
  | _ =>
    cases h
    exact ⟨[], (append_nil _).symm, rfl⟩

theorem Shifted.freqChange (h : Shifted st st') (loc : Locals) :
    Shifted (frequencyChangeHandler st loc) (frequencyChangeHandler st' loc) := by
  subst h
  rw [Shifted, frequencyChangeHandler, frequencyChangeHandler, freqChangedSetChkpt,
    freqChangedSetChkpt]
  cases hm : st.currPowerModel with
  | none =>
    simp only [accumulateEnergy, readActivePower, hm]
    congr 1
    funext k
    grind
  | some m =>
    simp only [accumulateEnergy, readActivePower, hm, freqHasChanged]
    congr 1
    funext k
    simp only [serveActivePower, readAllCycleCounters, readAllCycleCounterChkpts]
    grind

theorem Shifted.step (h : Shifted p.vars q.vars) (hp : powerStep p (op, a) = some p')
    (hq : powerStep q (op, a) = some q') : Shifted p'.vars q'.vars := by
  cases op with
  | chargeClass c y =>
    obtain ⟨st, hst, rfl⟩ := map_eq_some_iff.mp hp
    obtain ⟨st', hst', rfl⟩ := map_eq_some_iff.mp hq
    obtain ⟨i, hi, rfl⟩ := map_eq_some_iff.mp hst
    obtain ⟨j, hj, rfl⟩ := map_eq_some_iff.mp hst'
    obtain rfl : i = j := some.inj (hi.symm.trans hj)
    rw [Shifted] at h ⊢
    rw [h]
  | freqChange =>
    cases hp
    cases hq
    exact h.freqChange a.locals
  | readActive | readSleep | infoEnergy =>
    cases hp
    cases hq
    exact h
  | powerModelInit m =>
    cases hp
    cases hq
    rw [Shifted] at h ⊢
    simp only [h]
  | _ =>
    cases hp
    cases hq
    rw [Shifted] at h ⊢
    simp only [h]
    rfl

theorem Tainted.step (h : Tainted p q) (hp : powerStep p (op, a) = some p')
    (hq : powerStep q (op, a) = some q') : Tainted p' q' := by
  obtain ⟨l, hl, hlen⟩ := powerStep_reports hp
  obtain ⟨l', hl', hlen'⟩ := powerStep_reports hq
  refine ⟨by rw [hl, hl', length_append, length_append, h.1, hlen, hlen'], ?_⟩
  refine h.2.imp (fun hne heq => hne ?_) fun hshift => hshift.step hp hq
  rw [hl, hl'] at heq
  exact (append_inj heq h.1).1

/-- The operations are defined: they charge classes that exist. -/
def Defined (ops : List PowerOp) : Prop := ∀ c y, PowerOp.chargeClass c y ∈ ops → classSlot c ≠ none

theorem exists_powerStep {ops : List PowerOp} (hdef : Defined (op :: ops))
    (p : PowerState) (a : Stack) :
    ∃ p', powerStep p (op, a) = some p' := by
  cases op with
  | chargeClass c y =>
    obtain ⟨i, hi⟩ := ne_none_iff_exists'.mp (hdef c y (.head _))
    exact ⟨_, map_eq_some_iff.mpr ⟨_, map_eq_some_iff.mpr ⟨i, hi, rfl⟩, rfl⟩⟩
  | _ => exact ⟨_, rfl⟩

theorem Defined.tail {ops : List PowerOp} (hdef : Defined (op :: ops)) : Defined ops :=
  fun c y h => hdef c y (mem_cons_of_mem op h)

/-- Runs that disagree go on to disagree. -/
theorem Tainted.exists_run {ops : List PowerOp} (hdef : Defined ops) (h : Tainted p q) :
    ∃ p' q', run powerStep p (ops.map (·, zeroStack)) = some p' ∧
      run powerStep q (ops.map (·, zeroStack)) = some q' ∧ Tainted p' q' := by
  induction ops generalizing p q with
  | nil => exact ⟨p, q, rfl, rfl, h⟩
  | cons op ops ih =>
    obtain ⟨p₁, hp₁⟩ := exists_powerStep hdef p zeroStack
    obtain ⟨q₁, hq₁⟩ := exists_powerStep hdef q zeroStack
    obtain ⟨p', q', hp', hq', htaint⟩ := ih hdef.tail (h.step hp₁ hq₁)
    refine ⟨p', q', ?_, ?_, htaint⟩
    · rw [map_cons, run_cons, hp₁]
      exact hp'
    · rw [map_cons, run_cons, hq₁]
      exact hq'

theorem tainted_report {r r' : Report} (hne : r ≠ r') : Tainted (p.report r) (p.report r') := by
  refine ⟨by simp [PowerState.report], .inl fun heq => hne ?_⟩
  exact singleton_inj.mp (append_cancel_left heq)

theorem calculateActiveEnergy_of_none (hm : st.currPowerModel = none) (a : Stack) (k : FixedClass) :
    (calculateActiveEnergy st a.locals a.energy).fixed k = a.energy.fixed k + st.prevFixed k := by
  rw [calculateActiveEnergy, readActivePower, hm]
  rfl

theorem zero_add_ne_one_add (x : UInt64) : (0 : UInt64) + x ≠ 1 + x := by
  intro h
  grind

/-- Without a model, an operation that reads energies finds those of the stack. -/
theorem exists_tainted (hm : p.vars.currPowerModel = none) (hop : op.NeedsModel) :
    ∃ p' q', powerStep p (op, zeroStack) = some p' ∧ powerStep p (op, oneStack) = some q' ∧
    Tainted p' q' := by
  have hfixed : (calculateActiveEnergy p.vars zeroStack.locals zeroStack.energy).fixed .dataProc ≠
      (calculateActiveEnergy p.vars oneStack.locals oneStack.energy).fixed .dataProc := by
    rw [calculateActiveEnergy_of_none hm, calculateActiveEnergy_of_none hm]
    exact zero_add_ne_one_add _
  cases op with
  | freqChange =>
    refine ⟨_, _, rfl, rfl, rfl, .inr ?_⟩
    rw [Shifted, frequencyChangeHandler, frequencyChangeHandler, freqChangedSetChkpt,
      freqChangedSetChkpt]
    simp only [accumulateEnergy, readActivePower, hm]
    congr 1
    funext k
    simp [zeroStack, zeroLocals, oneStack]
  | readActive =>
    refine ⟨_, _, rfl, rfl, tainted_report fun heq => hfixed ?_⟩
    rw [activeReport, activeReport] at heq
    exact congrFun (Report.active.inj heq).1 .dataProc
  | readSleep =>
    refine ⟨_, _, rfl, rfl, tainted_report fun heq => ?_⟩
    have hsleep := Report.sleep.inj heq
    rw [calculateSleepEnergy, calculateSleepEnergy, hm] at hsleep
    exact absurd (show (0 : UInt64) = 1 from hsleep) (by decide)
  | infoEnergy =>
    refine ⟨_, _, rfl, rfl, tainted_report fun heq => ?_⟩
    have hdynamic := congrArg dynamicValue (Report.info.inj heq)
    rw [dynamicValue_doInfoEnergy, dynamicValue_doInfoEnergy] at hdynamic
    have hsum := Words.toInt64_inj.mp (some.inj hdynamic)
    simp only [calculateActiveEnergy_of_none hm] at hsum
    simp only [zeroStack, zeroLocals, oneStack, if_true, reduceCtorEq, if_false] at hsum
    grind
  | _ => exact hop.elim

/-- Operations that are not guarded have two runs that disagree. -/
theorem exists_run_tainted {ops : List PowerOp} (hdef : Defined ops)
    (h : ¬Guarded p.vars.currPowerModel ops) :
    ∃ xs ys p' q', xs.map Prod.fst = ops ∧ ys.map Prod.fst = ops ∧
      run powerStep p xs = some p' ∧ run powerStep p ys = some q' ∧ Tainted p' q' := by
  induction ops generalizing p with
  | nil => exact absurd trivial h
  | cons op ops ih =>
    by_cases hhead : op.NeedsModel → p.vars.currPowerModel ≠ none
    · obtain ⟨p₁, hp₁⟩ := exists_powerStep hdef p zeroStack
      have htail : ¬Guarded p₁.vars.currPowerModel ops := by
        rw [powerStep_model hp₁]
        exact fun hguard => h ⟨hhead, hguard⟩
      obtain ⟨xs, ys, p', q', hxs, hys, hp', hq', htaint⟩ := ih hdef.tail htail
      refine ⟨(op, zeroStack) :: xs, (op, zeroStack) :: ys, p', q', by simp [hxs], by simp [hys],
        ?_, ?_, htaint⟩
      · rw [run_cons, hp₁]
        exact hp'
      · rw [run_cons, hp₁]
        exact hq'
    · obtain ⟨hop, hm⟩ := Classical.not_imp.mp hhead
      obtain ⟨p₁, q₁, hp₁, hq₁, htaint⟩ := exists_tainted (not_not.mp hm) hop
      obtain ⟨p', q', hp', hq', htaint'⟩ := htaint.exists_run hdef.tail
      refine ⟨(op, zeroStack) :: ops.map (·, zeroStack), (op, oneStack) :: ops.map (·, zeroStack),
        p', q', by simp [Function.comp_def], by simp [Function.comp_def], ?_, ?_, htaint'⟩
      · rw [run_cons, hp₁]
        exact hp'
      · rw [run_cons, hq₁]
        exact hq'

/-- **Energy does not depend on the stack** exactly if a model is installed whenever energy is read
or accumulated. -/
theorem energy_independent_iff {ops : List PowerOp} (hdef : Defined ops) :
    Independent n ops ↔ Guarded none ops := by
  constructor
  · intro h
    by_contra hguard
    obtain ⟨xs, ys, p, q, hxs, hys, hp, hq, htaint⟩ :=
      exists_run_tainted (p := powerStart n) hdef hguard
    exact htaint.not_agree (h xs ys hxs hys p q hp hq)
  · rintro h xs ys rfl hys p q hp hq
    rw [Guarded.run_congr hys.symm h] at hp
    obtain rfl := some.inj (hp.symm.trans hq)
    exact ⟨rfl, rfl, rfl⟩

/-- The frequency change of `ssys_reset`, then the model is installed and the energy is asked
for. -/
def resetThenInit : List PowerOp :=
  [.freqChange, .powerModelInit (some .firstPwrModel), .infoEnergy]

/-- What `ssys_reset` finds on the stack is accumulated, and reported. -/
theorem reset_accumulates_stack : ¬Independent oneClass resetThenInit := by
  intro h
  have hagree :=
    h (resetThenInit.map (·, zeroStack)) (resetThenInit.map (·, oneStack)) rfl rfl _ _ rfl rfl
  exact absurd (congrFun hagree.prevFixed .dataProc) (by decide)

/-- With the model installed first, nothing depends on the stack. -/
theorem init_then_reset_independent :
    Independent oneClass [.powerModelInit (some .firstPwrModel), .freqChange, .infoEnergy] := by
  refine (energy_independent_iff fun c y h => ?_).mpr ⟨fun h => h.elim, fun _ => nofun, fun _ =>
    nofun, trivial⟩
  simp at h

end VariabilityTestbed.Variability

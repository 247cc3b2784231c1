import VariabilityTestbed.Variability.Energy

/-!
# Checkpoints and totals

The energy of a period is the running total minus the checkpoint of the last frequency change, in
unsigned arithmetic. That is a number of cycles only as long as the checkpoint is not ahead of the
total. Counting raises totals, and a frequency change moves the checkpoint to them; but
`reset_all_cycle_counters` sets the totals back and leaves the checkpoint where it is.
-/

namespace VariabilityTestbed.Variability

open Runs

/-- The operations on totals and checkpoints. -/
inductive CheckpointOp where
  /-- Counting, and frequency changes. -/
  | count (op : CounterOp)
  /-- `reset_all_cycle_counters`. -/
  | reset

def checkpointStep (st : VarState) : CheckpointOp → Option VarState
  | .count op => step st op
  | .reset => some (resetAllCycleCounters st)

/-- Program start, with a power model or without one. -/
def startState (n : ClassCount) (model : Option PowerModel) : VarState :=
  { initState n with currPowerModel := model }

/-- No checkpoint is ahead of its total. -/
structure NotAhead (st : VarState) : Prop where
  fixed : ∀ k, st.chkptFixed k ≤ st.totalFixed k
  classes : ∀ i, st.cycleCountChkpt i ≤ st.totalCycleCount i

/-- The differences between totals and checkpoints, as `serve_active_power` and
`frequency_change_handler` compute them, do not wrap. -/
structure ExactDifferences (st : VarState) : Prop where
  fixed : ∀ cc chk k, let total := (readAllCycleCounters st cc).fixed k
    let chkpt := (readAllCycleCounterChkpts st chk).fixed k
    (total - chkpt).toNat + chkpt.toNat = total.toNat
  classes : ∀ cc chk (i : Fin MAX_INSN_CLASSES), i.val < st.totalInsnClasses.val →
    let total := (readAllCycleCounters st cc).cycleCount i
    let chkpt := (readAllCycleCounterChkpts st chk).cycleCount i
    (total - chkpt).toNat + chkpt.toNat = total.toNat

/-- No total gets above `2 ^ 64 - 1`. -/
def Fits (st : VarState) : CheckpointOp → Prop
  | .count (.execTb tb) => (∀ k, (st.totalFixed k).toNat + (tb.fixed k).toNat < 2 ^ 64) ∧
      ∀ i : Fin MAX_INSN_CLASSES, i.val < st.totalInsnClasses.val →
        (st.totalCycleCount i).toNat + (tb.cycleCount i).toNat < 2 ^ 64
  | .count (.chargeClass c y) =>
    ∀ i, classSlot c = some i → (st.totalCycleCount i).toNat + y.toNat < 2 ^ 64
  | _ => True

/-- The checkpoints of the totals that a reset sets to zero. -/
structure Cleared (st : VarState) : Prop where
  fixed : ∀ k, st.chkptFixed k = 0
  classes : ∀ i : Fin MAX_INSN_CLASSES, i.val < st.totalInsnClasses.val → st.cycleCountChkpt i = 0

theorem ordered_startState (n : ClassCount) (model : Option PowerModel) :
    NotAhead (startState n model) :=
  ⟨fun _ => UInt64.le_refl _, fun _ => UInt64.le_refl _⟩

variable {st st' : VarState}

theorem le_add_of_fits {a b c : UInt64} (hab : a ≤ b) (hfits : b.toNat + c.toNat < 2 ^ 64) :
    a ≤ b + c := by
  rw [UInt64.le_iff_toNat_le] at hab ⊢
  rw [UInt64.toNat_add, Nat.mod_eq_of_lt hfits]
  omega

theorem toNat_sub_add {total chkpt : UInt64} (h : chkpt ≤ total) :
    (total - chkpt).toNat + chkpt.toNat = total.toNat := by
  rw [UInt64.toNat_sub_of_le _ _ h]
  have := UInt64.le_iff_toNat_le.mp h
  omega

section

variable (h : NotAhead st)
include h

theorem NotAhead.exactDifferences : ExactDifferences st where
  fixed _ _ k := toNat_sub_add (h.fixed k)
  classes cc chk i hi := by
    rw [readAllCycleCounters, readAllCycleCounterChkpts]
    dsimp only
    rw [forClasses_of_lt hi, forClasses_of_lt hi]
    exact toNat_sub_add (h.classes i)

theorem NotAhead.execTb {tb : TbCounters} (hfits : Fits st (.count (.execTb tb))) :
    NotAhead (incrementCycleCounters st tb) where
  fixed k := le_add_of_fits (h.fixed k) (hfits.1 k)
  classes i := by
    rw [incrementCycleCounters]
    dsimp only
    by_cases hi : i.val < st.totalInsnClasses.val
    · rw [forClasses_of_lt hi]
      exact le_add_of_fits (h.classes i) (hfits.2 i hi)
    · rw [forClasses_of_not_lt hi]
      exact h.classes i

theorem NotAhead.chargeClass {c y : UInt8} (hfits : Fits st (.count (.chargeClass c y)))
    (hst : incrementClassCycleCounter st c y = some st') : NotAhead st' := by
  obtain ⟨j, hj, rfl⟩ := Option.map_eq_some_iff.mp hst
  refine ⟨h.fixed, fun i => ?_⟩
  rcases eq_or_ne i j with rfl | hij
  · dsimp only
    rw [Function.update_self]
    exact le_add_of_fits (h.classes i) (by simpa using hfits i hj)
  · dsimp only
    rw [Function.update_of_ne hij]
    exact h.classes i

theorem NotAhead.freqChange (loc : Locals) : NotAhead (frequencyChangeHandler st loc) := by
  obtain ⟨htotal, hchkpt, hclass, hclassChkpt⟩ := frequencyChangeHandler_chkpt st loc
  refine ⟨fun k => ?_, fun i => ?_⟩
  · rw [htotal, hchkpt]
    exact UInt64.le_refl _
  · rw [hclass, hclassChkpt]
    by_cases hi : i.val < st.totalInsnClasses.val
    · rw [forClasses_of_lt hi]
      exact UInt64.le_refl _
    · rw [forClasses_of_not_lt hi]
      exact h.classes i

/-- **A reset keeps the order exactly if the checkpoints are cleared.** -/
theorem NotAhead.reset_iff : NotAhead (resetAllCycleCounters st) ↔ Cleared st := by
  constructor
  · intro hreset
    refine ⟨fun k => UInt64.le_zero_iff.mp (hreset.fixed k), fun i hi => ?_⟩
    have hclass := hreset.classes i
    rw [resetAllCycleCounters] at hclass
    dsimp only at hclass
    rw [forClasses_of_lt hi] at hclass
    exact UInt64.le_zero_iff.mp hclass
  · intro hcleared
    refine ⟨fun k => UInt64.le_zero_iff.mpr (hcleared.fixed k), fun i => ?_⟩
    rw [resetAllCycleCounters]
    dsimp only
    by_cases hi : i.val < st.totalInsnClasses.val
    · rw [forClasses_of_lt hi]
      exact UInt64.le_zero_iff.mpr (hcleared.classes i hi)
    · rw [forClasses_of_not_lt hi]
      exact h.classes i

/-- One operation. -/
theorem NotAhead.step_iff {op : CheckpointOp} (hfits : Fits st op)
    (hst : checkpointStep st op = some st') : NotAhead st' ↔ (op = .reset → Cleared st) := by
  cases op with
  | reset =>
    cases hst
    rw [h.reset_iff]
    exact ⟨fun hc _ => hc, fun hc => hc rfl⟩
  | count op =>
    refine iff_of_true ?_ (nofun)
    cases op with
    | execTb tb =>
      cases hst
      exact h.execTb hfits
    | chargeClass c y => exact h.chargeClass hfits hst
    | freqChange loc =>
      cases hst
      exact h.freqChange loc

end

/-- **Checkpoints and totals along a run** in which no total overflows: the checkpoints stay behind
the totals, and the differences are exact, exactly if every reset finds the checkpoints cleared. -/
theorem checkpoints_ordered_iff {n : ClassCount} {model : Option PowerModel}
    {ops : List CheckpointOp} (h : run checkpointStep (startState n model) ops = some st)
    (hfits : Along checkpointStep Fits (startState n model) ops) :
    (∀ p t, p <+: ops → run checkpointStep (startState n model) p = some t → NotAhead t ∧
      ExactDifferences t) ↔
      ∀ p op t, p ++ [op] <+: ops → run checkpointStep (startState n model) p = some t →
        op = .reset → Cleared t := by
  rw [← forall_prefix_iff (P := fun _ t => NotAhead t) (C := fun t op => op = .reset → Cleared t)
    (ordered_startState n model)
    (fun p op t t' hp ht hop hord => hord.step_iff (hfits.cond p op t hp ht) hop) h]
  exact ⟨fun hall p t hp ht => (hall p t hp ht).1, fun hall p t hp ht =>
    ⟨hall p t hp ht, (hall p t hp ht).exactDifferences⟩⟩

theorem fits_fiveCycles (hfixed : ∀ k, st.totalFixed k = 0)
    (hclasses : ∀ i, st.totalCycleCount i = 0) :
    Fits st (.count (.execTb fiveCycles)) := by
  have hfive : ∀ i, (0 : UInt64).toNat + (fiveCycles.cycleCount i).toNat < 2 ^ 64 := by decide
  refine ⟨fun k => ?_, fun i _ => ?_⟩
  · rw [hfixed]
    exact show (0 : UInt64).toNat + (0 : UInt64).toNat < 2 ^ 64 by decide
  · rw [hclasses]
    exact hfive i

/-- Five cycles, a frequency change, and a reset. -/
def resetAfterChange : List CheckpointOp :=
  [.count (.execTb fiveCycles), .count (.freqChange zeroLocals), .reset]

/-- Behind the reset the checkpoint is at five cycles and the total at none, and what is reported
for the class is five less than `2 ^ 64`. -/
theorem checkpoint_ahead_after_reset : ∃ st,
    run checkpointStep (startState oneClass (some .firstPwrModel)) resetAfterChange = some st ∧
      Along checkpointStep Fits (startState oneClass (some .firstPwrModel)) resetAfterChange ∧
      ¬NotAhead st ∧
      (serveActivePower st zeroLocals.curCount zeroLocals.curCount zeroLocals.energy).insnEnergy
        ⟨0, by decide⟩ =
        0xfffffffffffffffb := by
  refine ⟨_, rfl, ?_, fun h => ?_, by decide⟩
  · exact ⟨fits_fiveCycles (fun _ => rfl) fun _ => rfl, fun _ _ =>
      ⟨trivial, fun _ _ => ⟨trivial, fun _ _ => trivial⟩⟩⟩
  · exact absurd (h.classes ⟨0, by decide⟩) (by decide)

/-- A reset at the start does no harm. -/
theorem checkpoints_ordered_after_first_reset :
    (run checkpointStep (startState oneClass none)
        [.reset, .count (.execTb fiveCycles), .count (.freqChange zeroLocals)]).isSome = true ∧
      ∀ p t, p <+: [.reset, .count (.execTb fiveCycles), .count (.freqChange zeroLocals)] →
        run checkpointStep (startState oneClass none) p = some t → NotAhead t ∧
        ExactDifferences t := by
  have hfits : Along checkpointStep Fits (startState oneClass none)
      [.reset, .count (.execTb fiveCycles), .count (.freqChange zeroLocals)] := by
    refine ⟨trivial, fun s hs => ?_⟩
    cases hs
    refine ⟨fits_fiveCycles (fun _ => rfl) fun i => ?_, fun _ _ => ⟨trivial, fun _ _ => trivial⟩⟩
    revert i
    decide
  refine ⟨rfl, (checkpoints_ordered_iff rfl hfits).mpr
    (Along.cond ⟨fun _ => ⟨fun _ => rfl, fun _ _ => rfl⟩, ?_⟩)⟩
  exact fun _ _ => ⟨nofun, fun _ _ => ⟨nofun, fun _ _ => trivial⟩⟩

end VariabilityTestbed.Variability

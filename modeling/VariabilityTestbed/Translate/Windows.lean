import Mathlib.Data.List.Induction

/-!
# Error windows

A variability file can set a window of program counters and a window of instruction counts. After
each instruction that is translated, `gen_intermediate_code_internal` looks at both windows and
sets the global flag `singlestep`, unless single-stepping was asked for throughout
(`allthru_singlestep`).

Two things about this code decide what the flag does.

* A window that an instruction is outside of is *disarmed*, for good: `error_pc_enabled` and
  `error_icount_enabled` are only ever set while the file is parsed.
* The instruction-count window compares the program counter too.

So the flag after a sequence of instructions has a closed form, `singlestep_foldl`: a window
counts as long as every instruction so far was inside it, and the second window has the last word.
-/

namespace VariabilityTestbed.Translate

open List

/-- The globals that `gen_intermediate_code_internal` reads and writes after each instruction. -/
structure StepFlags where
  singlestep : Bool
  allthruSinglestep : Bool
  errorPcEnabled : Bool
  errorPcInfo : Int32 × Int32
  errorIcountEnabled : Bool
  errorIcountInfo : Int32 × Int32
  deriving DecidableEq, Repr

/-- The comparison of a `target_ulong` with the two `int`s of a window, which are converted to
unsigned. -/
def inWindow (info : Int32 × Int32) (x : UInt32) : Bool :=
  decide (x > info.1.toUInt32) && decide (x < info.2.toUInt32)

/-- The first of the two tests. -/
def checkErrorPc (g : StepFlags) (pc : UInt32) : StepFlags :=
  if g.errorPcEnabled && !g.allthruSinglestep then
    if inWindow g.errorPcInfo pc then { g with singlestep := true }
    else { g with singlestep := false, errorPcEnabled := false }
  else g

/-- The second test. It is handed the program counter as well. -/
def checkErrorIcount (g : StepFlags) (pc : UInt32) : StepFlags :=
  if g.errorIcountEnabled && !g.allthruSinglestep then
    if inWindow g.errorIcountInfo pc then { g with singlestep := true }
    else { g with singlestep := false, errorIcountEnabled := false }
  else g

/-- What happens to the flags after an instruction that ends at `pc`. -/
def updateWindows (g : StepFlags) (pc : UInt32) : StepFlags :=
  checkErrorIcount (checkErrorPc g pc) pc

/-! ### One instruction -/

variable {g : StepFlags}

/-- Without it, an armed window stays armed as long as it is met, and the last armed window sets
the flag. -/
theorem updateWindows_of_not_allthru (h : g.allthruSinglestep = false) (pc : UInt32) :
    updateWindows g pc =
      { g with
        singlestep :=
          if g.errorIcountEnabled then inWindow g.errorIcountInfo pc
          else if g.errorPcEnabled then inWindow g.errorPcInfo pc
          else g.singlestep
        errorPcEnabled := g.errorPcEnabled && inWindow g.errorPcInfo pc
        errorIcountEnabled := g.errorIcountEnabled && inWindow g.errorIcountInfo pc } := by
  rcases g with ⟨ss, all, pe, pi, ie, ii⟩
  obtain rfl : all = false := h
  cases pe <;> cases ie <;> cases hp : inWindow pi pc <;> cases hi : inWindow ii pc <;>
    simp [updateWindows, checkErrorPc, checkErrorIcount, hp, hi]

/-! ### A sequence of instructions -/

/-- What a sequence of instructions leaves alone, and which windows it leaves armed. -/
theorem foldl_updateWindows (h : g.allthruSinglestep = false) (pcs : List UInt32) :
    ∃ ss, pcs.foldl updateWindows g =
      { g with
        singlestep := ss
        errorPcEnabled := g.errorPcEnabled && pcs.all (inWindow g.errorPcInfo)
        errorIcountEnabled := g.errorIcountEnabled && pcs.all (inWindow g.errorIcountInfo) } := by
  induction pcs using reverseRecOn with
  | nil => exact ⟨g.singlestep, by simp⟩
  | append_singleton p pc ih =>
    obtain ⟨ss, hss⟩ := ih
    refine ⟨(updateWindows (p.foldl updateWindows g) pc).singlestep, ?_⟩
    rw [foldl_append, foldl_cons, foldl_nil, hss, updateWindows_of_not_allthru (by exact h)]
    simp [Bool.and_assoc]

/-- **`singlestep` after a sequence of instructions**, the last of which ends at `pc`. While the
second window is armed it alone decides. After that the flag is set only if the first window has
been met by every instruction, the last one included. -/
theorem singlestep_foldl (h : g.allthruSinglestep = false)
    (hconf : g.errorPcEnabled = true ∨ g.errorIcountEnabled = true) (p : List UInt32)
    (pc : UInt32) :
    ((p ++ [pc]).foldl updateWindows g).singlestep =
      if g.errorIcountEnabled && p.all (inWindow g.errorIcountInfo) then
        inWindow g.errorIcountInfo pc
      else g.errorPcEnabled && (p ++ [pc]).all (inWindow g.errorPcInfo) := by
  induction p using reverseRecOn generalizing pc with
  | nil =>
    rw [nil_append, foldl_cons, foldl_nil, updateWindows_of_not_allthru h]
    rcases hconf with hpc | hic
    · simp [hpc]
    · simp [hic]
  | append_singleton q x ih =>
    obtain ⟨ss, hss⟩ := foldl_updateWindows h (q ++ [x])
    -- `ss` is the flag one instruction earlier
    have hprev := ih x
    rw [hss] at hprev
    rw [foldl_append, hss, foldl_cons, foldl_nil, updateWindows_of_not_allthru (by exact h)]
    dsimp only at hprev ⊢
    rw [hprev]
    simp only [all_append, all_cons, all_nil, Bool.and_true]
    -- the window that `x` was the first to miss has cleared the flag
    generalize g.errorIcountEnabled = icEnabled, g.errorPcEnabled = pcEnabled,
      (q.all (inWindow g.errorIcountInfo)) = icMet, (q.all (inWindow g.errorPcInfo)) = pcMet,
      inWindow g.errorIcountInfo x = icX, inWindow g.errorPcInfo x = pcX
    cases icEnabled <;> cases pcEnabled <;> cases icMet <;> cases pcMet <;> cases icX <;>
      cases pcX <;> rfl

end VariabilityTestbed.Translate

import Mathlib.Data.Int.Notation
import VariabilityTestbed.Translate.InsnLoop

/-!
# Single-stepping in the error windows

The error windows are there to make the emulator single-step where errors are to be injected:
after each translated instruction `singlestep` should be set just when the program counter is
inside the first window or the number of instructions is inside the second.

What the flag does along any sequence of translations is settled by `singlestep_foldl`. The
theorem below compares the two. It is an equivalence over every sequence of calls of
`gen_intermediate_code_internal`, in both modes and for any blocks and guest code, as long as the
monitor does not interfere.
-/

namespace VariabilityTestbed.Translate

open List

/-! ### Sequences of translations -/

/-- A call of `gen_intermediate_code_internal`. -/
structure Call where
  env : TransEnv
  tb : TbHeader
  searchPc : Bool
  opcMap : OpcMap

/-- All instructions that a sequence of calls translates, and the flags it leaves. -/
def translateCalls : StepFlags → List Call → List Round × StepFlags
  | g, [] => ([], g)
  | g, c :: calls =>
    let p := genIntermediateCodeInternal c.env c.tb c.searchPc g c.opcMap
    let rest := translateCalls p.last.flags calls
    (p.rounds ++ rest.1, rest.2)

theorem stepsAfter_append (g : StepFlags) (p q : List UInt32) :
    stepsAfter g (p ++ q) = stepsAfter g p ++ stepsAfter (p.foldl updateWindows g) q := by
  induction p generalizing g with
  | nil => rfl
  | cons pc p ih =>
    show _ :: stepsAfter (updateWindows g pc) (p ++ q) = _ :: _
    rw [ih]
    rfl

/-- The flag after each instruction depends on the program counters alone. -/
theorem singlestep_translateCalls (g : StepFlags) (calls : List Call) :
    (translateCalls g calls).1.map Round.singlestep =
      stepsAfter g ((translateCalls g calls).1.map Round.endPc) := by
  induction calls generalizing g with
  | nil => rfl
  | cons c calls ih =>
    obtain ⟨hflags, hsteps⟩ := flags_insnLoop c.env c.tb c.searchPc
      c.tb.maxInsns (initLoopState c.env c.tb g c.opcMap)
    rw [translateCalls, map_append, map_append, stepsAfter_append, ih]
    exact congrArg₂ _ hsteps (congrArg (stepsAfter · _) hflags)

theorem getElem?_stepsAfter (g : StepFlags) (pcs : List UInt32) (k : ℕ) :
    (stepsAfter g pcs)[k]? =
      pcs[k]?.map fun pc => ((pcs.take k ++ [pc]).foldl updateWindows g).singlestep := by
  induction pcs generalizing g k with
  | nil => rfl
  | cons pc pcs ih =>
    cases k with
    | zero => rfl
    | succ k => exact ih (updateWindows g pc) k

/-! ### What the windows ask for -/

/-- The program counter is inside the first window. -/
def insidePc (g : StepFlags) (pc : UInt32) : Bool :=
  g.errorPcEnabled && inWindow g.errorPcInfo pc

/-- The number of instructions is inside the second window. -/
def insideIcount (g : StepFlags) (icount : ℕ) : Bool :=
  g.errorIcountEnabled &&
    decide (g.errorIcountInfo.1.toInt < icount ∧ (icount : ℤ) < g.errorIcountInfo.2.toInt)

/-- After each instruction the flag is set just when one of the windows, as they were configured,
is met. -/
def FollowsWindows (g : StepFlags) (rounds : List Round) : Prop :=
  ∀ k r, rounds[k]? = some r →
    (r.singlestep = true ↔ insidePc g r.endPc = true ∨ insideIcount g (k + 1) = true)

/-- The instruction number `icount`, which ends at `pc` and comes after instructions that ended at
`before`, gives the code no occasion to go wrong.

* If all instructions so far ended at addresses between the bounds of the second window, the code
  compares this address with them as well.
* If not, but all so far were inside the first window, the code sees the first window only.
* If neither, the code has given up on both windows. -/
def Harmless (g : StepFlags) (before : List UInt32) (pc : UInt32) (icount : ℕ) : Prop :=
  if g.errorIcountEnabled && before.all (inWindow g.errorIcountInfo) then
    inWindow g.errorIcountInfo pc = true ↔ insidePc g pc = true ∨ insideIcount g icount = true
  else if g.errorPcEnabled && before.all (inWindow g.errorPcInfo) then
    insideIcount g icount = true → insidePc g pc = true
  else insidePc g pc = false ∧ insideIcount g icount = false

variable {g : StepFlags}

theorem singlestep_iff_harmless (hall : g.allthruSinglestep = false)
    (hconf : g.errorPcEnabled = true ∨ g.errorIcountEnabled = true) (before : List UInt32)
    (pc : UInt32) (icount : ℕ) :
    (((before ++ [pc]).foldl updateWindows g).singlestep = true ↔
        insidePc g pc = true ∨ insideIcount g icount = true) ↔
      Harmless g before pc icount := by
  rw [singlestep_foldl hall hconf, Harmless]
  split
  · rfl
  rw [all_append, ← Bool.and_assoc]
  split
  · rename_i hpc
    have hinside : insidePc g pc = inWindow g.errorPcInfo pc := by
      rw [insidePc, (Bool.and_eq_true_iff.mp hpc).1, Bool.true_and]
    rw [hpc, hinside]
    simp only [all_cons, all_nil, Bool.and_true, Bool.true_and]
    tauto
  · rename_i hpc
    rw [Bool.eq_false_iff.mpr hpc]
    simp

/-- **When the flag follows the windows**: exactly when every instruction is harmless. -/
theorem follows_windows_iff (hall : g.allthruSinglestep = false)
    (hconf : g.errorPcEnabled = true ∨ g.errorIcountEnabled = true) (calls : List Call) :
    FollowsWindows g (translateCalls g calls).1 ↔
      ∀ k pc, ((translateCalls g calls).1.map Round.endPc)[k]? = some pc →
        Harmless g (((translateCalls g calls).1.map Round.endPc).take k) pc (k + 1) := by
  have hsteps := singlestep_translateCalls g calls
  generalize (translateCalls g calls).1 = rounds at hsteps ⊢
  have hround : ∀ k (r : Round), rounds[k]? = some r →
      r.singlestep =
      (((rounds.map Round.endPc).take k ++ [r.endPc]).foldl updateWindows g).singlestep := by
    intro k r hr
    have := congrArg (fun l : List Bool => l[k]?) hsteps
    rw [getElem?_stepsAfter, getElem?_map, getElem?_map, hr] at this
    exact Option.some.inj this
  constructor
  · intro h k pc hpc
    rw [getElem?_map, Option.map_eq_some_iff] at hpc
    obtain ⟨r, hr, rfl⟩ := hpc
    rw [← singlestep_iff_harmless hall hconf, ← hround k r hr]
    exact h k r hr
  · intro h k r hr
    rw [hround k r hr, singlestep_iff_harmless hall hconf]
    exact h k r.endPc (by rw [getElem?_map, hr]; rfl)

/-- The translation of the block at `pc`. -/
def branchAt (pc : UInt32) : Call :=
  ⟨branchEnv, ⟨pc, 0, 0⟩, false, emptyOpcMap⟩

/-- The flags after parsing a file with one window of program counters. -/
def pcWindow (startPc endPc : Int32) : StepFlags :=
  ⟨true, false, true, (startPc, endPc), false, (0, 0)⟩

/-- **A window that is not noticed.** The first instruction is still before the window, and the
second, which is inside, is translated with the flag off. -/
theorem window_missed_after_first_insn :
    ¬ FollowsWindows (pcWindow 0x100 0x200)
      (translateCalls (pcWindow 0x100 0x200) [branchAt 0, branchAt 0x100]).1 := by
  intro h
  have hsecond := h 1 ⟨0x100, 0, ["BLX_reg"], 0x104, false⟩ (by decide)
  exact absurd (hsecond.mpr (.inl (by decide))) (by decide)

/-- With a window that no instruction is outside of, the flag follows it. -/
theorem window_followed_from_start :
    (pcWindow 2 0x200).allthruSinglestep = false ∧
      FollowsWindows (pcWindow 2 0x200)
        (translateCalls (pcWindow 2 0x200) [branchAt 0, branchAt 0x100]).1 := by
  refine ⟨rfl, (follows_windows_iff rfl (.inl rfl) _).mpr ?_⟩
  have hpcs : (translateCalls (pcWindow 2 0x200) [branchAt 0, branchAt 0x100]).1.map Round.endPc =
      [4, 0x104] := by decide
  rw [hpcs]
  intro k pc hpc
  match k with
  | 0 =>
    cases hpc
    rw [Harmless, if_neg (by decide), if_pos (by decide)]
    decide
  | 1 =>
    cases hpc
    rw [Harmless, if_neg (by decide), if_pos (by decide)]
    decide
  | k + 2 => cases hpc

end VariabilityTestbed.Translate

import Mathlib.Tactic.IntervalCases

/-!
# The state of an ARM CPU

`CPUARMState` keeps the flags apart, in the form that translated code works with, and the rest of
the `CPSR` in `uncached_cpsr`. A CPU of the M profile has an `xPSR` in its place, and two stack
pointers, of which `v7m.other_sp` is the one that is not in use.

Fields that hold fewer bits than their type are fields of so many bits here: `CF`, `QF` and `thumb`
are 0 or 1, `condexec_bits` has the 8 bits of the IT state, `v7m.exception` the 9 bits of the
exception number, and `vfp.vec_len` and `vfp.vec_stride` are fields of the `FPSCR` of 3 and 2 bits.
-/

namespace VariabilityTestbed.Arm

open BitVec

/-- The fields `v7m`. -/
structure V7m where
  otherSp : BitVec 32
  vecbase : BitVec 32
  control : BitVec 32
  /-- Whether `regs[13]` is the process stack. -/
  currentSp : Bool
  exception : BitVec 9
  deriving DecidableEq

/-- The fields of `vfp` that select blocks. -/
structure Vfp where
  vecLen : BitVec 3
  vecStride : BitVec 2
  /-- `xregs[ARM_VFP_FPEXC]`. -/
  fpexc : BitVec 32
  deriving DecidableEq

/-- `CPUARMState`. -/
structure CPUARMState where
  regs : Fin 16 → BitVec 32
  uncachedCpsr : BitVec 32
  CF : Bool
  /-- V is bit 31. -/
  VF : BitVec 32
  /-- N is bit 31. -/
  NF : BitVec 32
  /-- Z is set if it is zero. -/
  ZF : BitVec 32
  QF : Bool
  thumb : Bool
  condexecBits : BitVec 8
  v7m : V7m
  /-- `arm_feature(env, ARM_FEATURE_M)`. -/
  featureM : Bool
  vfp : Vfp

/-! ### The program status registers -/

/-- `CPSR_M`. -/
def CPSR_M : BitVec 32 := 0x1f

/-- `ARM_CPU_MODE_USR`. -/
def ARM_CPU_MODE_USR : BitVec 32 := 0x10

/-- `CPSR_IT_2_7`. -/
def CPSR_IT_2_7 : BitVec 32 := 0xfc00

/-- `CPSR_IT_0_1`. -/
def CPSR_IT_0_1 : BitVec 32 := 3#32 <<< 25

/-- `CPSR_IT`. -/
def CPSR_IT : BitVec 32 := CPSR_IT_0_1 ||| CPSR_IT_2_7

/-- `CPSR_Q`. -/
def CPSR_Q : BitVec 32 := 1#32 <<< 27

/-- `CPSR_Z`. -/
def CPSR_Z : BitVec 32 := 1#32 <<< 30

/-- `CPSR_NZCV`. -/
def CPSR_NZCV : BitVec 32 := 0xf#32 <<< 28

/-- A flag as a word. -/
def word (b : Bool) : BitVec 32 := (BitVec.ofBool b).setWidth 32

/-- `xpsr_read`. -/
def xpsrRead (env : CPUARMState) : BitVec 32 :=
  let condexecBits := env.condexecBits.setWidth 32
  (env.NF &&& 0x80000000) ||| (word (env.ZF == 0) <<< 30) ||| (word env.CF <<< 29) |||
    ((env.VF &&& 0x80000000) >>> 3) ||| (word env.QF <<< 27) ||| (word env.thumb <<< 24) |||
    ((condexecBits &&& 3) <<< 25) ||| ((condexecBits &&& 0xfc) <<< 8) |||
    env.v7m.exception.setWidth 32

/-- `xpsr_write`. -/
def xpsrWrite (env : CPUARMState) (val mask : BitVec 32) : CPUARMState :=
  let env := if mask &&& CPSR_NZCV ≠ 0 then
    { env with
      ZF := ~~~val &&& CPSR_Z, NF := val, CF := val.getLsbD 29, VF := (val <<< 3) &&& 0x80000000 }
    else env
  let env := if mask &&& CPSR_Q ≠ 0 then { env with QF := val &&& CPSR_Q != 0 } else env
  let env := if mask &&& (1#32 <<< 24) ≠ 0 then { env with thumb := val &&& (1#32 <<< 24) != 0 }
    else env
  let env := if mask &&& CPSR_IT_0_1 ≠ 0 then
    { env with condexecBits := (env.condexecBits &&& ~~~3#8) ||| ((val >>> 25) &&& 3).setWidth 8 }
    else env
  let env := if mask &&& CPSR_IT_2_7 ≠ 0 then
    { env with condexecBits := (env.condexecBits &&& 3) ||| ((val >>> 8) &&& 0xfc).setWidth 8 }
    else env
  if mask &&& 0x1ff ≠ 0 then
    { env with v7m := { env.v7m with exception := (val &&& 0x1ff).setWidth 9 } }
  else env

/-- The flags N, Z, C, V and Q. -/
structure Flags where
  n : Bool
  z : Bool
  c : Bool
  v : Bool
  q : Bool
  deriving DecidableEq

def CPUARMState.flags (env : CPUARMState) : Flags :=
  ⟨env.NF.getLsbD 31, env.ZF == 0, env.CF, env.VF.getLsbD 31, env.QF⟩

section

variable (env : CPUARMState)

theorem getLsbD_xpsrRead_flags :
    (⟨(xpsrRead env).getLsbD 31, (xpsrRead env).getLsbD 30, (xpsrRead env).getLsbD 29,
      (xpsrRead env).getLsbD 28, (xpsrRead env).getLsbD 27⟩ : Flags) = env.flags := by
  simp [xpsrRead, word, CPUARMState.flags]

theorem getLsbD_xpsrRead_thumb : (xpsrRead env).getLsbD 24 = env.thumb := by
  simp [xpsrRead, word]

/-- The bit that says that the stack pointer has been aligned is free. -/
theorem getLsbD_xpsrRead_align : (xpsrRead env).getLsbD 9 = false := by
  simp [xpsrRead, word]

theorem getLsbD_xpsrRead_it {i : ℕ} (hi : i < 8) :
    (xpsrRead env).getLsbD (if i < 2 then 25 + i else 8 + i) = env.condexecBits.getLsbD i := by
  interval_cases i <;> simp [xpsrRead, word]

theorem getLsbD_xpsrRead_exception {i : ℕ} (hi : i < 9) :
    (xpsrRead env).getLsbD i = env.v7m.exception.getLsbD i := by
  interval_cases i <;> simp [xpsrRead, word]

end

/-- `xpsr_write` with the mask of an exception return, which leaves out the bit for the
alignment. -/
theorem xpsrWrite_eq (env : CPUARMState) (val : BitVec 32) :
    xpsrWrite env val 0xfffffdff =
      { env with
        ZF := ~~~val &&& CPSR_Z
        NF := val
        CF := val.getLsbD 29
        VF := (val <<< 3) &&& 0x80000000
        QF := val &&& CPSR_Q != 0
        thumb := val &&& (1#32 <<< 24) != 0
        condexecBits :=
  (((env.condexecBits &&& ~~~3#8) ||| ((val >>> 25) &&& 3).setWidth 8) &&& 3) |||
          ((val >>> 8) &&& 0xfc).setWidth 8
        v7m := { env.v7m with exception := (val &&& 0x1ff).setWidth 9 } } := rfl

/-- A word has a bit. -/
theorem and_twoPow_bne_zero (val : BitVec 32) {i : ℕ} (hi : i < 32) :
    (val &&& twoPow 32 i != 0) = val.getLsbD i := by
  rw [and_twoPow]
  cases val.getLsbD i with
  | false => rfl
  | true =>
    have hne : twoPow 32 i ≠ 0 := by
      intro heq
      have := congrArg (BitVec.getLsbD · i) heq
      simp [hi] at this
    simpa using hne

/-- **The flags, the IT and Thumb state and the exception number come back** when a word is written
that has the bits of the xPSR, the bit for the alignment apart. -/
theorem xpsrWrite_of_bits (env env' : CPUARMState) (val : BitVec 32)
    (hval : ∀ i, i ≠ 9 → val.getLsbD i = (xpsrRead env).getLsbD i) :
    (xpsrWrite env' val 0xfffffdff).flags = env.flags ∧
      (xpsrWrite env' val 0xfffffdff).condexecBits = env.condexecBits ∧
      (xpsrWrite env' val 0xfffffdff).thumb = env.thumb ∧
      (xpsrWrite env' val 0xfffffdff).v7m.exception = env.v7m.exception := by
  rw [xpsrWrite_eq]
  refine ⟨?_, ?_, ?_, ?_⟩
  · have hflags :
        (⟨val.getLsbD 31, val.getLsbD 30, val.getLsbD 29, val.getLsbD 28, val.getLsbD 27⟩ : Flags) =
        env.flags := by
      rw [hval 31 (by decide), hval 30 (by decide), hval 29 (by decide), hval 28 (by decide),
        hval 27 (by decide), getLsbD_xpsrRead_flags]
    rw [← hflags, CPUARMState.flags]
    have hz : (~~~val &&& CPSR_Z == 0) = val.getLsbD 30 := by
      have hbne := and_twoPow_bne_zero (~~~val) (show 30 < 32 by decide)
      have hmask : CPSR_Z = twoPow 32 30 := rfl
      rw [bne, Bool.not_eq_eq_eq_not] at hbne
      rw [hmask, hbne]
      simp
    have hq : (val &&& CPSR_Q != 0) = val.getLsbD 27 := and_twoPow_bne_zero val (by decide)
    have hv : ((val <<< 3) &&& 0x80000000).getLsbD 31 = val.getLsbD 28 := by simp
    dsimp only
    rw [hz, hq, hv]
  · ext i hi
    rw [← getLsbD_eq_getElem hi, ← getLsbD_eq_getElem hi, ← getLsbD_xpsrRead_it env hi,
      ← hval _ (by split <;> omega)]
    interval_cases i <;> simp
  · exact (and_twoPow_bne_zero val (by decide)).trans
      ((hval 24 (by decide)).trans (getLsbD_xpsrRead_thumb env))
  · ext i hi
    rw [← getLsbD_eq_getElem hi, ← getLsbD_eq_getElem hi, ← getLsbD_xpsrRead_exception env hi]
    rw [← hval i (by omega)]
    interval_cases i <;> simp

/-! ### The state that a block depends on -/

/-- `ARM_TBFLAG_PRIV_MASK`. -/
def ARM_TBFLAG_PRIV_MASK : BitVec 32 := 1#32 <<< 6

/-- `ARM_TBFLAG_VFPEN_MASK`. -/
def ARM_TBFLAG_VFPEN_MASK : BitVec 32 := 1#32 <<< 7

/-- `ARM_TBFLAG_PRIV`. -/
def ARM_TBFLAG_PRIV (flags : BitVec 32) : BitVec 32 := (flags &&& ARM_TBFLAG_PRIV_MASK) >>> 6

/-- The privilege that code is translated for. -/
def tbPrivmode (env : CPUARMState) : Bool :=
  if env.featureM then !(env.v7m.exception == 0 && env.v7m.control &&& 1 != 0)
  else env.uncachedCpsr &&& CPSR_M != ARM_CPU_MODE_USR

/-- What a block is looked up with. -/
structure TbCpuState where
  pc : BitVec 32
  csBase : BitVec 32
  flags : BitVec 32

/-- The flags before the privilege and the `VFPEN` bit are put in. -/
def modeFlags (env : CPUARMState) : BitVec 32 :=
  (word env.thumb <<< 0) ||| (env.vfp.vecLen.setWidth 32 <<< 1) |||
    (env.vfp.vecStride.setWidth 32 <<< 4) |||
    (env.condexecBits.setWidth 32 <<< 8)

/-- `cpu_get_tb_cpu_state`. -/
def cpuGetTbCpuState (env : CPUARMState) : TbCpuState :=
  let flags := modeFlags env
  let flags := if tbPrivmode env then flags ||| ARM_TBFLAG_PRIV_MASK else flags
  let flags := if env.vfp.fpexc &&& (1#32 <<< 30) ≠ 0 then flags ||| ARM_TBFLAG_VFPEN_MASK
    else flags
  ⟨env.regs 15, 0, flags⟩

theorem modeFlags_getElem_six (env : CPUARMState) : (modeFlags env)[6] = false := by
  simp [modeFlags, word]

/-- The field is the bit. -/
theorem ARM_TBFLAG_PRIV_eq_zero_iff (flags : BitVec 32) :
    ARM_TBFLAG_PRIV flags = 0 ↔ flags[6] = false := by
  have hmask : ARM_TBFLAG_PRIV_MASK = twoPow 32 6 := rfl
  rw [ARM_TBFLAG_PRIV, hmask, and_twoPow, getLsbD_eq_getElem (by decide)]
  cases flags[6] with
  | false => exact iff_of_true rfl rfl
  | true => exact iff_of_false (by decide) nofun

/-- **The field `ARM_TBFLAG_PRIV`** of what a block is looked up with. -/
theorem tbflagPriv_cpuGetTbCpuState (env : CPUARMState) :
    ARM_TBFLAG_PRIV (cpuGetTbCpuState env).flags = 0 ↔ tbPrivmode env = false := by
  rw [ARM_TBFLAG_PRIV_eq_zero_iff, cpuGetTbCpuState]
  cases hpriv : tbPrivmode env <;> split <;>
    simp [modeFlags_getElem_six, ARM_TBFLAG_PRIV_MASK, ARM_TBFLAG_VFPEN_MASK]

end VariabilityTestbed.Arm

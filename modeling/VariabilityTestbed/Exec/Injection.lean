import VariabilityTestbed.Arm.Cpu
import VariabilityTestbed.Exec.TbRange

/-!
# Where errors are injected

When every block has one instruction, `cpu_exec` calls `error_model` before it starts a block,
unless the CPU runs privileged code. It has a test of its own for that; the block was looked up with
the result of the test in `cpu_get_tb_cpu_state`.
-/

namespace VariabilityTestbed.Exec

open Arm Translate Option

/-- `privmode` in `cpu_exec`. -/
def execPrivmode (env : CPUARMState) : Bool :=
  if env.featureM then !(env.v7m.exception != 0 && env.v7m.control &&& 1 != 0)
  else env.uncachedCpsr &&& CPSR_M != ARM_CPU_MODE_USR

/-- Whether `error_model` is called for a block. -/
def callsErrorModel (singlestep : ℤ) (errorsActivated : Bool) (env : CPUARMState) : Bool :=
  singlestep == 1 && (!execPrivmode env && errorsActivated)

/-- An iteration of the inner loop up to the call: the table, the block that was found, and whether
`error_model` is called. There is no block after an exception in the lookup. -/
def execIteration (z : CacheSize) (map : CodeMap) (s : TbTable) (cpu : ℕ) (env : CPUARMState)
    (translation : (pc : UInt32) → Option (Translation pc)) (singlestep : ℤ)
    (errorsActivated : Bool) :
    Option (TbTable × Option (ℕ × Bool)) :=
  let state := cpuGetTbCpuState env
  let pc := UInt32.ofBitVec state.pc
  (s.tbFindFast z map cpu pc (.ofBitVec state.csBase) (.ofBitVec (state.flags.setWidth 64))
    (translation pc)).map fun (s, r) => (s, r.map fun tb =>
    (tb, callsErrorModel singlestep errorsActivated env))

/-- The field `ARM_TBFLAG_PRIV` of a block. -/
def tbPriv (s : TbTable) (tb : ℕ) : BitVec 32 :=
  ARM_TBFLAG_PRIV ((s.tbs tb).flags.toBitVec.setWidth 32)

/-! ### The two tests -/

/-- The tests agree unless thread mode of the M profile may be unprivileged. Then they are
opposite. -/
theorem execPrivmode_eq (env : CPUARMState) :
    execPrivmode env =
      (tbPrivmode env ^^ (env.featureM && env.v7m.control &&& 1 != 0)) := by
  simp only [execPrivmode, tbPrivmode, bne]
  cases env.featureM with
  | false =>
    rw [if_neg Bool.false_ne_true, if_neg Bool.false_ne_true]
    cases env.uncachedCpsr &&& CPSR_M == ARM_CPU_MODE_USR <;> rfl
  | true => cases env.v7m.exception == 0 <;> cases env.v7m.control &&& 1 == 0 <;> rfl

/-- The block that `tb_find_fast` returns has the flags that it was looked up with. -/
theorem TbTable.AllIndexed.flags_of_tbFindFast {s s' : TbTable} (hs : s.AllIndexed) {z : CacheSize}
    {map : CodeMap} {cpu : ℕ} {pc csBase : UInt32} {flags : UInt64}
    {translation : Option (Translation pc)} {tb : ℕ}
    (h : s.tbFindFast z map cpu pc csBase flags translation = some (s', some tb)) :
    (s'.tbs tb).flags = flags := by
  obtain ⟨hashLists, pageLists, hs⟩ := hs
  rw [TbTable.tbFindFast] at h
  split at h
  · exact ((hs.tbFindSlow h).2 tb rfl).flags_eq
  · dsimp only at h
    split at h
    · exact ((hs.tbFindSlow h).2 tb rfl).flags_eq
    next hcached =>
      obtain ⟨rfl, heq⟩ := Prod.mk.injEq .. ▸ some.inj h
      cases heq
      by_contra hne
      exact hcached (.inr (.inr hne))

/-- The privilege that a block was looked up with. -/
theorem tbPriv_execIteration {s s' : TbTable} (hs : s.AllIndexed) {z : CacheSize}
    {map : CodeMap} {cpu : ℕ}
    {env : CPUARMState} {translation : (pc : UInt32) → Option (Translation pc)} {singlestep : ℤ}
    {errorsActivated : Bool} {tb : ℕ} {called : Bool}
    (h : execIteration z map s cpu env translation singlestep errorsActivated =
      some (s', some (tb, called))) :
    (tbPriv s' tb = 0 ↔ tbPrivmode env = false) ∧
    called = callsErrorModel singlestep errorsActivated env := by
  obtain ⟨⟨s₁, r⟩, hfind, heq⟩ := map_eq_some_iff.mp h
  obtain ⟨rfl, hr⟩ := Prod.mk.injEq .. ▸ heq
  obtain ⟨t, rfl, ht⟩ := map_eq_some_iff.mp hr
  cases ht
  refine ⟨?_, rfl⟩
  rw [← tbflagPriv_cpuGetTbCpuState, tbPriv, hs.flags_of_tbFindFast hfind]
  simp

/-- **Errors are injected into unprivileged blocks**, and into those only, in exactly these
iterations: not while errors are injected into a CPU of the M profile whose thread mode is
unprivileged. -/
theorem errors_injected_iff {z : CacheSize} {tbs : ℕ → TbFields} {hashNext : ℕ → Option ℕ}
    {pageNext : PageNode → Option PageNode} {jumps : JmpState} {ops : List TbOp} {s s' : TbTable}
    (hs : Runs.run (tbStep z) (initTbTable tbs hashNext pageNext jumps) ops = some s)
    {map : CodeMap}
    {cpu : ℕ} {env : CPUARMState} {translation : (pc : UInt32) → Option (Translation pc)}
    {singlestep : ℤ} {errorsActivated : Bool} {tb : ℕ} {called : Bool}
    (h : execIteration z map s cpu env translation singlestep errorsActivated =
      some (s', some (tb, called))) :
    ((called = true → tbPriv s' tb = 0) ∧
        (errorsActivated = true → singlestep = 1 → tbPriv s' tb = 0 → called = true)) ↔
      ¬ (singlestep = 1 ∧ errorsActivated = true ∧ env.featureM = true ∧
        env.v7m.control &&& 1 ≠ 0) := by
  obtain ⟨hpriv, rfl⟩ := tbPriv_execIteration (allIndexed_of_run hs) h
  rw [hpriv, callsErrorModel, execPrivmode_eq]
  by_cases hstep : singlestep = 1
  · cases errorsActivated <;> cases hm : env.featureM <;>
      cases hcontrol : env.v7m.control &&& 1 != 0 <;> cases tbPrivmode env <;> simp_all
  · simp [hstep]

/-- A CPU of the M profile whose thread mode is unprivileged. -/
def unprivilegedCpu (exception : BitVec 9) : CPUARMState where
  regs _ := 0
  uncachedCpsr := 0
  CF := false
  VF := 0
  NF := 0
  ZF := 0
  QF := false
  thumb := true
  condexecBits := 0
  v7m := ⟨0, 0, 1, false, exception⟩
  featureM := true
  vfp := ⟨0, 0, 0⟩

/-- A handler is privileged, and errors are injected; thread mode is not, and none are. -/
theorem errors_injected_into_handler :
    (ARM_TBFLAG_PRIV (cpuGetTbCpuState (unprivilegedCpu 16)).flags ≠ 0 ∧
        callsErrorModel 1 true (unprivilegedCpu 16) = true) ∧
      ARM_TBFLAG_PRIV (cpuGetTbCpuState (unprivilegedCpu 0)).flags = 0 ∧
        callsErrorModel 1 true (unprivilegedCpu 0) = false := by
  decide

/-- A block with one instruction of 4 bytes. -/
def oneInsn (pc : UInt32) : Translation pc where
  size := 4
  codeGenSize := 16
  hasJump _ := false
  size_le := Nat.succ_le_succ
    (Nat.add_le_add_right (Nat.le_of_lt_succ (Nat.mod_lt _ (Nat.two_pow_pos 10))) 3)
  size_pos _ := Nat.succ_pos 3

/-- Errors are injected into the first block of user mode. -/
theorem errors_injected_into_user_mode :
    ∃ s s' tb, runSmall [] = some s ∧
      execIteration ⟨1, 64, 128⟩ some s 0
        { unprivilegedCpu 0 with featureM := false, uncachedCpsr := 0x10 }
        (fun pc => some (oneInsn pc)) 1 true = some (s', some (tb, true)) ∧ tbPriv s' tb = 0 := by
  have hsome : ((runSmall []).bind fun s => execIteration ⟨1, 64, 128⟩ some s 0
      { unprivilegedCpu 0 with featureM := false, uncachedCpsr := 0x10 }
      (fun pc => some (oneInsn pc)) 1 true).map
        (·.2) = some (some (0, true)) := by
    decide +kernel
  obtain ⟨⟨s', r⟩, hbind, rfl⟩ := map_eq_some_iff.mp hsome
  obtain ⟨s, hs, hiter⟩ := bind_eq_some_iff.mp hbind
  refine ⟨s, s', 0, hs, hiter, ?_⟩
  exact ((errors_injected_iff hs hiter).mpr fun h => nomatch h.2.2.1).1 rfl

end VariabilityTestbed.Exec

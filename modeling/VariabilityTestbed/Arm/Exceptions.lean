import VariabilityTestbed.Arm.Cpu
import VariabilityTestbed.Irq.ActiveStack
import VariabilityTestbed.Lib.WordMemory

/-!
# Exceptions of the M profile

A CPU of the M profile takes an interrupt by pushing eight registers on the stack in use and going
on with the handler on the main stack. The handler has in `LR` a value that says how to return, and
returns by a jump to it. Neither the stack pointer's alignment nor the stack that was in use needs a
place of its own: the one is in a bit of the stacked xPSR that has no other use, the other in `LR`.

`Body` is what a handler does: instructions of its own, and further interrupts, each with its
handler and its return. So transparency for nested interrupts is an induction on `Body`. It needs
that the NVIC always finds the interrupt that it is told to complete, so no interrupt may be taken
that is active already.
-/

namespace VariabilityTestbed.Arm

open Function Irq WordMemory List Option

local instance neZero_sixteen : NeZero 16 := inferInstance

/-! ### The code -/

/-- The CPU, its memory, and the NVIC. The stacks are in RAM. -/
structure Machine where
  cpu : CPUARMState
  mem : Memory
  gic : Gic nvic.ncpu

namespace Machine

/-- `env->regs[i] = val`. -/
def setReg (s : Machine) (i : Fin 16) (val : BitVec 32) : Machine :=
  { s with cpu := { s.cpu with regs := update s.cpu.regs i val } }

/-- `v7m_push`. -/
def v7mPush (s : Machine) (val : BitVec 32) : Machine :=
  let s := s.setReg 13 (s.cpu.regs 13 - 4)
  { s with mem := store s.mem (s.cpu.regs 13) val }

/-- `v7m_pop`. -/
def v7mPop (s : Machine) : BitVec 32 × Machine :=
  (load s.mem (s.cpu.regs 13), s.setReg 13 (s.cpu.regs 13 + 4))

/-- `env->regs[i] = v7m_pop(env)`. -/
def popReg (s : Machine) (i : Fin 16) : Machine := (s.v7mPop.2).setReg i s.v7mPop.1

/-- `switch_v7m_sp`. -/
def switchV7mSp (s : Machine) (process : Bool) : Machine :=
  if s.cpu.v7m.currentSp ≠ process then
    { s with cpu := { s.cpu with
      regs := update s.cpu.regs 13 s.cpu.v7m.otherSp
      v7m := { s.cpu.v7m with otherSp := s.cpu.regs 13, currentSp := process } } }
  else s

/-- The registers in a frame, as they are popped. -/
def frameRegs : List (Fin 16) := [0, 1, 2, 3, 12, 14, 15]

/-- `do_v7m_exception_exit` from where it pops registers. -/
def popFrame (s : Machine) : Machine :=
  let s := frameRegs.foldl popReg s
  let (xpsr, s) := s.v7mPop
  let s := { s with cpu := xpsrWrite s.cpu xpsr 0xfffffdff }
  -- undo stack alignment
  if xpsr &&& 0x200 ≠ 0 then s.setReg 13 (s.cpu.regs 13 ||| 4) else s

/-- `do_v7m_exception_exit`. -/
def doV7mExceptionExit (s : Machine) : Option Machine :=
  let type := s.cpu.regs 15
  let gic :=
    if s.cpu.v7m.exception ≠ 0 then armv7mNvicCompleteIrq s.gic s.cpu.v7m.exception.toNat
    else some s.gic
  gic.map fun gic => (({ s with gic := gic } : Machine).switchV7mSp (type &&& 4 != 0)).popFrame

/-- The value for `LR` that says how to return. -/
def excReturn (cpu : CPUARMState) : BitVec 32 :=
  let lr := 0xfffffff1#32
  let lr := if cpu.v7m.currentSp then lr ||| 4 else lr
  if cpu.v7m.exception = 0 then lr ||| 8 else lr

/-- The stack pointer is aligned before the frame is pushed. -/
def alignSp (sp : BitVec 32) : BitVec 32 := if sp &&& 4 ≠ 0 then sp - 4 else sp

/-- The xPSR that is pushed says whether that changed the stack pointer. -/
def stackedXpsr (sp xpsr : BitVec 32) : BitVec 32 := if sp &&& 4 ≠ 0 then xpsr ||| 0x200 else xpsr

/-- The eight pushes of `do_interrupt_v7m`. -/
def pushFrame (s : Machine) (xpsr : BitVec 32) : Machine :=
  let r := s.cpu.regs
  [xpsr, r 15, r 14, r 12, r 3, r 2, r 1, r 0].foldl v7mPush s

/-- `do_interrupt_v7m` for `EXCP_IRQ`, after the NVIC. -/
def enter (s : Machine) (xpsr lr : BitVec 32) : Machine :=
  let xpsr := stackedXpsr (s.cpu.regs 13) xpsr
  let s := s.setReg 13 (alignSp (s.cpu.regs 13))
  let s := s.pushFrame xpsr
  let s := s.switchV7mSp false
  let s := { s with cpu := { s.cpu with uncachedCpsr := s.cpu.uncachedCpsr &&& ~~~CPSR_IT } }
  let s := s.setReg 14 lr
  let addr := load s.mem (s.cpu.v7m.vecbase + s.cpu.v7m.exception.setWidth 32 * 4)
  let s := s.setReg 15 (addr &&& 0xfffffffe)
  { s with cpu := { s.cpu with thumb := addr.getLsbD 0 } }

/-- `ARMV7M_EXCP_SVC`. -/
def excpSvc : ℕ := 11

/-- `ARMV7M_EXCP_DEBUG`. -/
def excpDebug : ℕ := 12

/-- `env->exception_index`. With semihosting, `bkpt 0xab` is a call, and `semihosting` is what it
returns. -/
inductive Excp where
  | udef
  | swi
  | prefetchAbort
  | dataAbort
  | bkpt (semihosting : Option (BitVec 32))
  | irq
  | exceptionExit

/-- `armv7m_nvic_set_pending(env->nvic, irq)`. -/
def setPending (s : Machine) (irq : ℕ) : Option Machine :=
  (armv7mNvicSetPending s.gic irq).map fun gic => { s with gic := gic }

/-- `do_interrupt_v7m`. -/
def doInterruptV7m (s : Machine) : Excp → Option Machine
  | .udef => s.setPending excpUsage
  | .swi => (s.setReg 15 (s.cpu.regs 15 + 2)).setPending excpSvc
  | .prefetchAbort | .dataAbort => s.setPending excpMem
  | .bkpt none => s.setPending excpDebug
  | .bkpt (some r) => some ((s.setReg 15 (s.cpu.regs 15 + 2)).setReg 0 r)
  | .irq =>
    (armv7mNvicAcknowledgeIrq s.gic).map fun (gic, irq) =>
      let cpu := { s.cpu with v7m := { s.cpu.v7m with exception := BitVec.ofNat 9 irq } }
      enter { s with cpu := cpu, gic := gic } (xpsrRead s.cpu) (excReturn s.cpu)
  | .exceptionExit => s.doV7mExceptionExit

/-! ### The frame -/

/-- Pushes move the stack pointer and write memory. -/
theorem foldl_v7mPush_eq (ws : List (BitVec 32)) (s : Machine) :
    ∃ mem, ws.foldl v7mPush s =
      { s.setReg 13 (s.cpu.regs 13 - 4 * BitVec.ofNat 32 ws.length) with mem := mem } := by
  induction ws generalizing s with
  | nil => exact ⟨s.mem, by simp [setReg]⟩
  | cons w ws ih =>
    obtain ⟨mem, hmem⟩ := ih (s.v7mPush w)
    refine ⟨mem, ?_⟩
    have hsp : s.cpu.regs 13 - 4 - 4 * BitVec.ofNat 32 ws.length =
        s.cpu.regs 13 - 4 * BitVec.ofNat 32 (ws.length + 1) := by
      rw [BitVec.ofNat_add]
      bv_omega
    rw [foldl_cons, hmem]
    simp only [setReg, v7mPush, update_self, update_idem, hsp, length_cons]

/-- What has been pushed is on the stack, the last word first. -/
theorem words_foldl_v7mPush (ws : List (BitVec 32)) (s : Machine) {n : ℕ}
    (hlen : 4 * (ws.length + n) ≤ 2 ^ 32) :
    words (ws.foldl v7mPush s).mem ((ws.foldl v7mPush s).cpu.regs 13) (ws.length + n) =
      ws.reverse ++ words s.mem (s.cpu.regs 13) n := by
  induction ws generalizing s n with
  | nil => simp
  | cons w ws ih =>
    rw [length_cons] at hlen ⊢
    have hpush : words (s.v7mPush w).mem ((s.v7mPush w).cpu.regs 13) (n + 1) =
        w :: words s.mem (s.cpu.regs 13) n := by
      have hsp : (s.v7mPush w).cpu.regs 13 = s.cpu.regs 13 - 4 := by simp [v7mPush, setReg]
      have hmem : (s.v7mPush w).mem = store s.mem (s.cpu.regs 13 - 4) w := by simp [v7mPush, setReg]
      rw [hsp, hmem, words_push _ _ _ (by omega)]
    rw [foldl_cons, show ws.length + 1 + n = ws.length + (n + 1) by omega, ih _ (by omega), hpush]
    simp

/-- The frame, from the stack pointer on. -/
theorem pushFrame_eq (s : Machine) (xpsr : BitVec 32) :
    ∃ mem, s.pushFrame xpsr = { s.setReg 13 (s.cpu.regs 13 - 32) with mem := mem } ∧
      words mem (s.cpu.regs 13 - 32) 8 = frameRegs.map s.cpu.regs ++ [xpsr] := by
  have hwords :=
    words_foldl_v7mPush [xpsr, s.cpu.regs 15, s.cpu.regs 14, s.cpu.regs 12, s.cpu.regs 3,
    s.cpu.regs 2, s.cpu.regs 1, s.cpu.regs 0] s (n := 0) (Nat.le_of_ble_eq_true rfl)
  obtain ⟨mem, hmem⟩ :=
    foldl_v7mPush_eq [xpsr, s.cpu.regs 15, s.cpu.regs 14, s.cpu.regs 12, s.cpu.regs 3,
    s.cpu.regs 2, s.cpu.regs 1, s.cpu.regs 0] s
  refine ⟨mem, hmem, ?_⟩
  rw [hmem] at hwords
  simpa [setReg, words, frameRegs] using hwords

theorem sub_four_or_four {sp : BitVec 32} (h : sp &&& 4 ≠ 0) : (sp - 4) ||| 4 = sp := by
  have hbit : sp.getLsbD 2 = true := by
    rw [← and_twoPow_bne_zero sp (by decide)]
    exact bne_iff_ne.mpr h
  have hor : (sp &&& ~~~4#32) ||| 4 = sp := by
    show (sp &&& ~~~BitVec.twoPow 32 2) ||| BitVec.twoPow 32 2 = sp
    ext i hi
    rcases eq_or_ne i 2 with rfl | hne
    · simpa using hbit
    · simp [hne]
  have hadd : (sp &&& ~~~4#32) + 4 = sp := by
    rw [BitVec.add_eq_or_of_and_eq_zero _ _ (by rw [BitVec.and_assoc]; simp), hor]
  have hsub : sp - 4 = sp &&& ~~~4#32 := by
    nth_rewrite 1 [← hadd]
    exact BitVec.add_sub_cancel _ _
  rw [hsub, hor]

variable {xpsr : BitVec 32}

/-- The bit of the stacked xPSR makes up for the alignment. -/
theorem undo_alignSp (sp : BitVec 32) (hfree : xpsr.getLsbD 9 = false) :
    (if stackedXpsr sp xpsr &&& 0x200 ≠ 0 then alignSp sp ||| 4 else alignSp sp) = sp := by
  have hzero : xpsr &&& 0x200 = 0 := by
    have := and_twoPow_bne_zero xpsr (show 9 < 32 by decide)
    rw [hfree] at this
    exact bne_eq_false_iff_eq.mp this
  rw [stackedXpsr, alignSp]
  by_cases h : sp &&& 4 ≠ 0
  · have hset : (xpsr ||| 0x200) &&& 0x200 ≠ 0 := by
      rw [BitVec.and_or_distrib_right, hzero]
      decide
    rw [if_pos h, if_pos h, if_pos hset, sub_four_or_four h]
  · rw [if_neg h, if_neg h, if_neg (not_not.mpr hzero)]

/-- Where a handler finds the frame. -/
def framePtr (s : Machine) : BitVec 32 :=
  if s.cpu.regs 14 &&& 4 != 0 then s.cpu.v7m.otherSp else s.cpu.regs 13

/-- How a handler starts. -/
structure Entered (s : Machine) (xpsr lr : BitVec 32) (s₁ : Machine) : Prop where
  frame : words s₁.mem (alignSp (s.cpu.regs 13) - 32) 8 =
    frameRegs.map s.cpu.regs ++ [stackedXpsr (s.cpu.regs 13) xpsr]
  saved : ∀ i : Fin 16, 4 ≤ i → i ≤ 11 → s₁.cpu.regs i = s.cpu.regs i
  sp : s₁.cpu.regs 13 = if s.cpu.v7m.currentSp then s.cpu.v7m.otherSp
    else alignSp (s.cpu.regs 13) - 32
  lr : s₁.cpu.regs 14 = lr
  v7m : s₁.cpu.v7m = { s.cpu.v7m with
    otherSp := if s.cpu.v7m.currentSp then alignSp (s.cpu.regs 13) - 32 else s.cpu.v7m.otherSp
    currentSp := false }
  condexecBits : s₁.cpu.condexecBits = s.cpu.condexecBits
  gic : s₁.gic = s.gic

theorem map_frameRegs_update (regs : Fin 16 → BitVec 32) (sp : BitVec 32) :
    frameRegs.map (update regs 13 sp) = frameRegs.map regs := by
  simp [frameRegs]

theorem entered_enter (s : Machine) (xpsr lr : BitVec 32) :
    Entered s xpsr lr (enter s xpsr lr) := by
  obtain ⟨mem, hmem, hwords⟩ :=
    pushFrame_eq (s.setReg 13 (alignSp (s.cpu.regs 13))) (stackedXpsr (s.cpu.regs 13) xpsr)
  rw [enter]
  dsimp only
  rw [hmem]
  simp only [setReg, update_self, update_idem, map_frameRegs_update] at hwords ⊢
  have hne : ∀ i : Fin 16, i ≤ 11 → i ≠ 13 ∧ i ≠ 14 ∧ i ≠ 15 := by decide
  cases hsp : s.cpu.v7m.currentSp with
  | false =>
    simp only [switchV7mSp, hsp, ne_eq, not_true_eq_false, if_false]
    refine ⟨hwords, fun i _ hi => ?_, by simp [hsp], by simp, ?_, rfl, rfl⟩
    · obtain ⟨h13, h14, h15⟩ := hne i hi
      simp [h13, h14, h15]
    · show s.cpu.v7m = _
      rw [hsp, if_neg Bool.false_ne_true, ← hsp]
  | true =>
    simp only [switchV7mSp, hsp, ne_eq, reduceCtorEq, not_false_eq_true, if_true, update_self]
    refine ⟨by simpa using hwords, fun i _ hi => ?_, by simp [hsp], by simp,
      by simp [hsp], rfl, rfl⟩
    obtain ⟨h13, h14, h15⟩ := hne i hi
    simp [h13, h14, h15]

/-- What the interrupted code finds when it goes on. -/
structure Restored (s s' : Machine) : Prop where
  regs : s'.cpu.regs = s.cpu.regs
  otherSp : s'.cpu.v7m.otherSp = s.cpu.v7m.otherSp
  currentSp : s'.cpu.v7m.currentSp = s.cpu.v7m.currentSp
  flags : s'.cpu.flags = s.cpu.flags
  condexecBits : s'.cpu.condexecBits = s.cpu.condexecBits
  thumb : s'.cpu.thumb = s.cpu.thumb
  exception : s'.cpu.v7m.exception = s.cpu.v7m.exception

/-- What a handler has to leave as it found it, and how it returns. -/
structure Leaves (s₁ s₂ : Machine) : Prop where
  frame : words s₂.mem s₁.framePtr 8 = words s₁.mem s₁.framePtr 8
  saved : ∀ i : Fin 16, 4 ≤ i → i ≤ 11 → s₂.cpu.regs i = s₁.cpu.regs i
  sp : s₂.cpu.regs 13 = s₁.cpu.regs 13
  otherSp : s₂.cpu.v7m.otherSp = s₁.cpu.v7m.otherSp
  currentSp : s₂.cpu.v7m.currentSp = s₁.cpu.v7m.currentSp
  pc : s₂.cpu.regs 15 = s₁.cpu.regs 14 &&& 0xfffffffe

/-- The registers after those of a list have been popped, with the values `r`. -/
def poppedRegs (rs : List (Fin 16)) (r regs : Fin 16 → BitVec 32) (i : Fin 16) : BitVec 32 :=
  if i ∈ rs then r i else if i = 13 then regs 13 + 4 * BitVec.ofNat 32 rs.length else regs i

variable {s : Machine}

/-- Registers are popped one after the other. -/
theorem foldl_popReg {rs : List (Fin 16)} {r : Fin 16 → BitVec 32} (h13 : 13 ∉ rs)
    (hwords : words s.mem (s.cpu.regs 13) rs.length = rs.map r) :
    rs.foldl popReg s = { s with cpu := { s.cpu with regs := poppedRegs rs r s.cpu.regs } } := by
  induction rs generalizing s with
  | nil =>
    have hregs : poppedRegs [] r s.cpu.regs = s.cpu.regs := by
      funext i
      simp +contextual [poppedRegs]
    rw [hregs]
    rfl
  | cons j rs ih =>
    rw [mem_cons, not_or] at h13
    obtain ⟨hne, h13⟩ := h13
    obtain ⟨hj, hwords⟩ := List.cons.inj hwords
    have hpop : (s.popReg j).cpu.regs = update (update s.cpu.regs 13 (s.cpu.regs 13 + 4)) j
        (r j) := by
      rw [← hj]
      rfl
    have hsp : (s.popReg j).cpu.regs 13 = s.cpu.regs 13 + 4 := by
      rw [hpop, update_of_ne hne, update_self]
    have hadd : s.cpu.regs 13 + 4 + 4 * BitVec.ofNat 32 rs.length =
        s.cpu.regs 13 + 4 * BitVec.ofNat 32 (rs.length + 1) := by
      rw [BitVec.ofNat_add]
      bv_omega
    have hregs : poppedRegs rs r (s.popReg j).cpu.regs = poppedRegs (j :: rs) r s.cpu.regs := by
      funext i
      simp only [poppedRegs, mem_cons, length_cons, hsp, hadd]
      rcases eq_or_ne i j with rfl | hij
      · simp [hpop, Ne.symm hne]
      · rcases eq_or_ne i 13 with rfl | h13'
        · simp [hij]
        · simp [hpop, hij, h13']
    rw [foldl_cons, ih h13 (hsp ▸ hwords), hregs]
    rfl

/-- `LR` says which stack was in use. -/
theorem excReturn_and_four (cpu : CPUARMState) :
    (excReturn cpu &&& 4 != 0) = cpu.v7m.currentSp ∧
      (excReturn cpu &&& 0xfffffffe &&& 4 != 0) = cpu.v7m.currentSp := by
  cases hsp : cpu.v7m.currentSp <;>
    simp only [excReturn, hsp, Bool.false_eq_true, if_true, if_false] <;> split_ifs <;> decide

variable {s₁ : Machine}

theorem Entered.framePtr_eq {lr : BitVec 32} (h : Entered s xpsr lr s₁)
    (hlr : (lr &&& 4 != 0) = s.cpu.v7m.currentSp) : s₁.framePtr = alignSp (s.cpu.regs 13) - 32 := by
  rw [framePtr, h.lr, hlr, h.v7m, h.sp]
  cases s.cpu.v7m.currentSp <;> rfl

/-- The stack of the interrupted code is in use again, with the frame on it. -/
structure OnFrame (s : Machine) (xpsr : BitVec 32) (t : Machine) : Prop where
  frame : words t.mem (t.cpu.regs 13) 8 =
    frameRegs.map s.cpu.regs ++ [stackedXpsr (s.cpu.regs 13) xpsr]
  sp : t.cpu.regs 13 = alignSp (s.cpu.regs 13) - 32
  saved : ∀ i : Fin 16, 4 ≤ i → i ≤ 11 → t.cpu.regs i = s.cpu.regs i
  otherSp : t.cpu.v7m.otherSp = s.cpu.v7m.otherSp
  currentSp : t.cpu.v7m.currentSp = s.cpu.v7m.currentSp

/-- `switch_v7m_sp` of an exception return. -/
theorem Leaves.onFrame {s₂ : Machine} {lr : BitVec 32} (hleaves : Leaves s₁ s₂)
    (hentered : Entered s xpsr lr s₁) (hlr : (lr &&& 4 != 0) = s.cpu.v7m.currentSp) :
    OnFrame s xpsr (s₂.switchV7mSp s.cpu.v7m.currentSp) := by
  have hframe : words s₂.mem (alignSp (s.cpu.regs 13) - 32) 8 =
      frameRegs.map s.cpu.regs ++ [stackedXpsr (s.cpu.regs 13) xpsr] := by
    rw [← hentered.frame, ← hentered.framePtr_eq hlr, hleaves.frame]
  have hsaved : ∀ i : Fin 16, 4 ≤ i → i ≤ 11 → s₂.cpu.regs i = s.cpu.regs i := fun i hi hi' =>
    (hleaves.saved i hi hi').trans (hentered.saved i hi hi')
  have h13 := hleaves.sp.trans hentered.sp
  have hother := hleaves.otherSp.trans (congrArg V7m.otherSp hentered.v7m)
  have hcurrent : s₂.cpu.v7m.currentSp = false :=
    hleaves.currentSp.trans (congrArg V7m.currentSp hentered.v7m)
  cases hs : s.cpu.v7m.currentSp with
  | false =>
    rw [hs, if_neg Bool.false_ne_true] at h13
    dsimp only at hother
    rw [hs, if_neg Bool.false_ne_true] at hother
    rw [switchV7mSp, hcurrent, if_neg (not_not.mpr rfl)]
    exact ⟨h13 ▸ hframe, h13, hsaved, hother, hcurrent.trans hs.symm⟩
  | true =>
    rw [hs, if_pos rfl] at h13
    dsimp only at hother
    rw [hs, if_pos rfl] at hother
    rw [switchV7mSp, hcurrent, if_pos Bool.false_ne_true]
    refine ⟨?_, ?_, fun i hi hi' => ?_, h13, hs.symm⟩
    · dsimp only
      rw [update_self, hother]
      exact hframe
    · dsimp only
      rw [update_self, hother]
    · exact (update_of_ne (by omega) ..).trans (hsaved i hi hi')

theorem poppedRegs_frameRegs {r regs : Fin 16 → BitVec 32}
    (hsaved : ∀ i : Fin 16, 4 ≤ i → i ≤ 11 → regs i = r i) :
    poppedRegs frameRegs r regs = update r 13 (regs 13 + 28) := by
  have hcases : ∀ i : Fin 16, i ≠ 13 ∧ i ∈ frameRegs ∨ i = 13 ∨ i ≠ 13 ∧ i ∉ frameRegs ∧
      4 ≤ i ∧ i ≤ 11 := by
    decide
  funext i
  rw [poppedRegs]
  rcases hcases i with ⟨hne, hmem⟩ | rfl | ⟨hne, hmem, hi, hi'⟩
  · rw [if_pos hmem, update_of_ne hne]
  · rw [if_neg (by decide), if_pos rfl, update_self]
    rfl
  · rw [if_neg hmem, if_neg hne, update_of_ne hne, hsaved i hi hi']

/-- **The frame is popped.** -/
theorem OnFrame.popFrame_eq {t : Machine} (h : OnFrame s xpsr t) (hfree : xpsr.getLsbD 9 = false) :
    t.popFrame = { t with cpu :=
      { xpsrWrite t.cpu (stackedXpsr (s.cpu.regs 13) xpsr) 0xfffffdff with
        regs := s.cpu.regs } } := by
  obtain ⟨hwords, hload⟩ :=
    append_inj ((words_add t.mem _ 7 1).symm.trans h.frame) (by simp [frameRegs])
  have hxpsr : load t.mem (t.cpu.regs 13 + 28) = stackedXpsr (s.cpu.regs 13) xpsr :=
    head_eq_of_cons_eq hload
  have hsp : t.cpu.regs 13 + 28 + 4 = alignSp (s.cpu.regs 13) := by
    rw [h.sp]
    bv_omega
  rw [popFrame, foldl_popReg (by decide) hwords, poppedRegs_frameRegs h.saved]
  simp only [v7mPop, setReg, update_self, update_idem, hxpsr, hsp, xpsrWrite_eq]
  -- the stack pointer is as it was before it was aligned
  have hundo := undo_alignSp (s.cpu.regs 13) hfree
  split_ifs at hundo ⊢ with halign
  · rw [hundo, update_eq_self]
  · rw [hundo, update_eq_self]

/-- The stacked xPSR has the bits of the xPSR. -/
theorem getLsbD_stackedXpsr (sp xpsr : BitVec 32) {i : ℕ} (hi : i ≠ 9) :
    (stackedXpsr sp xpsr).getLsbD i = xpsr.getLsbD i := by
  rw [stackedXpsr]
  split_ifs
  · show (xpsr ||| BitVec.twoPow 32 9).getLsbD i = _
    rw [BitVec.getLsbD_or, BitVec.getLsbD_twoPow]
    simp [hi.symm]
  · rfl

/-! ### Handlers -/

/-- The interrupts that the NVIC takes for active, from the running one on. -/
def Active (s : Machine) (irq : ℕ) : Prop :=
  ∃ l, Unwinds nvic (s.gic.lastActive · 0) (s.gic.runningIrq 0) l ∧ irq ∈ l

/-- An instruction of a handler, and what devices do in the meantime. The exception number is not
changed, and interrupts are neither taken nor completed. -/
structure Instruction (s s' : Machine) : Prop where
  exception : s'.cpu.v7m.exception = s.cpu.v7m.exception
  gic : ∃ es, (∀ e ∈ es, Event.atCpu e = false) ∧ Runs.run Irq.step s.gic es = some s'.gic

/-- **What happens from the start of a handler on**: its instructions, and further interrupts, for
which the same holds, and which return. -/
inductive Body : Machine → Machine → Prop
  | done (s : Machine) : Body s s
  | step {s s' s'' : Machine} (h : Instruction s s') (rest : Body s' s'') : Body s s''
  | interrupt {s s₁ s₂ s₃ s₄ : Machine} (fresh : ∀ irq, takes s.gic 0 = some irq → ¬Active s irq)
    (enter : s.doInterruptV7m .irq = some s₁) (handler : Body s₁ s₂) (leaves : Leaves s₁ s₂)
    (exit : s₂.doInterruptV7m .exceptionExit = some s₃) (rest : Body s₃ s₄) : Body s s₄

/-- The state after the NVIC has been asked for the interrupt. -/
def acknowledged (s : Machine) (gic : Gic nvic.ncpu) (irq : ℕ) : Machine :=
  { s with
    cpu := { s.cpu with v7m := { s.cpu.v7m with exception := BitVec.ofNat 9 irq } }
    gic := gic }

/-- **Taking an interrupt.** The exception number is one of those that the NVIC can complete. -/
theorem doInterruptV7m_irq {l : List ℕ} (hl : Stacked s.gic 0 l)
    (hfresh : ∀ irq, takes s.gic 0 = some irq → irq ∉ l) (h : s.doInterruptV7m .irq = some s₁) :
    ∃ gic irq e, e < 80 ∧ Stacked s₁.gic 0 (irq :: l) ∧
      Entered (s.acknowledged gic e) (xpsrRead s.cpu) (excReturn s.cpu) s₁ := by
  obtain ⟨⟨gic, e⟩, hack, rfl⟩ := map_eq_some_iff.mp h
  obtain ⟨irq, hirq, he, hstacked⟩ := hl.nvicAcknowledge hfresh hack
  have hentered := entered_enter (s.acknowledged gic e) (xpsrRead s.cpu) (excReturn s.cpu)
  refine ⟨gic, irq, e, ?_, hentered.gic.symm ▸ hstacked, hentered⟩
  have hirq : irq < 96 := hirq
  rw [he]
  split_ifs <;> omega

/-- **Returning from an interrupt.** -/
theorem doInterruptV7m_exit {s₂ : Machine} {gic : Gic nvic.ncpu} {e : ℕ} {l : List ℕ} (he : e < 80)
    (hentered : Entered (s.acknowledged gic e) (xpsrRead s.cpu) (excReturn s.cpu) s₁)
    (hleaves : Leaves s₁ s₂) (hexception : s₂.cpu.v7m.exception = s₁.cpu.v7m.exception)
    (hl : Stacked s₂.gic 0 l) :
    ∃ s₃, s₂.doInterruptV7m .exceptionExit = some s₃ ∧ Restored s s₃ ∧
    ∃ l', Stacked s₃.gic 0 l' := by
  obtain ⟨hlr, hlr'⟩ := excReturn_and_four s.cpu
  have htype : (s₂.cpu.regs 15 &&& 4 != 0) = s.cpu.v7m.currentSp := by
    rw [hleaves.pc, hentered.lr, hlr']
  have hnumber : s₂.cpu.v7m.exception.toNat = e := by
    rw [hexception, hentered.v7m]
    exact Nat.mod_eq_of_lt (by omega)
  -- the NVIC
  obtain ⟨gic₃, hgic, l', hl'⟩ : ∃ gic₃, (if s₂.cpu.v7m.exception ≠ 0 then
      armv7mNvicCompleteIrq s₂.gic s₂.cpu.v7m.exception.toNat else some s₂.gic) = some gic₃ ∧
      ∃ l', Stacked gic₃ 0 l' := by
    split_ifs
    · have hrange : gicIrq e < nvic.nirq := by
        show gicIrq e < 96
        rw [gicIrq]
        split_ifs <;> omega
      obtain ⟨gic₃, heq, hstacked, -⟩ := hl.complete (.inr (.inr hrange))
      exact ⟨gic₃, hnumber ▸ heq, _, hstacked⟩
    · exact ⟨s₂.gic, rfl, l, hl⟩
  have hleaves' : Leaves s₁ { s₂ with gic := gic₃ } :=
    ⟨hleaves.frame, hleaves.saved, hleaves.sp, hleaves.otherSp, hleaves.currentSp, hleaves.pc⟩
  obtain ⟨t, ht⟩ : ∃ t, ({ s₂ with gic := gic₃ } : Machine).switchV7mSp s.cpu.v7m.currentSp = t :=
    ⟨_, rfl⟩
  have hframe : OnFrame s (xpsrRead s.cpu) t := by
    have h := hleaves'.onFrame hentered hlr
    exact ht ▸ ⟨h.frame, h.sp, h.saved, h.otherSp, h.currentSp⟩
  have hgic₃ : t.gic = gic₃ := by
    rw [← ht, switchV7mSp]
    split_ifs <;> rfl
  have hexit : s₂.doInterruptV7m .exceptionExit = some t.popFrame := by
    rw [doInterruptV7m, doV7mExceptionExit, htype, hgic, ← ht]
    rfl
  rw [hframe.popFrame_eq (getLsbD_xpsrRead_align s.cpu)] at hexit
  obtain ⟨hflags, hit, hthumb, hexc⟩ := xpsrWrite_of_bits s.cpu t.cpu
    (stackedXpsr (s.cpu.regs 13) (xpsrRead s.cpu)) fun i hi => getLsbD_stackedXpsr _ _ hi
  exact ⟨_, hexit, ⟨rfl, hframe.otherSp, hframe.currentSp, hflags, hit, hthumb, hexc⟩, l',
    hgic₃.symm ▸ hl'⟩

/-- Instructions leave the NVIC's stack alone. -/
theorem Instruction.stacked {s' : Machine} {l : List ℕ} (h : Instruction s s')
    (hl : Stacked s.gic 0 l) :
    Stacked s'.gic 0 l := by
  obtain ⟨es, hes, hrun⟩ := h.gic
  have hstacked : ∀ p gic, p <+: es → Runs.run Irq.step s.gic p = some gic → Stacked gic 0 l := by
    refine Runs.forall_prefix (P := fun _ gic => Stacked gic 0 l) hl ?_
    intro p e gic gic' hp _ hstacked hstep
    have hmem : e ∈ es := hp.subset (by simp)
    exact hstacked.congr (sameStack_of_not_atCpu (hes e hmem) hstep 0)
  exact hstacked es s'.gic prefix_rfl hrun

/-- **A handler leaves the exception number and the NVIC's stack in order.** -/
theorem Body.keeps {s' : Machine} (h : Body s s') (hl : ∃ l, Stacked s.gic 0 l) :
    s'.cpu.v7m.exception = s.cpu.v7m.exception ∧ ∃ l, Stacked s'.gic 0 l := by
  induction h with
  | done s => exact ⟨rfl, hl⟩
  | step hinstr _ ih =>
    obtain ⟨l, hl⟩ := hl
    obtain ⟨hexception, hl'⟩ := ih ⟨l, hinstr.stacked hl⟩
    exact ⟨hexception.trans hinstr.exception, hl'⟩
  | interrupt hfresh henter _ hleaves hexit _ ihhandler ihrest =>
    obtain ⟨l, hl⟩ := hl
    have hnot : ∀ irq, takes _ 0 = some irq → irq ∉ l := fun irq htakes hmem =>
      hfresh irq htakes ⟨l, hl.unwinds, hmem⟩
    obtain ⟨gic, irq, e, he, hstacked, hentered⟩ := doInterruptV7m_irq hl hnot henter
    obtain ⟨hexception, l₂, hl₂⟩ := ihhandler ⟨_, hstacked⟩
    obtain ⟨s₃, hexit', hrestored, hl₃⟩ := doInterruptV7m_exit he hentered hleaves hexception hl₂
    obtain rfl := some.inj (hexit'.symm.trans hexit)
    obtain ⟨hexception₄, hl₄⟩ := ihrest hl₃
    exact ⟨hexception₄.trans hrestored.exception, hl₄⟩

/-- **Interrupts are transparent**, unless they hit an IT block. From every state in which the
NVIC's stack is in order and an interrupt is taken that is not active: the handler starts on the
main stack with the IT state cleared, and every handler that leaves the frame, the callee-saved
registers and the stack pointers alone, whatever further interrupts there are, returns to the
interrupted code with everything as it was — exactly if there was no IT state. -/
theorem interrupt_transparent_iff (s : Machine) (l : List ℕ) (irq : ℕ) (hl : Stacked s.gic 0 l)
    (htakes : takes s.gic 0 = some irq) (hirq : irq < nvic.nirq) (hnot : irq ∉ l) :
    ∃ s₁, s.doInterruptV7m .irq = some s₁ ∧
      ((s₁.cpu.v7m.currentSp = false ∧ s₁.cpu.condexecBits = 0 ∧
        ∀ s₂, Body s₁ s₂ → Leaves s₁ s₂ →
          ∃ s₃, s₂.doInterruptV7m .exceptionExit = some s₃ ∧ Restored s s₃) ↔
        s.cpu.condexecBits = 0) := by
  obtain ⟨gic, e, hack⟩ := exists_nvicAcknowledge htakes hirq
  obtain ⟨s₁, henter⟩ : ∃ s₁, s.doInterruptV7m .irq = some s₁ := by
    rw [doInterruptV7m, hack]
    exact ⟨_, rfl⟩
  have hfresh : ∀ irq', takes s.gic 0 = some irq' → irq' ∉ l := fun irq' htakes' =>
    some.inj (htakes.symm.trans htakes') ▸ hnot
  obtain ⟨gic, irq, e, he, hstacked, hentered⟩ := doInterruptV7m_irq hl hfresh henter
  refine ⟨s₁, henter, fun h => hentered.condexecBits.symm.trans h.2.1, fun hit => ⟨?_, ?_, ?_⟩⟩
  · exact congrArg V7m.currentSp hentered.v7m
  · exact hentered.condexecBits.trans hit
  · intro s₂ hbody hleaves
    obtain ⟨hexception, l₂, hl₂⟩ := hbody.keeps ⟨_, hstacked⟩
    obtain ⟨s₃, hexit, hrestored, -⟩ := doInterruptV7m_exit he hentered hleaves hexception hl₂
    exact ⟨s₃, hexit, hrestored⟩

/-- A machine out of reset, with `0x1000` for both stack pointers, the IT state `condexecBits`, and
the SysTick exception pending. -/
def startup (condexecBits : BitVec 8) : Machine where
  cpu :=
    { regs := fun i => if i = 13 then 0x1000 else 0
      uncachedCpsr := 0
      CF := true
      VF := 0
      NF := 0
      ZF := 0
      QF := false
      thumb := true
      condexecBits := condexecBits
      v7m := ⟨0x1000, 0, 0, false, 0⟩
      featureM := true
      vfp := ⟨0, 0, 0⟩ }
  mem := fun _ => 0
  gic := (armv7mNvicSetPending (gicReset nvic) excpSystick).getD (gicReset nvic)

/-- The handler of an interrupt in an IT block starts with the IT state of the block. -/
theorem handler_starts_in_it_block :
    (startup 0x18).cpu.regs 13 &&& 3 = 0 ∧
      ∃ s₁, (startup 0x18).doInterruptV7m .irq = some s₁ ∧ s₁.cpu.condexecBits = 0x18 := by
  have h : ((startup 0x18).doInterruptV7m .irq).map (fun s => s.cpu.condexecBits) = some 0x18 := by
    decide +kernel
  exact ⟨rfl, map_eq_some_iff.mp h⟩

/-- The same machine on the process stack, with a stack pointer that is not a multiple of 8. -/
def onProcessStack : Machine :=
  { startup 0 with
    cpu := { (startup 0).cpu with
      regs := fun i => if i = 13 then 0x2004 else 0
      v7m := { (startup 0).cpu.v7m with currentSp := true } } }

/-- A handler that returns at once, with `bx lr`. -/
theorem startup_restored :
    ∃ s₁, onProcessStack.doInterruptV7m .irq = some s₁ ∧ s₁.cpu.v7m.currentSp = false ∧
    s₁.cpu.condexecBits = 0 ∧
      ∃ s₃, (s₁.setReg 15 (s₁.cpu.regs 14 &&& 0xfffffffe)).doInterruptV7m .exceptionExit = some s₃ ∧
        Restored onProcessStack s₃ := by
  have htakes : takes onProcessStack.gic 0 = some 15 := by decide +kernel
  have hstacked : Stacked onProcessStack.gic 0 [] :=
    ⟨by show (startup 0).gic.runningIrq 0 = 1023; decide +kernel, nodup_nil⟩
  obtain ⟨s₁, henter, h⟩ :=
    interrupt_transparent_iff onProcessStack [] 15 hstacked htakes (by decide) not_mem_nil
  obtain ⟨hsp, hit, hreturn⟩ := h.mpr rfl
  have hbx : Instruction s₁ (s₁.setReg 15 (s₁.cpu.regs 14 &&& 0xfffffffe)) := ⟨rfl, [], nofun, rfl⟩
  refine ⟨s₁, henter, hsp, hit, hreturn _ (.step hbx (.done _)) ?_⟩
  exact ⟨rfl, fun i _ hi => by simp [setReg, show i ≠ 15 by omega], rfl, rfl, rfl, by simp [setReg]⟩

end Machine

end VariabilityTestbed.Arm

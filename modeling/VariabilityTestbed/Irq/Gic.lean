import Mathlib.Algebra.Ring.Nat
import Mathlib.Logic.Function.Basic

/-!
# The interrupt controller

`arm_gic.c` is compiled three times: for the controller of a RealView board, for the one of an
MPCore with up to four CPUs, and for the one of a CPU of the M profile, the NVIC. It has a
distributor, which keeps what is enabled and pending, and for each CPU an interface, which keeps
what the CPU is working on. The distributor of the NVIC has its own registers instead of some of the
others, and there is no interface that guest code could reach: the CPU acknowledges and completes
interrupts when it takes an exception and returns from one.

What the outputs should be is cached. `gic_update` computes `current_pending` and the lines to the
CPUs.

## The model

Masks of CPUs are bit vectors of length `NCPU`. Arrays are functions, and where an index may be out
of range the access is `none`, as are `hw_error` and a loop that does not end. The field `active` of
an interrupt is left out, since nothing ever sets it.
-/

namespace VariabilityTestbed.Irq

open Function

/-- What a controller is compiled for, and the number of its CPUs. -/
structure Config where
  /-- `NVIC`. -/
  nvic : Bool
  /-- `GIC_NIRQ`. -/
  nirq : ℕ
  /-- `NCPU`. -/
  ncpu : ℕ
  /-- `NUM_CPU(s)`. -/
  numCpu : ℕ
  nirq_le : nirq ≤ 1020
  numCpu_le : numCpu ≤ ncpu

/-- `gic_irq_state`. -/
structure IrqState (ncpu : ℕ) where
  enabled : Bool
  pending : BitVec ncpu
  level : BitVec ncpu
  /-- `false` is N:N, `true` is 1:N. -/
  model : Bool
  /-- `true` is edge triggered. -/
  trigger : Bool

/-- `gic_state`. Arrays over interrupts and CPUs have the interrupt first. -/
structure Gic (ncpu : ℕ) where
  enabled : Bool
  cpuEnabled : ℕ → Bool
  irqState : ℕ → IrqState ncpu
  irqTarget : ℕ → BitVec ncpu
  priority1 : ℕ → ℕ → ℕ
  priority2 : ℕ → ℕ
  lastActive : ℕ → ℕ → ℕ
  priorityMask : ℕ → ℕ
  runningIrq : ℕ → ℕ
  runningPriority : ℕ → ℕ
  currentPending : ℕ → ℕ
  /-- The level of `parent_irq`. -/
  parentIrq : ℕ → Bool

variable {g : Config}

/-- `1 << cpu`. -/
def cpuBit (ncpu cpu : ℕ) : BitVec ncpu := BitVec.ofNat ncpu 1 <<< cpu

/-- `ALL_CPU_MASK`. -/
def allCpuMask (ncpu : ℕ) : BitVec ncpu := BitVec.allOnes ncpu

namespace IrqState

variable {ncpu : ℕ}

/-- `GIC_SET_PENDING`. -/
def setPending (i : IrqState ncpu) (cm : BitVec ncpu) : IrqState ncpu :=
  { i with pending := i.pending ||| cm }

/-- `GIC_CLEAR_PENDING`. -/
def clearPending (i : IrqState ncpu) (cm : BitVec ncpu) : IrqState ncpu :=
  { i with pending := i.pending &&& ~~~cm }

/-- `GIC_TEST_PENDING`. -/
def testPending (i : IrqState ncpu) (cm : BitVec ncpu) : Bool := i.pending &&& cm != 0

/-- `GIC_TEST_LEVEL`. -/
def testLevel (i : IrqState ncpu) (cm : BitVec ncpu) : Bool := i.level &&& cm != 0

end IrqState

namespace Gic

/-- `GIC_GET_PRIORITY`. -/
def getPriority (s : Gic g.ncpu) (irq cpu : ℕ) : ℕ :=
  if irq < 32 then s.priority1 irq cpu else s.priority2 (irq - 32)

/-- `GIC_TARGET`. -/
def target (g : Config) (s : Gic g.ncpu) (irq : ℕ) : BitVec g.ncpu :=
  if g.nvic then 1 else s.irqTarget irq

/-- Write the state of one interrupt. -/
def modifyIrq (s : Gic g.ncpu) (irq : ℕ) (f : IrqState g.ncpu → IrqState g.ncpu) : Gic g.ncpu :=
  { s with irqState := update s.irqState irq (f (s.irqState irq)) }

end Gic

open Gic

/-! ### The outputs -/

/-- An iteration of the inner loop of `gic_update`: the best priority so far, and its interrupt. -/
def better (s : Gic g.ncpu) (cpu : ℕ) (best : ℕ × ℕ) (irq : ℕ) : ℕ × ℕ :=
  if (s.irqState irq).enabled && (s.irqState irq).testPending (cpuBit g.ncpu cpu) then
    if s.getPriority irq cpu < best.1 then (s.getPriority irq cpu, irq) else best
  else best

/-- The inner loop of `gic_update`: `best_prio` and `best_irq`. -/
def bestIrq (s : Gic g.ncpu) (cpu : ℕ) : ℕ × ℕ :=
  (List.range g.nirq).foldl (better s cpu) (0x100, 1023)

/-- Set the outputs for one CPU. -/
def setOutput (s : Gic g.ncpu) (cpu irq : ℕ) (level : Bool) : Gic g.ncpu :=
  { s with
    currentPending := update s.currentPending cpu irq
    parentIrq := update s.parentIrq cpu level }

/-- The loop of `gic_update`, which returns at a CPU whose interface is disabled. -/
def updateCpus (s : Gic g.ncpu) : List ℕ → Gic g.ncpu
  | [] => s
  | cpu :: cpus =>
    if !s.enabled || !s.cpuEnabled cpu then setOutput s cpu 1023 false
    else
      let (bestPrio, best) := bestIrq s cpu
      if bestPrio ≤ s.priorityMask cpu then
        updateCpus (setOutput s cpu best (decide (bestPrio < s.runningPriority cpu))) cpus
      else updateCpus (setOutput s cpu 1023 false) cpus

/-- `gic_update`. -/
def gicUpdate (s : Gic g.ncpu) : Gic g.ncpu := updateCpus s (List.range g.numCpu)

/-! ### Inputs -/

/-- `gic_set_pending_private`. -/
def gicSetPendingPrivate (s : Gic g.ncpu) (cpu irq : ℕ) : Option (Gic g.ncpu) :=
  if g.nirq ≤ irq then none
  else if (s.irqState irq).testPending (cpuBit g.ncpu cpu) then some s
  else some (gicUpdate (s.modifyIrq irq (·.setPending (cpuBit g.ncpu cpu))))

/-- `gic_set_irq`. -/
def gicSetIrq (s : Gic g.ncpu) (irq : ℕ) (level : Bool) : Gic g.ncpu :=
  let irq := irq + 32
  let i := s.irqState irq
  if level = i.testLevel (allCpuMask g.ncpu) then s
  else if level then
    let s := s.modifyIrq irq fun i => { i with level := allCpuMask g.ncpu }
    gicUpdate (if i.trigger || i.enabled then s.modifyIrq irq (·.setPending (s.target g irq))
      else s)
  else gicUpdate (s.modifyIrq irq fun i => { i with level := i.level &&& ~~~allCpuMask g.ncpu })

/-! ### The interface of a CPU -/

/-- `gic_set_running_irq`. -/
def gicSetRunningIrq (s : Gic g.ncpu) (cpu irq : ℕ) : Option (Gic g.ncpu) :=
  if irq = 1023 then
    some (gicUpdate { s with
      runningIrq := update s.runningIrq cpu irq
      runningPriority := update s.runningPriority cpu 0x100 })
  else if g.nirq ≤ irq then none
  else
    some (gicUpdate { s with
      runningIrq := update s.runningIrq cpu irq
      runningPriority := update s.runningPriority cpu (s.getPriority irq cpu) })

/-- The test of `gic_acknowledge_irq`: the interrupt that a CPU would take. -/
def takes (s : Gic g.ncpu) (cpu : ℕ) : Option ℕ :=
  let newIrq := s.currentPending cpu
  if newIrq = 1023 ∨ s.getPriority newIrq cpu ≥ s.runningPriority cpu then none else some newIrq

/-- `gic_acknowledge_irq`, with what it returns. -/
def gicAcknowledgeIrq (s : Gic g.ncpu) (cpu : ℕ) : Option (Gic g.ncpu × ℕ) :=
  match takes s cpu with
  | none => some (s, 1023)
  | some newIrq =>
    let cm := cpuBit g.ncpu cpu
    let s := { s with
      lastActive := update s.lastActive newIrq
        (update (s.lastActive newIrq) cpu (s.runningIrq cpu)) }
    let s := s.modifyIrq newIrq fun i => i.clearPending (if i.model then allCpuMask g.ncpu else cm)
    (gicSetRunningIrq s cpu newIrq).map fun s => (s, newIrq)

/-- The loop of `gic_complete_irq`: the interrupt above `irq`, or that there is none. It looks at
`last_active[tmp][cpu]` for each `tmp`; an interrupt that does not exist is out of range. -/
def searchActive (g : Config) (lastActive : ℕ → ℕ) (irq : ℕ) : ℕ → ℕ → Option (Option ℕ)
  | 0, _ => none
  | fuel + 1, tmp =>
    if g.nirq ≤ tmp then none
    else if lastActive tmp = 1023 then some none
    else if lastActive tmp = irq then some (some tmp)
    else searchActive g lastActive irq fuel (lastActive tmp)

/-- Whether `gic_complete_irq` finds that the line of the interrupt is still raised. -/
def stillRaised (s : Gic g.ncpu) (cpu irq : ℕ) : Bool :=
  let cm := cpuBit g.ncpu cpu
  let i := s.irqState irq
  irq != 1023 && (!i.trigger && i.enabled && i.testLevel cm && s.target g irq &&& cm != 0)

/-- `gic_complete_irq` for an interrupt that is not the running one. -/
def completeOther (s : Gic g.ncpu) (cpu irq : ℕ) : Option (Gic g.ncpu) :=
  (searchActive g (s.lastActive · cpu) irq (g.nirq + 1) (s.runningIrq cpu)).bind fun
    | none => some s
    | some tmp =>
      if g.nirq ≤ irq then none
      else some { s with
        lastActive := update s.lastActive tmp
          (update (s.lastActive tmp) cpu (s.lastActive irq cpu)) }

/-- `gic_complete_irq`. -/
def gicCompleteIrq (s : Gic g.ncpu) (cpu irq : ℕ) : Option (Gic g.ncpu) :=
  if s.runningIrq cpu = 1023 then some s
  else if irq ≠ 1023 ∧ g.nirq ≤ irq then none
  else
    let update := stillRaised s cpu irq
    let s := if update then s.modifyIrq irq (·.setPending (cpuBit g.ncpu cpu)) else s
    if irq ≠ s.runningIrq cpu then
      (completeOther s cpu irq).map fun s => if update then gicUpdate s else s
    else if g.nirq ≤ irq then none
    else gicSetRunningIrq s cpu (s.lastActive (s.runningIrq cpu) cpu)

/-- `gic_cpu_write`. -/
def gicCpuWrite (s : Gic g.ncpu) (cpu offset value : ℕ) : Option (Gic g.ncpu) :=
  if offset = 0x00 then
    some (gicUpdate { s with cpuEnabled := update s.cpuEnabled cpu (value.testBit 0) })
  else if offset = 0x04 then
    some (gicUpdate { s with priorityMask := update s.priorityMask cpu (value % 0x100) })
  else if offset = 0x08 then some (gicUpdate s)
  else if offset = 0x10 then gicCompleteIrq s cpu (value % 0x400)
  else none

/-! ### The registers of the distributor -/

/-- A loop over the eight interrupts that a byte has bits for. -/
def forBits (value irq : ℕ) (f : IrqState g.ncpu → IrqState g.ncpu) (state : ℕ → IrqState g.ncpu) :
    ℕ → IrqState g.ncpu :=
  (List.range 8).foldl
    (fun state i => if value.testBit i then update state (irq + i) (f (state (irq + i))) else state)
    state

/-- Interrupt Set Enable. -/
def setEnable (s : Gic g.ncpu) (cpu irq value : ℕ) : Gic g.ncpu :=
  let mask := if irq < 32 then cpuBit g.ncpu cpu else s.target g irq
  { s with
    irqState := forBits (if irq < 16 then 0xff else value) irq (fun i =>
      let i := { i with enabled := true }
      if i.testLevel mask && !i.trigger then i.setPending mask else i) s.irqState }

/-- Interrupt Clear Enable. -/
def clearEnable (s : Gic g.ncpu) (irq value : ℕ) : Gic g.ncpu :=
  { s with
    irqState := forBits (if irq < 16 then 0 else value) irq
      (fun i => { i with enabled := false }) s.irqState }

/-- Interrupt Set Pending. -/
def setPendingBits (s : Gic g.ncpu) (irq value : ℕ) : Gic g.ncpu :=
  let irq := if irq < 16 then 0 else irq
  { s with irqState := forBits value irq (fun i => i.setPending (s.target g irq)) s.irqState }

/-- Interrupt Clear Pending. -/
def clearPendingBits (s : Gic g.ncpu) (irq value : ℕ) : Gic g.ncpu :=
  { s with irqState := forBits value irq (fun i => i.clearPending (allCpuMask g.ncpu)) s.irqState }

/-- Interrupt Priority. -/
def setPriority (s : Gic g.ncpu) (cpu irq value : ℕ) : Gic g.ncpu :=
  if irq < 32 then
    { s with
      priority1 := update s.priority1 irq (update (s.priority1 irq) cpu value) }
  else { s with priority2 := update s.priority2 (irq - 32) value }

/-- Interrupt CPU Target. -/
def setTarget (s : Gic g.ncpu) (irq value : ℕ) : Gic g.ncpu :=
  let value := if irq < 29 then 0 else if irq < 32 then allCpuMask g.ncpu
    else BitVec.ofNat g.ncpu value
  { s with irqTarget := update s.irqTarget irq value }

/-- Interrupt Configuration: two bits for each of four interrupts. -/
def setConfiguration (s : Gic g.ncpu) (irq value : ℕ) : Gic g.ncpu :=
  let value := if irq < 32 then value ||| 0xaa else value
  { s with
    irqState := (List.range 4).foldl
      (fun state i => update state (irq + i)
        { state (irq + i) with
        model := value.testBit (2 * i), trigger := value.testBit (2 * i + 1) })
      s.irqState }

/-- `GIC_BASE_IRQ`. -/
def baseIrq (g : Config) : ℕ := if g.nvic then 32 else 0

/-- The registers that have a field for each interrupt. -/
inductive IrqReg where
  | setEnable
  | clearEnable
  | setPending
  | clearPending
  | priority
  | target
  | configuration

/-- The registers of the distributor that a byte can be written to. -/
inductive DistReg where
  | control
  | ignored
  | ofIrq (r : IrqReg) (irq : ℕ)

/-- The register at an offset from `0x100` on, and the first interrupt that it has a field for. -/
def irqReg (g : Config) (offset : ℕ) : Option (IrqReg × ℕ) :=
  if offset < 0x180 then some (.setEnable, (offset - 0x100) * 8 + baseIrq g)
  else if offset < 0x200 then some (.clearEnable, (offset - 0x180) * 8 + baseIrq g)
  else if offset < 0x280 then some (.setPending, (offset - 0x200) * 8 + baseIrq g)
  else if offset < 0x300 then some (.clearPending, (offset - 0x280) * 8 + baseIrq g)
  else if offset < 0x400 then none
  else if offset < 0x800 then some (.priority, offset - 0x400 + baseIrq g)
  else if g.nvic then none
  else if offset < 0xc00 then some (.target, offset - 0x800 + baseIrq g)
  else if offset < 0xf00 then some (.configuration, (offset - 0xc00) * 4 + baseIrq g)
  else none

/-- The register at an offset. -/
def distReg (g : Config) (offset : ℕ) : Option DistReg :=
  if offset < 0x100 then
    if g.nvic then none
    else if offset = 0 then some .control
    else if offset < 4 then some .ignored
    else none
  else (irqReg g offset).bind fun (r, irq) => if g.nirq ≤ irq then none else some (.ofIrq r irq)

/-- `gic_dist_writeb` up to `gic_update`. -/
def distStore (s : Gic g.ncpu) (cpu value : ℕ) : DistReg → Gic g.ncpu
  | .control => { s with enabled := value.testBit 0 }
  | .ignored => s
  | .ofIrq .setEnable irq => setEnable s cpu irq value
  | .ofIrq .clearEnable irq => clearEnable s irq value
  | .ofIrq .setPending irq => setPendingBits s irq value
  | .ofIrq .clearPending irq => clearPendingBits s irq value
  | .ofIrq .priority irq => setPriority s cpu irq value
  | .ofIrq .target irq => setTarget s irq value
  | .ofIrq .configuration irq => setConfiguration s irq value

/-- `gic_dist_writeb`. -/
def gicDistWriteb (s : Gic g.ncpu) (cpu offset value : ℕ) : Option (Gic g.ncpu) :=
  (distReg g offset).map fun r => gicUpdate (distStore s cpu value r)

/-- `gic_dist_writew`. -/
def gicDistWritew (s : Gic g.ncpu) (cpu offset value : ℕ) : Option (Gic g.ncpu) :=
  (gicDistWriteb s cpu offset (value % 0x100)).bind fun s =>
    gicDistWriteb s cpu (offset + 1) (value / 0x100)

/-- The software interrupt of `gic_dist_writel`. -/
def softwareInterrupt (s : Gic g.ncpu) (cpu value : ℕ) : Option (Gic g.ncpu) :=
  let irq := value % 0x400
  let mask := match value / 2 ^ 24 % 4 with
    | 0 => BitVec.ofNat g.ncpu (value / 2 ^ 16)
    | 1 => allCpuMask g.ncpu ^^^ cpuBit g.ncpu cpu
    | 2 => cpuBit g.ncpu cpu
    | _ => allCpuMask g.ncpu
  if g.nirq ≤ irq then none else some (gicUpdate (s.modifyIrq irq (·.setPending mask)))

/-! ### The registers of the NVIC -/

/-- `ARMV7M_EXCP_NMI`. -/
def excpNmi : ℕ := 2

/-- `ARMV7M_EXCP_MEM`. -/
def excpMem : ℕ := 4

/-- `ARMV7M_EXCP_BUS`. -/
def excpBus : ℕ := 5

/-- `ARMV7M_EXCP_USAGE`. -/
def excpUsage : ℕ := 6

/-- `ARMV7M_EXCP_PENDSV`. -/
def excpPendsv : ℕ := 14

/-- `ARMV7M_EXCP_SYSTICK`. -/
def excpSystick : ℕ := 15

/-- From the numbers of exceptions to those of the controller. -/
def gicIrq (irq : ℕ) : ℕ := if irq ≥ 16 then irq + 16 else irq

/-- `armv7m_nvic_set_pending`. -/
def armv7mNvicSetPending (s : Gic g.ncpu) (irq : ℕ) : Option (Gic g.ncpu) :=
  gicSetPendingPrivate s 0 (gicIrq irq)

/-- `armv7m_nvic_acknowledge_irq`, with the number of the exception. -/
def armv7mNvicAcknowledgeIrq (s : Gic g.ncpu) : Option (Gic g.ncpu × ℕ) :=
  (gicAcknowledgeIrq s 0).bind fun (s, irq) =>
    if irq = 1023 then none else some (s, if irq ≥ 32 then irq - 16 else irq)

/-- `armv7m_nvic_complete_irq`. -/
def armv7mNvicCompleteIrq (s : Gic g.ncpu) (irq : ℕ) : Option (Gic g.ncpu) :=
  gicCompleteIrq s 0 (gicIrq irq)

/-- Set or clear the pending bit of an exception in the Interrupt Control State register. -/
def writePendingBit (s : Gic g.ncpu) (irq : ℕ) (set clear : Bool) : Option (Gic g.ncpu) :=
  if set then armv7mNvicSetPending s irq
  else if clear then some (gicUpdate (s.modifyIrq irq fun i => { i with pending := 0 }))
  else some s

/-- Interrupt Control State. -/
def writeControlState (s : Gic g.ncpu) (value : ℕ) : Option (Gic g.ncpu) :=
  (if value.testBit 31 then armv7mNvicSetPending s excpNmi else some s).bind fun s =>
    (writePendingBit s excpPendsv (value.testBit 28) (value.testBit 27)).bind fun s =>
      writePendingBit s excpSystick (value.testBit 26) (value.testBit 25)

/-- System Handler Priority: the priorities of four exceptions. -/
def writeHandlerPriority (s : Gic g.ncpu) (irq value : ℕ) : Gic g.ncpu :=
  let s := setPriority s 0 irq (value % 0x100)
  let s := setPriority s 0 (irq + 1) (value / 0x100 % 0x100)
  let s := setPriority s 0 (irq + 2) (value / 0x10000 % 0x100)
  setPriority s 0 (irq + 3) (value / 0x1000000 % 0x100)

/-- System Handler Control. -/
def writeHandlerControl (s : Gic g.ncpu) (value : ℕ) : Gic g.ncpu :=
  let s := s.modifyIrq excpMem fun i => { i with enabled := value.testBit 16 }
  let s := s.modifyIrq excpBus fun i => { i with enabled := value.testBit 17 }
  s.modifyIrq excpUsage fun i => { i with enabled := value.testBit 18 }

/-- `nvic_writel`. The registers of SysTick and the vector table offset are not part of the
controller. -/
def nvicWritel (s : Gic g.ncpu) (offset value : ℕ) : Option (Gic g.ncpu) :=
  if offset = 0x10 ∨ offset = 0x14 ∨ offset = 0x18 ∨ offset = 0xd08 then some s
  else if offset = 0xd04 then writeControlState s value
  else if offset = 0xd0c then
    if value / 2 ^ 16 = 0x05fa ∧ (value.testBit 1 ∨ value.testBit 0 ∨ value.testBit 2) then
      none else some s
  else if offset = 0xd18 ∨ offset = 0xd1c ∨ offset = 0xd20 then
    some (gicUpdate (writeHandlerPriority s (offset - 0xd14) value))
  else if offset = 0xd24 then some (writeHandlerControl s value)
  else none

/-- `gic_dist_writel`. -/
def gicDistWritel (s : Gic g.ncpu) (cpu offset value : ℕ) : Option (Gic g.ncpu) :=
  if g.nvic ∧ (offset < 0x100 ∨ offset > 0xd00 ∧ offset ≠ 0xf00) then nvicWritel s offset value
  else if offset = 0xf00 then softwareInterrupt s cpu value
  else
    (gicDistWritew s cpu offset (value % 0x10000)).bind fun s =>
      gicDistWritew s cpu (offset + 2) (value / 0x10000)

/-! ### A controller -/

/-- `gic_reset`, on memory that is otherwise zero. -/
def gicReset (g : Config) : Gic g.ncpu where
  enabled := g.nvic
  cpuEnabled _ := g.nvic
  irqState irq := ⟨decide (irq < 16), 0, 0, false, decide (irq < 16)⟩
  irqTarget _ := 0
  priority1 _ _ := 0
  priority2 _ := 0
  lastActive _ _ := 0
  priorityMask _ := 0xf0
  runningIrq _ := 1023
  runningPriority _ := 0x100
  currentPending _ := 1023
  parentIrq _ := false

/-- The controller of an MPCore with two CPUs. -/
def twoCpus : Config := ⟨false, 64, 4, 2, Nat.le_of_ble_eq_true rfl, Nat.le_of_ble_eq_true rfl⟩

/-- The NVIC. -/
def nvic : Config := ⟨true, 96, 1, 1, Nat.le_of_ble_eq_true rfl, Nat.le_of_ble_eq_true rfl⟩

/-- What can happen to a controller. A CPU of the M profile acknowledges and completes exceptions by
their own numbers. -/
inductive Event where
  | setIrq (irq : ℕ) (level : Bool)
  | setPendingPrivate (cpu irq : ℕ)
  | distWriteb (cpu offset value : ℕ)
  | distWritew (cpu offset value : ℕ)
  | distWritel (cpu offset value : ℕ)
  | cpuWrite (cpu offset value : ℕ)
  | acknowledge (cpu : ℕ)
  | nvicSetPending (irq : ℕ)
  | nvicAcknowledge
  | nvicComplete (irq : ℕ)

/-- The CPU that is concerned, if there is one, exists; lines are wired to interrupts; and the NVIC
has its own functions. -/
def Event.possible (g : Config) : Event → Bool
  | .setIrq irq _ => irq + 32 < g.nirq
  | .setPendingPrivate cpu _ => cpu < g.numCpu
  | .distWriteb cpu _ _ | .distWritew cpu _ _ | .distWritel cpu _ _ => cpu < g.numCpu
  | .cpuWrite cpu _ _ | .acknowledge cpu => cpu < g.numCpu && !g.nvic
  | .nvicSetPending _ | .nvicAcknowledge | .nvicComplete _ => 0 < g.numCpu && g.nvic

/-- One event. -/
def step (s : Gic g.ncpu) (e : Event) : Option (Gic g.ncpu) :=
  if e.possible g then
    match e with
    | .setIrq irq level => some (gicSetIrq s irq level)
    | .setPendingPrivate cpu irq => gicSetPendingPrivate s cpu irq
    | .distWriteb cpu offset value => gicDistWriteb s cpu offset value
    | .distWritew cpu offset value => gicDistWritew s cpu offset value
    | .distWritel cpu offset value => gicDistWritel s cpu offset value
    | .cpuWrite cpu offset value => gicCpuWrite s cpu offset value
    | .acknowledge cpu => (gicAcknowledgeIrq s cpu).map (·.1)
    | .nvicSetPending irq => armv7mNvicSetPending s irq
    | .nvicAcknowledge => (armv7mNvicAcknowledgeIrq s).map (·.1)
    | .nvicComplete irq => armv7mNvicCompleteIrq s irq
  else none

end VariabilityTestbed.Irq

import VariabilityTestbed.Lib.Bytes
import VariabilityTestbed.Memory.Ram

/-!
# The software TLB

Translated code finds the host address of a guest page in the TLB of its CPU, which has one table
for each MMU mode. The low bits of an address in an entry are flags, and an access takes the fast
path, without any function of the emulator, if there are none. So a store to a page whose dirty
flags are not all set needs a flag in its entry, `TLB_NOTDIRTY`. The handlers behind it set the
dirty flags of the page, and when all of them are set, they take `TLB_NOTDIRTY` out of the TLB.

An address in an entry is kept as its page and its flags, which are different bits of it. The host
address that is added to virtual addresses is an integer here, as it is meant modulo the word size.
An address of RAM in `iotlb` has the 32 bits of a physical address, though RAM may be larger.
-/

namespace VariabilityTestbed.Memory

open Bytes Function

/-! ### Entries -/

/-- `TLB_INVALID_MASK`. -/
def tlbInvalidMask : ℕ := 8

/-- `TLB_NOTDIRTY`. -/
def tlbNotdirty : ℕ := 16

/-- `TLB_MMIO`. -/
def tlbMmio : ℕ := 32

/-- `CPU_TLB_SIZE`. -/
def cpuTlbSize : ℕ := 256

/-- `IO_MEM_NOTDIRTY`. -/
def ioMemNotdirty : ℕ := 24

/-- `io_mem_watch`, the first entry that is not fixed. -/
def ioMemWatch : ℕ := 40

/-- `CODE_DIRTY_FLAG`. -/
def codeDirtyFlag : UInt8 := 2

/-- A virtual address of an entry: the number of its page, and the bits below. -/
structure TlbAddr where
  page : ℕ
  flags : ℕ
  deriving DecidableEq, Repr

/-- `-1`. -/
def TlbAddr.invalid : TlbAddr := ⟨2 ^ 22 - 1, 1023⟩

/-- A `CPUTLBEntry`. -/
structure TlbEntry where
  addrRead : TlbAddr
  addrWrite : TlbAddr
  addrCode : TlbAddr
  addend : ℤ
  deriving DecidableEq, Repr

/-- `s_cputlb_empty_entry`. -/
def TlbEntry.empty : TlbEntry := ⟨.invalid, .invalid, .invalid, -1⟩

/-- The host address of the page that an entry is for. -/
def TlbEntry.host (e : TlbEntry) : ℤ := e.addrWrite.page * targetPageSize + e.addend

/-- The TLB of a CPU. -/
structure CpuTlb where
  /-- `tlb_table`, by MMU mode and index. -/
  table : ℕ → ℕ → TlbEntry
  iotlb : ℕ → ℕ → UInt32
  tlbFlushAddr : UInt32
  tlbFlushMask : UInt32

/-- The TLBs of all CPUs, the dirty flags and the memory of the host. -/
structure TlbState where
  cpu : ℕ → CpuTlb
  physDirty : ℕ → UInt8
  mem : ℕ → UInt8

/-- The physical memory layout, and the number of MMU modes. There is no descriptor with flags that
are neither those of RAM or ROM nor those of an entry of the table of I/O handlers. -/
structure TlbBoard where
  page : ℕ → Option PhysPageDesc
  ram : RamList
  nbMmuModes : ℕ
  kinds : ∀ q p, page q = some p →
    ioType p.physOffset = 0 ∨ ioMemRom ≤ ioType p.physOffset ∨ isRomd p.physOffset = true

/-- `prot` of `tlb_set_page`. -/
structure Prot where
  read : Bool
  write : Bool
  exec : Bool
  deriving DecidableEq, Repr

/-- A `CPUWatchpoint`, as far as `tlb_set_page` looks at it. -/
structure Watchpoint where
  vaddr : UInt32
  memRead : Bool
  deriving DecidableEq, Repr

/-- The number of the page of a virtual address. -/
def vpage (vaddr : UInt32) : ℕ := vaddr.toNat / targetPageSize

/-! ### Flushing -/

/-- The comparison in `tlb_flush_entry`. -/
def TlbAddr.isFor (a : TlbAddr) (page : ℕ) : Bool := a.page = page ∧ a.flags &&& tlbInvalidMask = 0

/-- `tlb_flush_entry`. -/
def TlbEntry.tlbFlushEntry (e : TlbEntry) (page : ℕ) : TlbEntry :=
  if e.addrRead.isFor page || e.addrWrite.isFor page || e.addrCode.isFor page then .empty else e

namespace CpuTlb

/-- `tlb_flush`. -/
def tlbFlush (c : CpuTlb) : CpuTlb :=
  { c with table := fun _ _ => .empty, tlbFlushAddr := -1, tlbFlushMask := 0 }

/-- `tlb_flush_page`, which flushes everything if the page may be part of a large one. -/
def tlbFlushPage (c : CpuTlb) (addr : UInt32) : CpuTlb :=
  if addr &&& c.tlbFlushMask = c.tlbFlushAddr then c.tlbFlush
  else
    { c with
      table := fun mmuIdx index =>
        if index = vpage addr % cpuTlbSize then (c.table mmuIdx index).tlbFlushEntry (vpage addr)
        else c.table mmuIdx index }

/-- The loop of `tlb_add_large_page`. -/
def extendMask (flushAddr vaddr : UInt32) : ℕ → UInt32 → UInt32
  | 0, mask => mask
  | fuel + 1, mask =>
    if (flushAddr ^^^ vaddr) &&& mask = 0 then mask
    else extendMask flushAddr vaddr fuel (mask <<< 1)

/-- `tlb_add_large_page`. -/
def tlbAddLargePage (c : CpuTlb) (vaddr size : UInt32) : CpuTlb :=
  let mask := ~~~(size - 1)
  if c.tlbFlushAddr = -1 then { c with tlbFlushAddr := vaddr &&& mask, tlbFlushMask := mask }
  else
    let mask := extendMask c.tlbFlushAddr vaddr 32 (mask &&& c.tlbFlushMask)
    { c with tlbFlushAddr := c.tlbFlushAddr &&& mask, tlbFlushMask := mask }

end CpuTlb

/-! ### Dirty flags in entries -/

/-- `tlb_reset_dirty_range`. -/
def TlbEntry.tlbResetDirtyRange (e : TlbEntry) (start length : ℕ) : TlbEntry :=
  if e.addrWrite.flags = 0 ∧ (start : ℤ) ≤ e.host ∧ e.host < start + length then
    { e with addrWrite := ⟨e.addrWrite.page, tlbNotdirty⟩ }
  else e

/-- `tlb_update_dirty`, which aborts for a page that is not RAM. -/
def TlbEntry.tlbUpdateDirty (e : TlbEntry) (ram : RamList) (physDirty : ℕ → UInt8) :
    Option TlbEntry :=
  if e.addrWrite.flags = 0 then
    (ram.qemuRamAddrFromHost e.host.toNat).map fun ramAddr =>
      if physDirty (ramAddr / targetPageSize) = 0xff then e
      else { e with addrWrite := ⟨e.addrWrite.page, tlbNotdirty⟩ }
  else some e

/-- `tlb_set_dirty1`. -/
def TlbEntry.tlbSetDirty1 (e : TlbEntry) (page : ℕ) : TlbEntry :=
  if e.addrWrite = ⟨page, tlbNotdirty⟩ then { e with addrWrite := ⟨page, 0⟩ } else e

namespace CpuTlb

/-- `tlb_set_dirty`, in all MMU modes. -/
def tlbSetDirty (c : CpuTlb) (vaddr : UInt32) : CpuTlb :=
  { c with
    table := fun mmuIdx index =>
      if index = vpage vaddr % cpuTlbSize then (c.table mmuIdx index).tlbSetDirty1 (vpage vaddr)
      else c.table mmuIdx index }

/-- `cpu_tlb_update_dirty`. -/
def cpuTlbUpdateDirty (c : CpuTlb) (b : TlbBoard) (physDirty : ℕ → UInt8) : Option CpuTlb :=
  let updated (mmuIdx index : ℕ) := (c.table mmuIdx index).tlbUpdateDirty b.ram physDirty
  if (List.range b.nbMmuModes).all fun mmuIdx =>
      (List.range cpuTlbSize).all fun index => (updated mmuIdx index).isSome then
    some { c with table := fun mmuIdx index => (updated mmuIdx index).getD (c.table mmuIdx index) }
  else none

end CpuTlb

/-! ### `tlb_set_page` -/

/-- `pd`. -/
def TlbBoard.pd (b : TlbBoard) (paddr : ℕ) : ℕ :=
  match b.page (paddr / targetPageSize) with
  | some p => p.physOffset
  | none => ioMemUnassigned

/-- `iotlb`, before `vaddr` is taken off. Pages with watchpoints go via the handlers for them. -/
def TlbBoard.iotlb (b : TlbBoard) (paddr : ℕ) (watched : Bool) : ℕ :=
  if watched then ioMemWatch + paddr
  else if ioType (b.pd paddr) = 0 then
    b.pd paddr / targetPageSize * targetPageSize + ioMemNotdirty
  else if ioType (b.pd paddr) ≤ ioMemRom then
    b.pd paddr / targetPageSize * targetPageSize + ioMemRom
  else
    match b.page (paddr / targetPageSize) with
    | some p => ioType (b.pd paddr) + p.regionOffset
    | none => ioType (b.pd paddr) + paddr

/-- The flags of `code_address`. -/
def codeFlags (pd : ℕ) : ℕ := if ioType pd > ioMemRom && !isRomd pd then tlbMmio else 0

/-- The flags of `address`. -/
def addressFlags (pd : ℕ) (watched : Bool) : ℕ :=
  if watched then codeFlags pd ||| tlbMmio else codeFlags pd

/-- The flags of `addr_write`. -/
def writeFlags (pd : ℕ) (watched dirty : Bool) : ℕ :=
  if ioType pd = ioMemRom || isRomd pd then addressFlags pd watched ||| tlbMmio
  else if ioType pd = 0 && !dirty then addressFlags pd watched ||| tlbNotdirty
  else addressFlags pd watched

/-- The new entry of `tlb_set_page`. -/
def TlbBoard.newEntry (b : TlbBoard) (physDirty : ℕ → UInt8) (vaddr : UInt32) (paddr : ℕ)
    (prot : Prot) (watched : Bool) (ptr : ℕ) : TlbEntry where
  addrRead := if prot.read then ⟨vpage vaddr, addressFlags (b.pd paddr) watched⟩ else .invalid
  addrWrite :=
    if prot.write then
      ⟨vpage vaddr, writeFlags (b.pd paddr) watched
        (physDirty (b.pd paddr / targetPageSize) = 0xff)⟩
    else .invalid
  addrCode := if prot.exec then ⟨vpage vaddr, codeFlags (b.pd paddr)⟩ else .invalid
  addend := ptr - vaddr.toNat

/-- The loop of `tlb_set_page` over the watchpoints. -/
def isWatched (watchpoints : List Watchpoint) (vaddr : UInt32) (prot : Prot) : Bool :=
  watchpoints.any fun w => vpage w.vaddr = vpage vaddr && (prot.write || w.memRead)

namespace CpuTlb

/-- Write an entry and its `iotlb`. -/
def setEntry (c : CpuTlb) (mmuIdx index : ℕ) (e : TlbEntry) (iotlb : UInt32) : CpuTlb :=
  { c with
    table := update c.table mmuIdx (update (c.table mmuIdx) index e)
    iotlb := update c.iotlb mmuIdx (update (c.iotlb mmuIdx) index iotlb) }

/-- `tlb_set_page`. Callers pass the address of a page. -/
def tlbSetPage (c : CpuTlb) (b : TlbBoard) (physDirty : ℕ → UInt8) (vaddr : UInt32) (paddr : ℕ)
    (prot : Prot) (mmuIdx : ℕ) (size : UInt32) (watchpoints : List Watchpoint) : Option CpuTlb :=
  if vaddr.toNat % targetPageSize ≠ 0 ∨ size.toNat < targetPageSize then none
  else
    let c := if size.toNat = targetPageSize then c else c.tlbAddLargePage vaddr size
    let watched := isWatched watchpoints vaddr prot
    (b.ram.qemuGetRamPtr (b.pd paddr / targetPageSize * targetPageSize)).map fun ptr =>
      c.setEntry mmuIdx (vpage vaddr % cpuTlbSize)
        (b.newEntry physDirty vaddr paddr prot watched ptr)
        (UInt32.ofNat (b.iotlb paddr watched) - vaddr)

end CpuTlb

/-! ### Dirty flags of pages -/

namespace TlbState

/-- `cpu_physical_memory_mask_dirty_range`, whose length is an `int`. -/
def maskDirtyRange (s : TlbState) (start length : ℕ) (flags : UInt8) : TlbState :=
  let length : ℤ := (length : ℤ).bmod (2 ^ 32)
  { s with
    physDirty := fun p =>
      if start / targetPageSize ≤ p ∧
          (p : ℤ) < (start / targetPageSize : ℕ) + length / targetPageSize then
        s.physDirty p &&& ~~~flags
      else s.physDirty p }

/-- `TARGET_PAGE_ALIGN`. -/
def targetPageAlign (addr : ℕ) : ℕ :=
  (addr + targetPageSize - 1) / targetPageSize * targetPageSize

/-- `length` of `cpu_physical_memory_reset_dirty`. -/
def roundedLength (start stop : ℕ) : ℕ :=
  targetPageAlign stop - start / targetPageSize * targetPageSize

/-- `cpu_physical_memory_reset_dirty`. The end of the range is not before its start. -/
def cpuPhysicalMemoryResetDirty (s : TlbState) (b : TlbBoard) (start stop : ℕ) (flags : UInt8) :
    Option TlbState :=
  if stop < start then none
  else if roundedLength start stop = 0 then some s
  else do
    let length := roundedLength start stop
    let start := start / targetPageSize * targetPageSize
    let stop := targetPageAlign stop
    let s := s.maskDirtyRange start length flags
    let start1 ← b.ram.qemuGetRamPtr start
    let last ← b.ram.qemuGetRamPtr (stop - 1)
    if last = start1 + (stop - 1 - start) then
      return { s with
        cpu := fun i =>
          { s.cpu i with
            table := fun mmuIdx index =>
              ((s.cpu i).table mmuIdx index).tlbResetDirtyRange start1 length } }
    else none

/-- `dirty_flags` at the end of `notdirty_mem_writeb` and the others. `unprotect` says that
`tb_invalidate_phys_page_fast`, which is called for a page with translated code, leaves the page
without translated code, and so sets the flag for it. -/
def newDirtyFlags (dirtyFlags : UInt8) (unprotect : Bool) : UInt8 :=
  (if dirtyFlags &&& codeDirtyFlag = 0 ∧ unprotect then dirtyFlags ||| codeDirtyFlag
    else dirtyFlags) ||| nonCodeDirtyFlags

/-- `notdirty_mem_writeb`, `notdirty_mem_writew` and `notdirty_mem_writel`, called for a store to
the virtual address `vaddr`. -/
def notdirtyMemWrite (s : TlbState) (b : TlbBoard) (cpu size ramAddr val : ℕ) (vaddr : UInt32)
    (unprotect : Bool) : Option TlbState :=
  let page := ramAddr / targetPageSize
  let dirtyFlags := newDirtyFlags (s.physDirty page) unprotect
  (b.ram.qemuGetRamPtr ramAddr).map fun ptr =>
    { mem := storeBytes s.mem ptr (stP size val)
      physDirty := update s.physDirty page (s.physDirty page ||| dirtyFlags)
      cpu :=
        if dirtyFlags = 0xff then update s.cpu cpu ((s.cpu cpu).tlbSetDirty vaddr)
        else s.cpu }

/-- The RAM address that `io_write` finds in `iotlb`. -/
def slowRamAddr (s : TlbState) (cpu mmuIdx : ℕ) (vaddr : UInt32) : ℕ :=
  let iotlb := (s.cpu cpu).iotlb mmuIdx (vpage vaddr % cpuTlbSize)
  (iotlb.toNat / targetPageSize * targetPageSize + vaddr.toNat) % 0x100000000

/-- The store of a CPU that finds `TLB_NOTDIRTY` in its entry. -/
def slowStore (s : TlbState) (b : TlbBoard) (cpu mmuIdx size val : ℕ) (vaddr : UInt32)
    (unprotect : Bool) : Option TlbState :=
  let e := (s.cpu cpu).table mmuIdx (vpage vaddr % cpuTlbSize)
  if e.addrWrite = ⟨vpage vaddr, tlbNotdirty⟩ then
    s.notdirtyMemWrite b cpu size (s.slowRamAddr cpu mmuIdx vaddr) val vaddr unprotect
  else none

end TlbState

/-! ### Operations -/

/-- What happens to the TLBs and the dirty flags. -/
inductive TlbOp where
  | tlbSetPage (cpu : ℕ) (vaddr : UInt32) (paddr : ℕ) (prot : Prot) (mmuIdx : ℕ) (size : UInt32)
    (watchpoints : List Watchpoint)
  | tlbFlush (cpu : ℕ)
  | tlbFlushPage (cpu : ℕ) (addr : UInt32)
  | resetDirty (start stop : ℕ) (flags : UInt8)
  | updateDirty (cpu : ℕ)
  | store (cpu mmuIdx size val : ℕ) (vaddr : UInt32) (unprotect : Bool)

/-- One operation. -/
def tlbStep (b : TlbBoard) (s : TlbState) : TlbOp → Option TlbState
  | .tlbSetPage cpu vaddr paddr prot mmuIdx size watchpoints =>
    ((s.cpu cpu).tlbSetPage b s.physDirty vaddr paddr prot mmuIdx size watchpoints).map fun c =>
      { s with cpu := update s.cpu cpu c }
  | .tlbFlush cpu => some { s with cpu := update s.cpu cpu (s.cpu cpu).tlbFlush }
  | .tlbFlushPage cpu addr =>
    some { s with cpu := update s.cpu cpu ((s.cpu cpu).tlbFlushPage addr) }
  | .resetDirty start stop flags => s.cpuPhysicalMemoryResetDirty b start stop flags
  | .updateDirty cpu =>
    ((s.cpu cpu).cpuTlbUpdateDirty b s.physDirty).map fun c =>
      { s with cpu := update s.cpu cpu c }
  | .store cpu mmuIdx size val vaddr unprotect =>
    s.slowStore b cpu mmuIdx size val vaddr unprotect

/-- CPUs are reset with an empty TLB, and all pages are dirty. -/
def initTlbState (iotlb : ℕ → ℕ → ℕ → UInt32) (mem : ℕ → UInt8) : TlbState where
  cpu := fun i => ⟨fun _ _ => .empty, iotlb i, -1, 0⟩
  physDirty := fun _ => 0xff
  mem := mem

end VariabilityTestbed.Memory

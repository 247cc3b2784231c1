import VariabilityTestbed.Exec.TbTable
import VariabilityTestbed.Lib.Bytes
import VariabilityTestbed.Memory.Ram

/-!
# Access to physical memory by devices

A device has two ways to guest memory. `cpu_physical_memory_rw` copies between the guest and a
buffer of the caller, page by page, and calls the handlers of pages that are not RAM.
`cpu_physical_memory_map` gives the caller a pointer into RAM instead, or a bounce buffer if the
first page is not RAM, and `cpu_physical_memory_unmap` does afterwards what a write has to do apart
from copying: it invalidates translated code and sets dirty flags.

The handlers of devices are arbitrary functions on the machine. They do not see the bounce buffer.
-/

namespace VariabilityTestbed.Memory

open Bytes Exec

/-! ### The machine -/

/-- What devices can change. -/
structure Machine (δ : Type) where
  /-- The memory of the host. -/
  mem : ℕ → UInt8
  /-- `ram_list.phys_dirty`. -/
  physDirty : ℕ → UInt8
  tbs : TbTable
  /-- `current_tb` of the CPU, when it has a pending interrupt. -/
  currentTb : Option ℕ
  device : δ

/-- `io_mem_read` and `io_mem_write`, for accesses of 1, 2 and 4 bytes. -/
structure IoHandlers (δ : Type) where
  read : (ioIndex size addr : ℕ) → Machine δ → Option (Machine δ × ℕ)
  write : (ioIndex size addr val : ℕ) → Machine δ → Option (Machine δ)

/-- The physical memory layout, and the handlers of devices. -/
structure Board (δ : Type) where
  page : ℕ → Option PhysPageDesc
  ram : RamList
  io : IoHandlers δ

variable {δ : Type}

/-- Whether `tb_invalidate_phys_page_range` finds a block to invalidate. -/
def finds (s : TbTable) (start stop : ℕ) : ℕ → Option PageNode → Bool
  | 0, _ | _ + 1, none => false
  | fuel + 1, some x => s.overlaps start stop x || finds s start stop fuel (s.pageCell (.next x))

namespace Machine

/-- `tb_invalidate_phys_page_range(addr, addr + l, 0)`. A pending interrupt clears `current_tb` when
a block is invalidated. -/
def tbInvalidate (s : Machine δ) (addr l : ℕ) : Option (Machine δ) :=
  (s.tbs.tbInvalidatePhysPageRange s.currentTb addr (addr + l)).map fun tbs =>
    { s with
      tbs := tbs
      currentTb :=
        if finds s.tbs addr (addr + l) s.tbs.bound
            (s.tbs.pageCell (.first (addr / targetPageSize))) then none
        else s.currentTb }

/-- `cpu_physical_memory_is_dirty`. -/
def isDirty (s : Machine δ) (addr : ℕ) : Bool := s.physDirty (addr / targetPageSize) = 0xff

/-- `cpu_physical_memory_set_dirty_flags`. -/
def setDirtyFlags (s : Machine δ) (addr : ℕ) (flags : UInt8) : Machine δ :=
  { s with
    physDirty := Function.update s.physDirty (addr / targetPageSize)
      (s.physDirty (addr / targetPageSize) ||| flags) }

/-- What is done for `l` bytes that were written at `addr`. -/
def wrote (s : Machine δ) (addr l : ℕ) : Option (Machine δ) :=
  if s.isDirty addr then some s
  else (s.tbInvalidate addr l).map fun s => s.setDirtyFlags addr nonCodeDirtyFlags

/-- `memcpy` to the memory of the host. -/
def store (s : Machine δ) (ptr : ℕ) (buf : List UInt8) : Machine δ :=
  { s with mem := storeBytes s.mem ptr buf }

end Machine

/-! ### Copying -/

/-- The bytes up to the end of the page. -/
def chunk (addr len : ℕ) : ℕ := min (targetPageSize - addr % targetPageSize) len

/-- The size of an access to a device. -/
def accessSize (l addr1 : ℕ) : ℕ :=
  if l ≥ 4 ∧ addr1 % 4 = 0 then 4 else if l ≥ 2 ∧ addr1 % 2 = 0 then 2 else 1

namespace Board

/-- `phys_page_find` for the page of an address. Addresses have 32 bits. -/
def pageOf (b : Board δ) (addr : ℕ) : Option PhysPageDesc :=
  b.page (addr / targetPageSize % 2 ^ 22)

/-- `pd`. -/
def pd (b : Board δ) (addr : ℕ) : ℕ :=
  match b.pageOf addr with
  | none => ioMemUnassigned
  | some p => p.physOffset

/-- `addr1`, for a page that is not RAM. -/
def ioAddr (b : Board δ) (addr : ℕ) : ℕ :=
  match b.pageOf addr with
  | none => addr % 2 ^ 32
  | some p => addr % targetPageSize + p.regionOffset

/-- `addr1`, for RAM. -/
def ramAddr (b : Board δ) (addr : ℕ) : ℕ :=
  b.pd addr / targetPageSize * targetPageSize + addr % targetPageSize

/-- The loop of `cpu_physical_memory_rw` for a write. -/
def writeLoop (b : Board δ) : ℕ → Machine δ → ℕ → List UInt8 → Option (Machine δ)
  | 0, s, _, _ => some s
  | fuel + 1, s, addr, buf =>
    if buf = [] then some s
    else if ioType (b.pd addr) ≠ 0 then do
      let l := accessSize (chunk addr buf.length) (b.ioAddr addr)
      let s ← b.io.write (ioIndex (b.pd addr)) l (b.ioAddr addr) (ldP (buf.take l)) s
      writeLoop b fuel s (addr + l) (buf.drop l)
    else do
      let l := chunk addr buf.length
      let ptr ← b.ram.qemuGetRamPtr (b.ramAddr addr)
      let s ← (s.store ptr (buf.take l)).wrote (b.ramAddr addr) l
      writeLoop b fuel s (addr + l) (buf.drop l)

/-- The loop of `cpu_physical_memory_rw` for a read. -/
def readLoop (b : Board δ) : ℕ → Machine δ → ℕ → ℕ → Option (Machine δ × List UInt8)
  | 0, s, _, _ => some (s, [])
  | fuel + 1, s, addr, len =>
    if len = 0 then some (s, [])
    else if ioType (b.pd addr) > ioMemRom ∧ isRomd (b.pd addr) = false then do
      let l := accessSize (chunk addr len) (b.ioAddr addr)
      let (s, val) ← b.io.read (ioIndex (b.pd addr)) l (b.ioAddr addr) s
      let (s, buf) ← readLoop b fuel s (addr + l) (len - l)
      return (s, stP l val ++ buf)
    else do
      let l := chunk addr len
      let ptr ← b.ram.qemuGetRamPtr (b.pd addr / targetPageSize * targetPageSize)
      let (s', buf) ← readLoop b fuel s (addr + l) (len - l)
      return (s', loadBytes s.mem (ptr + addr % targetPageSize) l ++ buf)

/-- `cpu_physical_memory_write`. The length is an `int`. -/
def cpuPhysicalMemoryWrite (b : Board δ) (s : Machine δ) (addr : ℕ) (buf : List UInt8) :
    Option (Machine δ) :=
  if buf.length < 2 ^ 31 then b.writeLoop buf.length s addr buf else some s

/-- `cpu_physical_memory_read`. The length is an `int`. -/
def cpuPhysicalMemoryRead (b : Board δ) (s : Machine δ) (addr len : ℕ) :
    Option (Machine δ × List UInt8) :=
  if len < 2 ^ 31 then b.readLoop len s addr len else some (s, [])

end Board

/-! ### Mapping -/

/-- `bounce`, while it has a buffer. -/
structure Bounce where
  addr : ℕ
  len : ℕ
  buffer : List UInt8

/-- The machine and the bounce buffer. -/
structure DmaState (δ : Type) where
  machine : Machine δ
  bounce : Option Bounce

/-- What `cpu_physical_memory_map` returns if it is not `NULL`. -/
inductive Buffer where
  | bounce
  | host (ptr : ℕ)
  deriving DecidableEq, Repr

/-- How the loop of `cpu_physical_memory_map` ends. -/
inductive MapLoop where
  /-- With `l` bytes in the bounce buffer. -/
  | bounce (l : ℕ)
  /-- With `todo` bytes of RAM. -/
  | ram (raddr todo : ℕ)
  deriving DecidableEq, Repr

namespace Board

/-- The loop of `cpu_physical_memory_map`. `busy` says that the bounce buffer is in use. -/
def mapLoop (b : Board δ) (busy : Bool) : ℕ → (addr len todo raddr : ℕ) → MapLoop
  | 0, _, _, todo, raddr => .ram raddr todo
  | fuel + 1, addr, len, todo, raddr =>
    if len = 0 then .ram raddr todo
    else if ioType (b.pd addr) ≠ 0 then
      if todo ≠ 0 ∨ busy then .ram raddr todo else .bounce (chunk addr len)
    else
      b.mapLoop busy fuel (addr + chunk addr len) (len - chunk addr len) (todo + chunk addr len)
        (if todo = 0 then b.ramAddr addr else raddr)

/-- `cpu_physical_memory_map`: a buffer and its length, unless it is `NULL`. -/
def cpuPhysicalMemoryMap (b : Board δ) (s : DmaState δ) (addr len : ℕ) (isWrite : Bool) :
    Option (DmaState δ × Option (Buffer × ℕ)) :=
  match b.mapLoop s.bounce.isSome len addr len 0 (2 ^ 64 - 1) with
  | .bounce l =>
    if isWrite then some ({ s with bounce := some ⟨addr, l, []⟩ }, some (.bounce, l))
    else do
      let (machine, buffer) ← b.cpuPhysicalMemoryRead s.machine addr l
      return (⟨machine, some ⟨addr, l, buffer⟩⟩, some (.bounce, l))
  | .ram raddr todo =>
    (b.ram.qemuRamPtrLength raddr todo).map fun r => (s, r.map fun (ptr, n) => (.host ptr, n))

/-- The loop of `cpu_physical_memory_unmap`. -/
def unmapLoop : ℕ → Machine δ → ℕ → ℕ → Option (Machine δ)
  | 0, s, _, _ => some s
  | fuel + 1, s, addr1, accessLen =>
    if accessLen = 0 then some s
    else do
      let l := min targetPageSize accessLen
      let s ← s.wrote addr1 l
      unmapLoop fuel s (addr1 + l) (accessLen - l)

/-- `cpu_physical_memory_unmap`. -/
def cpuPhysicalMemoryUnmap (b : Board δ) (s : DmaState δ) (buffer : Buffer) (isWrite : Bool)
    (accessLen : ℕ) : Option (DmaState δ) :=
  match buffer with
  | .host ptr =>
    if isWrite then do
      let addr1 ← b.ram.qemuRamAddrFromHost ptr
      let machine ← unmapLoop accessLen s.machine addr1 accessLen
      return { s with machine := machine }
    else some s
  | .bounce => do
    let bounce ← s.bounce
    let machine ←
      if isWrite then b.cpuPhysicalMemoryWrite s.machine bounce.addr (bounce.buffer.take accessLen)
      else some s.machine
    return ⟨machine, none⟩

end Board

namespace DmaState

/-- The caller stores bytes in the buffer. -/
def storeBuffer (s : DmaState δ) (buffer : Buffer) (bytes : List UInt8) : DmaState δ :=
  match buffer with
  | .host ptr => { s with machine := s.machine.store ptr bytes }
  | .bounce =>
    { s with
      bounce := s.bounce.map fun x => { x with buffer := bytes ++ x.buffer.drop bytes.length } }

/-- What the caller finds in the first `n` bytes of the buffer. -/
def loadBuffer (s : DmaState δ) (buffer : Buffer) (n : ℕ) : List UInt8 :=
  match buffer with
  | .host ptr => loadBytes s.machine.mem ptr n
  | .bounce => (s.bounce.map fun x => x.buffer.take n).getD []

end DmaState

end VariabilityTestbed.Memory

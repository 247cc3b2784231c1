import Mathlib.Data.List.Pairwise
import Mathlib.Data.UInt
import VariabilityTestbed.Memory.PhysPages

/-!
# RAM blocks

RAM is a list of blocks. A block is a range of RAM addresses, which are the addresses that pages and
the dirty flags know, and it is somewhere in the memory of the host. The code goes from one to the
other with a walk over the list. The blocks that `qemu_ram_alloc` makes do not overlap and consist
of pages, so the walk has at most one block to find, and what it finds does not depend on the order.
-/

namespace VariabilityTestbed.Memory

open List Option

/-- A `RAMBlock`. -/
structure RamBlock where
  offset : ℕ
  length : ℕ
  host : ℕ
  deriving DecidableEq, Repr

namespace RamBlock

/-- `addr - block->offset < block->length`, without a sign. -/
def Contains (b : RamBlock) (addr : ℕ) : Prop := b.offset ≤ addr ∧ addr < b.offset + b.length

/-- `host - block->host < block->length`, without a sign. -/
def ContainsHost (b : RamBlock) (ptr : ℕ) : Prop := b.host ≤ ptr ∧ ptr < b.host + b.length

instance (b : RamBlock) (addr : ℕ) : Decidable (b.Contains addr) :=
  inferInstanceAs (Decidable (_ ∧ _))

instance (b : RamBlock) (ptr : ℕ) : Decidable (b.ContainsHost ptr) :=
  inferInstanceAs (Decidable (_ ∧ _))

end RamBlock

/-- `ram_list`: blocks of pages that overlap neither as RAM nor in the host. -/
structure RamList where
  blocks : List RamBlock
  aligned : ∀ b ∈ blocks, b.offset % targetPageSize = 0 ∧ b.length % targetPageSize = 0
  disjoint : blocks.Pairwise fun b c =>
    b.offset + b.length ≤ c.offset ∨ c.offset + c.length ≤ b.offset
  disjointHost : blocks.Pairwise fun b c => b.host + b.length ≤ c.host ∨ c.host + c.length ≤ b.host

namespace RamList

/-- The block of a RAM address. -/
def block (r : RamList) (addr : ℕ) : Option RamBlock := r.blocks.find? fun b => b.Contains addr

/-- `qemu_get_ram_ptr`, which aborts for an address that is in no block. -/
def qemuGetRamPtr (r : RamList) (addr : ℕ) : Option ℕ :=
  (r.block addr).map fun b => b.host + (addr - b.offset)

/-- `qemu_ram_ptr_length`: the pointer, if it is not `NULL`, and the length up to the end of the
block. -/
def qemuRamPtrLength (r : RamList) (addr size : ℕ) : Option (Option (ℕ × ℕ)) :=
  if size = 0 then some none
  else
    (r.block addr).map fun b =>
      some (b.host + (addr - b.offset),
        if addr - b.offset + size > b.length then b.length - (addr - b.offset) else size)

/-- `qemu_ram_addr_from_host_nofail`. -/
def qemuRamAddrFromHost (r : RamList) (ptr : ℕ) : Option ℕ :=
  (r.blocks.find? fun b => b.ContainsHost ptr).map fun b => b.offset + (ptr - b.host)

variable {r : RamList} {addr addr' ptr : ℕ} {b b' : RamBlock}

theorem block_eq_some (h : r.block addr = some b) : b ∈ r.blocks ∧ b.Contains addr := by
  have hcontains := find?_some h
  exact ⟨mem_of_find?_eq_some h, by simpa using hcontains⟩

/-- What holds of two members of a list one way or the other. -/
theorem or_of_pairwise {α : Type*} {R : α → α → Prop} {l : List α} {x y : α}
    (h : l.Pairwise fun x y => R x y ∨ R y x) (hx : x ∈ l) (hy : y ∈ l) (hne : x ≠ y) :
    R x y ∨ R y x := by
  have : Std.Symm fun x y => R x y ∨ R y x := ⟨fun _ _ => Or.symm⟩
  exact h.forall hx hy hne

/-- Two blocks with an address in common are one. -/
theorem eq_of_contains (hb : b ∈ r.blocks) (hb' : b' ∈ r.blocks) (h : b.Contains addr)
    (h' : b'.Contains addr) : b = b' := by
  by_contra hne
  obtain ⟨hle, hlt⟩ := h
  obtain ⟨hle', hlt'⟩ := h'
  rcases or_of_pairwise r.disjoint hb hb' hne with h | h <;> omega

theorem eq_of_containsHost (hb : b ∈ r.blocks) (hb' : b' ∈ r.blocks) (h : b.ContainsHost ptr)
    (h' : b'.ContainsHost ptr) : b = b' := by
  by_contra hne
  obtain ⟨hle, hlt⟩ := h
  obtain ⟨hle', hlt'⟩ := h'
  rcases or_of_pairwise r.disjointHost hb hb' hne with h | h <;> omega

theorem block_of_contains (hb : b ∈ r.blocks) (h : b.Contains addr) : r.block addr = some b := by
  obtain ⟨b', hb'⟩ : ∃ b', r.block addr = some b' := by
    rw [← isSome_iff_exists, block, find?_isSome]
    exact ⟨b, hb, by simpa using h⟩
  obtain ⟨hmem, hcontains⟩ := block_eq_some hb'
  rw [hb', eq_of_contains hmem hb hcontains h]

theorem qemuGetRamPtr_eq_some :
    r.qemuGetRamPtr addr = some ptr ↔
      ∃ b, r.block addr = some b ∧ ptr = b.host + (addr - b.offset) := by
  rw [qemuGetRamPtr, map_eq_some_iff]
  simp only [eq_comm (a := ptr)]

/-- RAM addresses of one block lie in the host as they lie in RAM. -/
theorem qemuGetRamPtr_add (hb : r.block addr = some b) {k : ℕ} (hk : b.Contains (addr + k)) :
    r.qemuGetRamPtr (addr + k) = some (b.host + (addr - b.offset) + k) := by
  obtain ⟨hmem, hle, -⟩ := block_eq_some hb
  rw [qemuGetRamPtr, block_of_contains hmem hk, map_some, some_inj]
  omega

/-- **A pointer into RAM is a pointer to one address.** -/
theorem qemuGetRamPtr_inj (h : r.qemuGetRamPtr addr = some ptr)
    (h' : r.qemuGetRamPtr addr' = some ptr) : addr = addr' := by
  obtain ⟨b, hb, hptr⟩ := qemuGetRamPtr_eq_some.mp h
  obtain ⟨b', hb', hptr'⟩ := qemuGetRamPtr_eq_some.mp h'
  obtain ⟨hmem, hle, hlt⟩ := block_eq_some hb
  obtain ⟨hmem', hle', hlt'⟩ := block_eq_some hb'
  have hhost : b.ContainsHost ptr := ⟨by omega, by omega⟩
  have heq : b = b' := eq_of_containsHost hmem hmem' hhost ⟨by omega, by omega⟩
  subst heq
  omega

theorem qemuRamAddrFromHost_of_qemuGetRamPtr (h : r.qemuGetRamPtr addr = some ptr) :
    r.qemuRamAddrFromHost ptr = some addr := by
  obtain ⟨b, hb, hptr⟩ := qemuGetRamPtr_eq_some.mp h
  obtain ⟨hmem, hle, hlt⟩ := block_eq_some hb
  have hhost : b.ContainsHost ptr := ⟨by omega, by omega⟩
  obtain ⟨b', hb'⟩ : ∃ b', r.blocks.find? (fun b => decide (b.ContainsHost ptr)) = some b' := by
    rw [← isSome_iff_exists, find?_isSome]
    exact ⟨b, hmem, by simpa using hhost⟩
  have hhost' := find?_some hb'
  obtain rfl : b = b' :=
    eq_of_containsHost hmem (mem_of_find?_eq_some hb') hhost (by simpa using hhost')
  rw [qemuRamAddrFromHost, hb', map_some, some_inj]
  omega

/-- A block has all of a page or nothing of it. -/
theorem contains_of_page (hb : b ∈ r.blocks) (h : b.Contains addr)
    (hpage : addr' / targetPageSize = addr / targetPageSize) : b.Contains addr' := by
  obtain ⟨hoffset, hlength⟩ := r.aligned b hb
  obtain ⟨hle, hlt⟩ := h
  unfold RamBlock.Contains
  unfold targetPageSize at *
  omega

/-- Pages lie in the host as they lie in RAM. -/
theorem qemuGetRamPtr_add_of_lt (h : r.qemuGetRamPtr addr = some ptr) {k : ℕ}
    (hk : addr % targetPageSize + k < targetPageSize) :
    r.qemuGetRamPtr (addr + k) = some (ptr + k) := by
  obtain ⟨b, hb, rfl⟩ := qemuGetRamPtr_eq_some.mp h
  obtain ⟨hmem, hcontains⟩ := block_eq_some hb
  refine qemuGetRamPtr_add hb (contains_of_page hmem hcontains ?_)
  unfold targetPageSize at *
  omega

/-- The pointer to a page, and from there to an address on it. -/
theorem qemuGetRamPtr_page (h : r.qemuGetRamPtr addr = some ptr) :
    ∃ p, r.qemuGetRamPtr (addr / targetPageSize * targetPageSize) = some p ∧
      p + addr % targetPageSize = ptr := by
  obtain ⟨b, hb, hptr⟩ := qemuGetRamPtr_eq_some.mp h
  obtain ⟨hmem, hcontains⟩ := block_eq_some hb
  have hpage : b.Contains (addr / targetPageSize * targetPageSize) :=
    contains_of_page hmem hcontains (Nat.mul_div_cancel _ (by decide))
  refine ⟨_, qemuGetRamPtr_eq_some.mpr ⟨b, block_of_contains hmem hpage, rfl⟩, ?_⟩
  have hsplit := Nat.div_add_mod' addr targetPageSize
  obtain ⟨hle, -⟩ := hpage
  omega

end RamList

/-! ### Values and flags -/

/-- `ldl_p`, `lduw_p` and `ldub_p`. -/
def ldP : List UInt8 → ℕ
  | [] => 0
  | b :: bs => b.toNat + 256 * ldP bs

/-- `stl_p`, `stw_p` and `stb_p`. -/
def stP (l val : ℕ) : List UInt8 := (List.range l).map fun i => UInt8.ofNat (val / 256 ^ i)

/-- `0xff & ~CODE_DIRTY_FLAG`. -/
def nonCodeDirtyFlags : UInt8 := 0xfd

end VariabilityTestbed.Memory

import VariabilityTestbed.Memory.Tlb

/-!
# Direct stores and dirty pages

A store that finds no flags in its TLB entry is not noticed by anyone, so all dirty flags of its
page have to be set already. `EntryOk` says this of an entry, together with what is needed to keep
it: the host address of the entry and its `iotlb` are for the same page of RAM.

Flags are cleared by `cpu_physical_memory_reset_dirty`, which goes through all TLBs with the host
addresses of its range. They are set by a store that takes the slow path, and when all flags of its
page are set, `tlb_set_dirty` makes the entries for the virtual page direct *in all MMU modes*. In
another mode the virtual page can be a different page of RAM, and that page need not be dirty. The
page that is marked is the one at the low 32 bits of the address of RAM, which is another one if RAM
is that large.
-/

namespace VariabilityTestbed.Memory

open TlbState Option Function

/-! ### One entry -/

/-- The page of RAM at `r` is behind an entry. -/
def Maps (ram : RamList) (e : TlbEntry) (r : ℕ) : Prop :=
  r % targetPageSize = 0 ∧ ∃ ptr : ℕ, ram.qemuGetRamPtr r = some ptr ∧ e.host = ptr

/-- **An entry for direct stores is for a dirty page.** -/
def EntryOk (ram : RamList) (physDirty : ℕ → UInt8) (e : TlbEntry) (iotlb : UInt32) : Prop :=
  e.addrWrite.flags = 0 ∨ e.addrWrite.flags = tlbNotdirty →
    ∃ r, Maps ram e r ∧
      iotlb = UInt32.ofNat (r + ioMemNotdirty) - UInt32.ofNat (e.addrWrite.page * targetPageSize) ∧
      (e.addrWrite.flags = 0 → physDirty (r / targetPageSize) = 0xff)

section Entry

variable {ram : RamList} {physDirty physDirty' : ℕ → UInt8} {e : TlbEntry}
    {iotlb : UInt32} {r r' : ℕ}

theorem Maps.eq (h : Maps ram e r) (h' : Maps ram e r') : r = r' := by
  obtain ⟨-, ptr, hptr, hhost⟩ := h
  obtain ⟨-, ptr', hptr', hhost'⟩ := h'
  obtain rfl : ptr = ptr' := by exact_mod_cast hhost.symm.trans hhost'
  exact RamList.qemuGetRamPtr_inj hptr hptr'

theorem entryOk_empty : EntryOk ram physDirty .empty iotlb := by
  intro h
  exact absurd h (by decide)

section

variable (h : EntryOk ram physDirty e iotlb)
include h

/-- More dirty pages do no harm. -/
theorem EntryOk.mono (hmono : ∀ p, physDirty p = 0xff → physDirty' p = 0xff) :
    EntryOk ram physDirty' e iotlb := by
  intro hflags
  obtain ⟨r, hr, hiotlb, hdirty⟩ := h hflags
  exact ⟨r, hr, hiotlb, fun hzero => hmono _ (hdirty hzero)⟩

/-- A flag for an entry does no harm. -/
theorem EntryOk.notdirty (hflags : e.addrWrite.flags = 0) :
    EntryOk ram physDirty' { e with addrWrite := ⟨e.addrWrite.page, tlbNotdirty⟩ } iotlb := by
  intro _
  obtain ⟨r, hr, hiotlb, -⟩ := h (.inl hflags)
  exact ⟨r, hr, hiotlb, fun hzero => absurd hzero (by decide : tlbNotdirty ≠ 0)⟩

theorem EntryOk.tlbFlushEntry (page : ℕ) : EntryOk ram physDirty (e.tlbFlushEntry page) iotlb := by
  rw [TlbEntry.tlbFlushEntry]
  split
  · exact entryOk_empty
  · exact h

theorem EntryOk.tlbUpdateDirty :
    EntryOk ram physDirty ((e.tlbUpdateDirty ram physDirty).getD e) iotlb := by
  rw [TlbEntry.tlbUpdateDirty]
  split
  next hflags =>
    cases ram.qemuRamAddrFromHost e.host.toNat with
    | none => exact h
    | some r =>
      rw [map_some, getD_some]
      split
      · exact h
      · exact h.notdirty hflags
  next => exact h

/-- `tlb_reset_dirty_range` finds the entries for the pages whose flags are cleared. -/
theorem EntryOk.tlbResetDirtyRange {start1 length : ℕ}
    (hkeep : ∀ r, Maps ram e r → ¬ ((start1 : ℤ) ≤ e.host ∧ e.host < start1 + length) →
      physDirty' (r / targetPageSize) = physDirty (r / targetPageSize)) :
    EntryOk ram physDirty' (e.tlbResetDirtyRange start1 length) iotlb := by
  rw [TlbEntry.tlbResetDirtyRange]
  split
  next hin => exact h.notdirty hin.1
  next hout =>
    intro hflags
    obtain ⟨r, hr, hiotlb, hdirty⟩ := h hflags
    refine ⟨r, hr, hiotlb, fun hzero => ?_⟩
    rw [hkeep r hr fun hin => hout ⟨hzero, hin⟩]
    exact hdirty hzero

/-- `tlb_set_dirty1`, if the page behind the entry is dirty. -/
theorem EntryOk.tlbSetDirty1 {page : ℕ}
    (hdirty : e.addrWrite = ⟨page, tlbNotdirty⟩ → ∀ r, Maps ram e r →
      physDirty (r / targetPageSize) = 0xff) :
    EntryOk ram physDirty (e.tlbSetDirty1 page) iotlb := by
  rw [TlbEntry.tlbSetDirty1]
  split
  next heq =>
    intro _
    have hpage : e.addrWrite.page = page := congrArg TlbAddr.page heq
    obtain ⟨r, hr, hiotlb, -⟩ := h (.inr (congrArg TlbAddr.flags heq))
    refine ⟨r, ?_, hpage ▸ hiotlb, fun _ => hdirty heq r hr⟩
    obtain ⟨hmod, ptr, hptr, hhost⟩ := hr
    refine ⟨hmod, ptr, hptr, ?_⟩
    rw [← hhost, TlbEntry.host, TlbEntry.host, hpage]
  next => exact h

end

end Entry

/-! ### All entries -/

variable {b : TlbBoard} {s s' : TlbState}

/-- The entries of a CPU. -/
def CpuOk (b : TlbBoard) (physDirty : ℕ → UInt8) (c : CpuTlb) : Prop :=
  ∀ mmuIdx index, EntryOk b.ram physDirty (c.table mmuIdx index) (c.iotlb mmuIdx index)

/-- **No direct store to a page that is not dirty**, on any CPU and in any mode. -/
def TlbInv (b : TlbBoard) (s : TlbState) : Prop := ∀ i, CpuOk b s.physDirty (s.cpu i)

theorem TlbInv.update (h : TlbInv b s) (i : ℕ) {c : CpuTlb} (hc : CpuOk b s.physDirty c) :
    TlbInv b { s with cpu := Function.update s.cpu i c } := by
  intro j
  show CpuOk b s.physDirty (Function.update s.cpu i c j)
  by_cases hj : j = i
  · rw [hj, update_self]
    exact hc
  · rw [update_of_ne hj]
    exact h j

section SetPage

variable {c c' : CpuTlb} {physDirty : ℕ → UInt8}

theorem cpuOk_tlbFlush : CpuOk b physDirty c.tlbFlush := fun _ _ => entryOk_empty

section

variable (h : CpuOk b physDirty c)
include h

theorem CpuOk.tlbFlushPage (addr : UInt32) : CpuOk b physDirty (c.tlbFlushPage addr) := by
  rw [CpuTlb.tlbFlushPage]
  split
  · exact cpuOk_tlbFlush
  · intro mmuIdx index
    show EntryOk _ _ (if _ then _ else _) _
    split
    · exact (h mmuIdx index).tlbFlushEntry _
    · exact h mmuIdx index

theorem CpuOk.tlbAddLargePage (vaddr size : UInt32) :
    CpuOk b physDirty (c.tlbAddLargePage vaddr size) := by
  rw [CpuTlb.tlbAddLargePage]
  split <;> exact h

theorem CpuOk.cpuTlbUpdateDirty (hc : c.cpuTlbUpdateDirty b physDirty = some c') :
    CpuOk b physDirty c' := by
  rw [CpuTlb.cpuTlbUpdateDirty] at hc
  split at hc
  · cases hc
    exact fun mmuIdx index => (h mmuIdx index).tlbUpdateDirty
  · exact nomatch hc

theorem CpuOk.setEntry (mmuIdx index : ℕ) {e : TlbEntry} {iotlb : UInt32}
    (he : EntryOk b.ram physDirty e iotlb) :
    CpuOk b physDirty (c.setEntry mmuIdx index e iotlb) := by
  intro mmuIdx' index'
  show EntryOk _ _ (Function.update c.table _ _ _ _) (Function.update c.iotlb _ _ _ _)
  by_cases hm : mmuIdx' = mmuIdx
  · subst hm
    rw [update_self, update_self]
    by_cases hi : index' = index
    · subst hi
      rw [update_self, update_self]
      exact he
    · rw [update_of_ne hi, update_of_ne hi]
      exact h mmuIdx' index'
  · rw [update_of_ne hm, update_of_ne hm]
    exact h mmuIdx' index'

end

theorem addressFlags_eq (pd : ℕ) (watched : Bool) :
    addressFlags pd watched =
      if watched || (ioType pd > ioMemRom && !isRomd pd) then tlbMmio else 0 := by
  rw [addressFlags, codeFlags]
  cases watched <;> cases (decide (ioType pd > ioMemRom) && !isRomd pd) <;> rfl

/-- Only RAM without a watchpoint is ever stored to directly, and only when it is dirty. -/
theorem ram_of_writeFlags {pd : ℕ} {watched dirty : Bool}
    (hkind : ioType pd = 0 ∨ ioMemRom ≤ ioType pd ∨ isRomd pd = true)
    (h : writeFlags pd watched dirty = 0 ∨ writeFlags pd watched dirty = tlbNotdirty) :
    ioType pd = 0 ∧ watched = false ∧ (writeFlags pd watched dirty = 0 → dirty = true) := by
  rw [writeFlags, addressFlags_eq] at *
  cases hwatched : watched || (ioType pd > ioMemRom && !isRomd pd) with
  | true =>
    rw [hwatched] at h
    split at h
    · exact absurd h (by decide)
    · split at h <;> exact absurd h (by decide)
  | false =>
    rw [hwatched] at h
    simp only [Bool.or_eq_false_iff, Bool.and_eq_false_iff, decide_eq_false_iff_not, Nat.not_lt,
      Bool.not_eq_false'] at hwatched
    split at h
    · exact absurd h (by decide)
    next hrom =>
      simp only [Bool.or_eq_true, decide_eq_true_eq, not_or, Bool.not_eq_true] at hrom
      have hle : ioType pd ≤ ioMemRom := hwatched.2.resolve_right (by simp [hrom.2])
      have hzero : ioType pd = 0 := by
        rcases hkind with h | h | h
        · exact h
        · exact absurd (le_antisymm hle h) hrom.1
        · exact absurd (h.symm.trans hrom.2) (by decide)
      refine ⟨hzero, hwatched.1, fun hflags => ?_⟩
      cases dirty with
      | true => rfl
      | false =>
        simp [hzero, hrom.2, ioMemRom, tlbNotdirty] at hflags
theorem TlbBoard.kinds_pd (b : TlbBoard) (paddr : ℕ) :
    ioType (b.pd paddr) = 0 ∨ ioMemRom ≤ ioType (b.pd paddr) ∨ isRomd (b.pd paddr) = true := by
  rw [TlbBoard.pd]
  cases hp : b.page (paddr / targetPageSize) with
  | none => exact .inr (.inl (by decide))
  | some p => exact b.kinds _ p hp

theorem vpage_mul {vaddr : UInt32} (h : vaddr.toNat % targetPageSize = 0) :
    vpage vaddr * targetPageSize = vaddr.toNat :=
  Nat.div_mul_cancel (Nat.dvd_of_mod_eq_zero h)

theorem entryOk_newEntry {vaddr : UInt32} (haligned : vaddr.toNat % targetPageSize = 0)
    {paddr ptr : ℕ} (prot : Prot) (watched : Bool)
    (hptr : b.ram.qemuGetRamPtr (b.pd paddr / targetPageSize * targetPageSize) = some ptr) :
    EntryOk b.ram physDirty (b.newEntry physDirty vaddr paddr prot watched ptr)
      (UInt32.ofNat (b.iotlb paddr watched) - vaddr) := by
  cases hwrite : prot.write with
  | false =>
    intro hflags
    simp only [TlbBoard.newEntry, hwrite, Bool.false_eq_true, if_false] at hflags
    exact absurd hflags (by decide)
  | true =>
    intro hflags
    have haddr : (b.newEntry physDirty vaddr paddr prot watched ptr).addrWrite =
        ⟨vpage vaddr, writeFlags (b.pd paddr) watched
          (physDirty (b.pd paddr / targetPageSize) = 0xff)⟩ := by
      rw [TlbBoard.newEntry, hwrite]
      rfl
    rw [haddr] at hflags
    obtain ⟨hram, hwatched, hdirty⟩ := ram_of_writeFlags (b.kinds_pd paddr) hflags
    have hvaddr : ((vpage vaddr : ℕ) : ℤ) * (targetPageSize : ℕ) = vaddr.toNat := by
      exact_mod_cast vpage_mul haligned
    refine ⟨_, ⟨Nat.mul_mod_left .., ptr, hptr, ?_⟩, ?_, fun hzero => ?_⟩
    · rw [TlbEntry.host, haddr]
      show ((vpage vaddr : ℕ) : ℤ) * (targetPageSize : ℕ) + (ptr - vaddr.toNat) = ptr
      omega
    · rw [haddr, TlbBoard.iotlb, hwatched, if_neg (by decide), if_pos hram]
      show _ = _ - UInt32.ofNat (vpage vaddr * targetPageSize)
      rw [vpage_mul haligned, UInt32.ofNat_toNat]
    · rw [Nat.mul_div_cancel _ (by decide)]
      rw [haddr] at hzero
      exact of_decide_eq_true (hdirty hzero)

theorem CpuOk.tlbSetPage {vaddr size : UInt32} {paddr mmuIdx : ℕ} {prot : Prot}
    {watchpoints : List Watchpoint} (h : CpuOk b physDirty c)
    (hc : c.tlbSetPage b physDirty vaddr paddr prot mmuIdx size watchpoints = some c') :
    CpuOk b physDirty c' := by
  rw [CpuTlb.tlbSetPage] at hc
  split at hc
  · exact nomatch hc
  next hvalid =>
    rw [not_or, not_not] at hvalid
    obtain ⟨ptr, hptr, rfl⟩ := map_eq_some_iff.mp hc
    refine CpuOk.setEntry ?_ _ _ (entryOk_newEntry hvalid.1 prot _ hptr)
    split
    · exact h
    · exact h.tlbAddLargePage vaddr size

end SetPage

/-! ### Clearing flags -/

/-- A range inside one block. -/
def InBlock (ram : RamList) (start stop : ℕ) : Prop :=
  start ≤ stop ∧ ∃ block ∈ ram.blocks, block.offset ≤ start ∧ stop ≤ block.offset + block.length

section ResetDirty

variable {start stop : ℕ} {flags : UInt8}

/-- The pages whose flags are cleared are pages of the range. -/
theorem physDirty_maskDirtyRange_of_not (s : TlbState) {length p : ℕ}
    (hlength : length % targetPageSize = 0)
    (hp : ¬ (start / targetPageSize ≤ p ∧ p < start / targetPageSize + length / targetPageSize)) :
    (s.maskDirtyRange start length flags).physDirty p = s.physDirty p := by
  refine if_neg fun h => hp ⟨h.1, ?_⟩
  have hmod : Int.bmod (length : ℤ) (2 ^ 32) ≤ length := by
    rw [Int.bmod_def]
    split <;> omega
  have hlt := h.2
  unfold targetPageSize at *
  omega

/-- **`cpu_physical_memory_reset_dirty` returns**, and its range is contiguous in the host. -/
theorem resetDirty_eq (s : TlbState) (flags : UInt8) (hin : InBlock b.ram start stop)
    (hlength : roundedLength start stop ≠ 0) :
    ∃ start1, (∀ k < roundedLength start stop,
        b.ram.qemuGetRamPtr (start / targetPageSize * targetPageSize + k) = some (start1 + k)) ∧
      s.cpuPhysicalMemoryResetDirty b start stop flags = some
        { s.maskDirtyRange (start / targetPageSize * targetPageSize) (roundedLength start stop)
            flags with
          cpu := fun i =>
            { s.cpu i with
              table := fun mmuIdx index => ((s.cpu i).table mmuIdx index).tlbResetDirtyRange start1
                (roundedLength start stop) } } := by
  obtain ⟨hle, block, hblock, hoffset, hend⟩ := hin
  obtain ⟨haligned, halignedLength⟩ := b.ram.aligned block hblock
  have hcontains : ∀ k < roundedLength start stop,
      block.Contains (start / targetPageSize * targetPageSize + k) := by
    intro k hk
    rw [roundedLength, targetPageAlign] at hk
    unfold RamBlock.Contains
    unfold targetPageSize at *
    omega
  have hfirst := hcontains 0 (Nat.pos_of_ne_zero hlength)
  rw [Nat.add_zero] at hfirst
  have hptr : ∀ k < roundedLength start stop,
      b.ram.qemuGetRamPtr (start / targetPageSize * targetPageSize + k) =
        some (block.host + (start / targetPageSize * targetPageSize - block.offset) + k) :=
    fun k hk => RamList.qemuGetRamPtr_add (RamList.block_of_contains hblock hfirst) (hcontains k hk)
  refine ⟨_, hptr, ?_⟩
  have hzero := hptr 0 (Nat.pos_of_ne_zero hlength)
  have hlast := hptr (roundedLength start stop - 1) (by omega)
  have hstop : start / targetPageSize * targetPageSize + (roundedLength start stop - 1) =
      targetPageAlign stop - 1 := by
    rw [roundedLength] at *
    omega
  rw [Nat.add_zero, Nat.add_zero] at hzero
  rw [hstop] at hlast
  rw [cpuPhysicalMemoryResetDirty, if_neg (Nat.not_lt.mpr hle), if_neg hlength]
  simp only [hzero, hlast, bind_eq_bind, bind_some, pure_def]
  rw [if_pos]
  · rfl
  · rw [← hstop, Nat.add_sub_cancel_left]

theorem resetDirty_zero (s : TlbState) (hin : InBlock b.ram start stop)
    (hlength : roundedLength start stop = 0) :
    s.cpuPhysicalMemoryResetDirty b start stop flags = some s := by
  rw [cpuPhysicalMemoryResetDirty, if_neg (Nat.not_lt.mpr hin.1), if_pos hlength]

theorem TlbInv.resetDirty (h : TlbInv b s) (hin : InBlock b.ram start stop)
    (hs : s.cpuPhysicalMemoryResetDirty b start stop flags = some s') : TlbInv b s' := by
  by_cases hlength : roundedLength start stop = 0
  · rw [resetDirty_zero s hin hlength] at hs
    cases hs
    exact h
  obtain ⟨start1, hptr, heq⟩ := resetDirty_eq s flags hin hlength
  rw [heq] at hs
  cases hs
  refine fun i mmuIdx index => (h i mmuIdx index).tlbResetDirtyRange fun r hr hout => ?_
  -- the flags of a page are cleared only if its host address is in the range
  have hrounded : roundedLength start stop % targetPageSize = 0 := by
    rw [roundedLength, targetPageAlign]
    unfold targetPageSize
    omega
  refine physDirty_maskDirtyRange_of_not s hrounded fun hpage => hout ?_
  obtain ⟨hmod, ptr, hget, hhost⟩ := hr
  rw [Nat.mul_div_cancel _ (by decide : 0 < targetPageSize)] at hpage
  obtain ⟨k, hk⟩ : ∃ k, r = start / targetPageSize * targetPageSize + k := by
    refine Nat.exists_eq_add_of_le ?_
    unfold targetPageSize at *
    omega
  have hklt : k < roundedLength start stop := by
    unfold targetPageSize at *
    omega
  rw [hk, hptr k hklt] at hget
  cases hget
  rw [hhost]
  omega

/-- The range touches a page. -/
def Touches (start stop p : ℕ) : Prop := ∃ a, start ≤ a ∧ a < stop ∧ a / targetPageSize = p

/-- **Exactly the flags of the pages of the range.** -/
def ResetExact (s s' : TlbState) (start stop : ℕ) (flags : UInt8) : Prop :=
  ∀ p, (Touches start stop p → s'.physDirty p = s.physDirty p &&& ~~~flags) ∧
    (¬ Touches start stop p → s'.physDirty p = s.physDirty p)

/-- Ranges that are cleared exactly: they are not empty inside of a page, and their length is an
`int`. -/
def ResetSafe (start stop : ℕ) : Prop :=
  (start = stop → start % targetPageSize = 0) ∧ roundedLength start stop < 2 ^ 31

theorem touches_iff (hle : start < stop) (p : ℕ) : Touches start stop p ↔
    start / targetPageSize ≤ p ∧
      p < start / targetPageSize + roundedLength start stop / targetPageSize := by
  rw [roundedLength, targetPageAlign]
  constructor
  · rintro ⟨a, hstart, hstop, rfl⟩
    unfold targetPageSize
    omega
  · intro hp
    refine ⟨max start (p * targetPageSize), le_max_left .., ?_, ?_⟩
    · unfold targetPageSize at *
      omega
    · unfold targetPageSize at *
      omega

theorem exists_resetExact (s : TlbState) (hin : InBlock b.ram start stop)
    (hsafe : ResetSafe start stop) (flags : UInt8) :
    ∃ s', s.cpuPhysicalMemoryResetDirty b start stop flags = some s' ∧
      ResetExact s s' start stop flags := by
  rcases Nat.eq_or_lt_of_le hin.1 with heq | hlt
  · -- an empty range
    have hlength : roundedLength start stop = 0 := by
      have := hsafe.1 heq
      rw [roundedLength, targetPageAlign]
      unfold targetPageSize at *
      omega
    refine ⟨s, resetDirty_zero s hin hlength, fun p => ⟨?_, fun _ => rfl⟩⟩
    rintro ⟨a, hstart, hstop, -⟩
    omega
  · have hlength : roundedLength start stop ≠ 0 := by
      rw [roundedLength, targetPageAlign]
      unfold targetPageSize
      omega
    obtain ⟨start1, -, heq⟩ := resetDirty_eq s flags hin hlength
    refine ⟨_, heq, fun p => ?_⟩
    rw [touches_iff hlt]
    have hint : Int.bmod (roundedLength start stop : ℤ) (2 ^ 32) = roundedLength start stop := by
      have := hsafe.2
      rw [Int.bmod_def]
      split <;> omega
    show (_ → (if _ then _ else _) = _) ∧ (_ → (if _ then _ else _) = _)
    rw [hint, Nat.mul_div_cancel _ (by decide : 0 < targetPageSize)]
    constructor
    · intro hp
      exact if_pos (by unfold targetPageSize at *; omega)
    · intro hp
      exact if_neg (by unfold targetPageSize at *; omega)

end ResetDirty

/-! ### Stores that take the slow path -/

section Store

variable {cpu mmuIdx size val : ℕ} {vaddr : UInt32} {unprotect : Bool}

theorem ff_or (flags : UInt8) : 0xff ||| flags = 0xff := by
  rcases flags with ⟨flags⟩
  revert flags
  decide

theorem or_nonCodeDirtyFlags_eq {flags : UInt8} :
    flags ||| nonCodeDirtyFlags = 0xff ↔ flags &&& codeDirtyFlag ≠ 0 := by
  rcases flags with ⟨flags⟩
  revert flags
  decide

/-- **Stores that the code gets right**: if the store sets all flags of the page that it marks,
which is that at the low 32 bits of the address of RAM, then every entry of the CPU that
`tlb_set_dirty` makes direct, its own among them, is for this page, or for one that is dirty. -/
def StoreSafe (b : TlbBoard) (s : TlbState) (cpu mmuIdx : ℕ) (vaddr : UInt32) (unprotect : Bool) :
    Prop :=
  let entry (mmuIdx : ℕ) := (s.cpu cpu).table mmuIdx (vpage vaddr % cpuTlbSize)
  ∀ ramAddr, Maps b.ram (entry mmuIdx) ramAddr →
    s.physDirty (ramAddr % 2 ^ 32 / targetPageSize) &&& codeDirtyFlag ≠ 0 ∨ unprotect = true →
    ∀ mmuIdx' r, (entry mmuIdx').addrWrite = ⟨vpage vaddr, tlbNotdirty⟩ →
    Maps b.ram (entry mmuIdx') r →
      r = ramAddr % 2 ^ 32 ∨ s.physDirty (r / targetPageSize) = 0xff

/-- `iotlb` has the low 32 bits of the address of RAM. -/
theorem slowRamAddr_div {r : ℕ} (hmod : r % targetPageSize = 0)
    (hiotlb : (s.cpu cpu).iotlb mmuIdx (vpage vaddr % cpuTlbSize) =
      UInt32.ofNat (r + ioMemNotdirty) - UInt32.ofNat (vpage vaddr * targetPageSize)) :
    s.slowRamAddr cpu mmuIdx vaddr / targetPageSize = r % 2 ^ 32 / targetPageSize := by
  have hlt := vaddr.toNat_lt
  rw [slowRamAddr, hiotlb, UInt32.toNat_sub, UInt32.toNat_ofNat', UInt32.toNat_ofNat']
  unfold vpage ioMemNotdirty targetPageSize at *
  omega

/-- What a slow store does to the flags of its page and to the TLB of its CPU. -/
theorem slowStore_eq_some
    (hs : s.slowStore b cpu mmuIdx size val vaddr unprotect = some s') :
    ∃ flags : UInt8, ((s.cpu cpu).table mmuIdx (vpage vaddr % cpuTlbSize)).addrWrite =
        ⟨vpage vaddr, tlbNotdirty⟩ ∧ s'.physDirty = Function.update s.physDirty
        (s.slowRamAddr cpu mmuIdx vaddr / targetPageSize)
        (s.physDirty (s.slowRamAddr cpu mmuIdx vaddr / targetPageSize) ||| flags) ∧
      (s'.cpu = s.cpu ∨ flags = 0xff ∧
        (s.physDirty (s.slowRamAddr cpu mmuIdx vaddr / targetPageSize) &&& codeDirtyFlag ≠ 0 ∨
          unprotect = true) ∧
        s'.cpu = Function.update s.cpu cpu ((s.cpu cpu).tlbSetDirty vaddr)) := by
  rw [slowStore] at hs
  split at hs
  swap
  · exact nomatch hs
  next hnotdirty =>
  obtain ⟨ptr, -, rfl⟩ := map_eq_some_iff.mp hs
  refine ⟨_, hnotdirty, rfl, ?_⟩
  by_cases hff : newDirtyFlags (s.physDirty (s.slowRamAddr cpu mmuIdx vaddr / targetPageSize))
      unprotect = 0xff
  · refine .inr ⟨hff, ?_, if_pos hff⟩
    rw [newDirtyFlags] at hff
    split at hff
    next h => exact .inr h.2
    next h => exact .inl (or_nonCodeDirtyFlags_eq.mp hff)
  · exact .inl (if_neg hff)

theorem TlbInv.slowStore (h : TlbInv b s) (hsafe : StoreSafe b s cpu mmuIdx vaddr unprotect)
    (hs : s.slowStore b cpu mmuIdx size val vaddr unprotect = some s') : TlbInv b s' := by
  obtain ⟨flags, hnotdirty, hdirty, hcpu⟩ := slowStore_eq_some hs
  have hmono : ∀ p, s.physDirty p = 0xff → s'.physDirty p = 0xff := by
    intro p hp
    rw [hdirty, update_apply]
    split
    next heq => rw [← heq, hp, ff_or]
    next => exact hp
  have hold : ∀ i, CpuOk b s'.physDirty (s.cpu i) := fun i m index => (h i m index).mono hmono
  rcases hcpu with hcpu | ⟨hff, hfull, hcpu⟩
  · intro i
    rw [hcpu]
    exact hold i
  intro i
  rw [hcpu]
  by_cases hi : i = cpu
  swap
  · rw [update_of_ne hi]
    exact hold i
  rw [hi, update_self]
  intro mmuIdx' index
  show EntryOk _ _ (if _ then _ else _) _
  split
  swap
  · exact hold cpu mmuIdx' index
  next hindex =>
  subst hindex
  -- the page that is marked, and the one behind the entry in another mode
  obtain ⟨ramAddr, hmaps, hiotlb, -⟩ := h cpu mmuIdx _ (.inr (congrArg TlbAddr.flags hnotdirty))
  rw [congrArg TlbAddr.page hnotdirty] at hiotlb
  have hpage := slowRamAddr_div hmaps.1 hiotlb
  refine (hold cpu mmuIdx' _).tlbSetDirty1 fun hentry r hr => ?_
  rcases hsafe ramAddr hmaps (hpage ▸ hfull) mmuIdx' r hentry hr with hsame | hdirty'
  · rw [hsame, ← hpage, hdirty, update_self, hff, UInt8.or_comm, ff_or]
  · exact hmono _ hdirty'

end Store

/-! ### Sequences of operations -/

/-- Ranges are inside one block. -/
def TlbValid (b : TlbBoard) : TlbOp → Prop
  | .resetDirty start stop _ => InBlock b.ram start stop
  | _ => True

/-- **Operations that the code gets right.** -/
def TlbSafe (b : TlbBoard) (s : TlbState) : TlbOp → Prop
  | .resetDirty start stop _ => ResetSafe start stop
  | .store cpu mmuIdx _ _ vaddr unprotect => StoreSafe b s cpu mmuIdx vaddr unprotect
  | _ => True

/-- One operation. -/
theorem TlbInv.step (h : TlbInv b s) {op : TlbOp} (hvalid : TlbValid b op) (hsafe : TlbSafe b s op)
    (hs : tlbStep b s op = some s') : TlbInv b s' := by
  cases op with
  | tlbSetPage cpu vaddr paddr prot mmuIdx size watchpoints =>
    obtain ⟨c, hc, rfl⟩ := map_eq_some_iff.mp hs
    exact h.update cpu ((h cpu).tlbSetPage hc)
  | tlbFlush cpu =>
    cases hs
    exact h.update cpu cpuOk_tlbFlush
  | tlbFlushPage cpu addr =>
    cases hs
    exact h.update cpu ((h cpu).tlbFlushPage addr)
  | resetDirty start stop flags => exact h.resetDirty hvalid hs
  | updateDirty cpu =>
    obtain ⟨c, hc, rfl⟩ := map_eq_some_iff.mp hs
    exact h.update cpu ((h cpu).cpuTlbUpdateDirty hc)
  | store cpu mmuIdx size val vaddr unprotect => exact h.slowStore hsafe hs

/-- An entry without flags is for a page of RAM, and all dirty flags of the page are set. -/
def DirectDirty (b : TlbBoard) (s : TlbState) : Prop :=
  ∀ cpu mmuIdx index, ((s.cpu cpu).table mmuIdx index).addrWrite.flags = 0 →
    ∃ r, Maps b.ram ((s.cpu cpu).table mmuIdx index) r ∧ s.physDirty (r / targetPageSize) = 0xff

/-- A sequence all of whose operations are safe in the state that they happen in. -/
def AllSafe (b : TlbBoard) (s₀ : TlbState) (ops : List TlbOp) : Prop :=
  ∀ p op s, p ++ [op] <+: ops → Runs.run (tlbStep b) s₀ p = some s → TlbValid b op ∧ TlbSafe b s op

/-- **A direct store never escapes dirty tracking**, and clearing dirty flags is exact. -/
theorem direct_stores_tracked (b : TlbBoard) (iotlb : ℕ → ℕ → ℕ → UInt32) (mem : ℕ → UInt8)
    (ops : List TlbOp) (h : AllSafe b (initTlbState iotlb mem) ops) :
    ∀ p s, p <+: ops → Runs.run (tlbStep b) (initTlbState iotlb mem) p = some s →
      DirectDirty b s ∧ ∀ start stop flags, p ++ [.resetDirty start stop flags] <+: ops →
        ∃ s', tlbStep b s (.resetDirty start stop flags) = some s' ∧
          ResetExact s s' start stop flags := by
  have hinv : ∀ p s, p <+: ops → Runs.run (tlbStep b) (initTlbState iotlb mem) p = some s →
      TlbInv b s :=
    Runs.forall_prefix (P := fun _ s => TlbInv b s) (fun _ _ _ => entryOk_empty)
      fun p op s s' hp hs hP hop => by
        obtain ⟨hvalid, hsafe⟩ := h p op s hp hs
        exact hP.step hvalid hsafe hop
  intro p s hp hs
  refine ⟨fun cpu mmuIdx index hflags => ?_, fun start stop flags hreset => ?_⟩
  · obtain ⟨r, hr, -, hdirty⟩ := hinv p s hp hs cpu mmuIdx index (.inl hflags)
    exact ⟨r, hr, hdirty hflags⟩
  · obtain ⟨hvalid, hsafe⟩ := h p _ s hreset hs
    exact exists_resetExact s hvalid hsafe flags

/-- RAM at the bottom of the address space. -/
def ramBoard (ram : RamList) : TlbBoard where
  page := fun q => some ⟨q * targetPageSize, 0⟩
  ram := ram
  nbMmuModes := 2
  kinds := fun _ _ h => .inl (by rw [← Option.some.inj h]; exact Nat.mul_mod_left ..)

/-- Program start, with nothing in memory. -/
def blankTlb : TlbState := initTlbState (fun _ _ _ => 0) fun _ => 0

/-- A store to a page that is not dirty makes it dirty and its entry direct again. -/
theorem store_makes_entry_direct :
    ∃ ram : RamList, ram.blocks = [⟨0, 2 ^ 31, 0⟩] ∧
      ∃ s, Runs.run (tlbStep (ramBoard ram)) blankTlb
          [.tlbSetPage 0 0 0 ⟨true, true, false⟩ 0 1024 [], .resetDirty 0 1024 8,
            .store 0 0 1 7 0 false] = some s ∧
        ((s.cpu 0).table 0 0).addrWrite = ⟨0, 0⟩ ∧ DirectDirty (ramBoard ram) s := by
  refine ⟨⟨[⟨0, 2 ^ 31, 0⟩], by decide, by decide, by decide⟩, rfl, ?_⟩
  generalize hram : (RamList.mk _ _ _ _) = ram
  refine Runs.exists_of_map (fun s => ((s.cpu 0).table 0 0).addrWrite) ⟨0, 0⟩
    (by subst hram; decide +kernel)
    fun s hs heq =>
    ⟨heq, (direct_stores_tracked _ _ _ _ (Runs.Along.cond ?_) _ s List.prefix_rfl hs).1⟩
  have hmem : (⟨0, 2 ^ 31, 0⟩ : RamBlock) ∈ ram.blocks := by
    subst hram
    decide
  refine ⟨⟨trivial, trivial⟩, fun s₁ h₁ =>
    ⟨⟨⟨by decide, _, hmem, by decide, by decide⟩, by decide, by decide⟩,
    fun s₂ h₂ => ⟨⟨trivial, fun ramAddr hmaps _ m r hm hr => ?_⟩, fun _ _ => trivial⟩⟩⟩
  by_cases hzero : m = 0
  · -- its own entry, and RAM has 2 GiB
    subst hzero
    obtain rfl := hmaps.eq hr
    obtain ⟨-, ptr, hptr, -⟩ := hr
    obtain ⟨block, hblock, -⟩ := RamList.qemuGetRamPtr_eq_some.mp hptr
    obtain ⟨hin, hle, hlt⟩ := RamList.block_eq_some hblock
    subst hram
    obtain rfl := List.mem_singleton.mp hin
    exact .inl (Nat.mod_eq_of_lt (hlt.trans (by decide))).symm
  · subst hram
    cases h₁
    cases h₂
    change (TlbEntry.tlbResetDirtyRange (Function.update (fun _ _ => TlbEntry.empty) 0 _ m _) _
      _).addrWrite = _ at hm
    rw [update_of_ne hzero] at hm
    cases hm

/-- One virtual page, which is a different page of RAM in each of two modes, both without the flag
for migration: a store in the first mode makes the entry of the second direct. An empty range clears
the flags of the page that it is on, and a range of 2 GiB those of no page. -/
theorem direct_store_in_other_mode :
    ∃ ram : RamList, ram.blocks = [⟨0, 2 ^ 31, 0⟩] ∧
      (∃ s, Runs.run (tlbStep (ramBoard ram)) blankTlb
          [.resetDirty 0 2048 8, .tlbSetPage 0 0 0 ⟨true, true, false⟩ 0 1024 [],
            .tlbSetPage 0 0 1024 ⟨true, true, false⟩ 1 1024 [], .store 0 0 1 7 0 false] = some s ∧
        ((s.cpu 0).table 1 0).addrWrite = ⟨0, 0⟩ ∧ ((s.cpu 0).table 1 0).host = 1024 ∧
        s.physDirty 1 = 0xf7 ∧ ¬ DirectDirty (ramBoard ram) s) ∧
      (∃ s, tlbStep (ramBoard ram) blankTlb (.resetDirty 100 100 8) = some s ∧
        s.physDirty 0 = 0xf7 ∧ ¬ ResetExact blankTlb s 100 100 8) ∧
      ∃ s, tlbStep (ramBoard ram) blankTlb (.resetDirty 0 (2 ^ 31) 8) = some s ∧
        s.physDirty 0 = 0xff ∧ ¬ ResetExact blankTlb s 0 (2 ^ 31) 8 := by
  refine ⟨⟨[⟨0, 2 ^ 31, 0⟩], by decide, by decide, by decide⟩, rfl, ?_, ?_, ?_⟩
  · generalize hram : (RamList.mk _ _ _ _) = ram
    refine Runs.exists_of_map
      (fun s => (((s.cpu 0).table 1 0).addrWrite, ((s.cpu 0).table 1 0).host, s.physDirty 1))
      (⟨0, 0⟩, 1024, 0xf7)
      (by subst hram; decide +kernel) fun s hs heq => ?_
    obtain ⟨hwrite, hrest⟩ := Prod.mk.inj heq
    obtain ⟨hhost, hdirty⟩ := Prod.mk.inj hrest
    refine ⟨hwrite, hhost, hdirty, fun h => ?_⟩
    obtain ⟨r, ⟨-, ptr, hptr, hr⟩, hff⟩ := h 0 1 0 (by rw [hwrite])
    have h1024 : ram.qemuGetRamPtr 1024 = some 1024 := by
      subst hram
      decide +kernel
    have hp : ptr = 1024 := by omega
    subst hp
    obtain rfl := RamList.qemuGetRamPtr_inj hptr h1024
    exact absurd (hdirty.symm.trans hff) (by decide)
  · generalize hram : (RamList.mk _ _ _ _) = ram
    refine Runs.exists_of_map (·.physDirty 0) 0xf7 (by subst hram; decide +kernel)
      fun s hs hdirty => ⟨hdirty, fun h => ?_⟩
    have hsame := (h 0).2 fun ⟨a, hle, hlt, _⟩ => by omega
    exact absurd (hdirty.symm.trans hsame) (by decide)
  · generalize hram : (RamList.mk _ _ _ _) = ram
    refine Runs.exists_of_map (·.physDirty 0) 0xff (by subst hram; decide +kernel)
      fun s hs hdirty => ⟨hdirty, fun h => ?_⟩
    have hcleared := (h 0).1 ⟨0, le_rfl, by decide, rfl⟩
    exact absurd (hdirty.symm.trans hcleared) (by decide)

end VariabilityTestbed.Memory

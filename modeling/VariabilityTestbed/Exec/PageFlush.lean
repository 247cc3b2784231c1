import VariabilityTestbed.Exec.TbRange
import VariabilityTestbed.Lib.AddressMasks
import VariabilityTestbed.Memory.TlbDirty

/-!
# Flushing a page

`tlb_flush_page` has to remove what was cached for a guest page: entries of the TLB, and blocks in
`tb_jmp_cache`, which are found by virtual addresses.

An entry of the TLB is always for a page of the smallest size. If the guest page is larger, then
there may be many entries for it, and their sizes are not kept. What is kept is one block of
addresses, `tlb_flush_addr` and `tlb_flush_mask`, that has all large pages in it, and to flush an
address of it is to flush everything. `Tracked` says that this block has the large page of every
entry that there is.

The slots of `tb_jmp_cache` for the addresses of a page are 64 consecutive ones. A block that
reaches into a page starts on the page or on the one before, so it is enough to clear the slots of
those two.

The size of the guest page of an entry is kept here beside the entry, to say what is removed; the
functions of the code do not read it.
-/

namespace VariabilityTestbed.Exec

open AddressMasks Function Memory BitVec Option

/-! ### Histories -/

/-- The TLBs and the blocks, and the size that `tlb_set_page` was given for each entry, by CPU, MMU
mode and index. -/
structure Translations where
  tlb : TlbState
  blocks : TbTable
  pageSize : ℕ → ℕ → ℕ → UInt32

/-- What happens to them. -/
inductive FlushOp where
  | tlb (op : TlbOp)
  | block (op : TbOp)

/-- The address is in the region of large pages that is recorded. -/
def InRegion (c : CpuTlb) (addr : UInt32) : Prop := addr &&& c.tlbFlushMask = c.tlbFlushAddr

instance (c : CpuTlb) (addr : UInt32) : Decidable (InRegion c addr) :=
  inferInstanceAs (Decidable (_ = _))

namespace Translations

/-- What `tlb_flush` and `tlb_flush_page` do to `tb_jmp_cache`. -/
def flushBlocks (s : Translations) : TlbOp → TbTable
  | .tlbFlush cpu => s.blocks.tlbFlush cpu
  | .tlbFlushPage cpu addr =>
    if InRegion (s.tlb.cpu cpu) addr then s.blocks.tlbFlush cpu
    else s.blocks.tlbFlushJmpCache cpu (addr &&& 0xfffffc00)
  | _ => s.blocks

/-- The sizes of the guest pages of all entries. -/
def notePageSize (s : Translations) : TlbOp → ℕ → ℕ → ℕ → UInt32
  | .tlbSetPage cpu vaddr _ _ mmuIdx size _ => fun c m i =>
    if c = cpu ∧ m = mmuIdx ∧ i = vpage vaddr % cpuTlbSize then size else s.pageSize c m i
  | _ => s.pageSize

end Translations

/-- One operation. -/
def flushStep (b : TlbBoard) (z : Translate.CacheSize) (s : Translations) :
    FlushOp → Option Translations
  | .tlb op => (tlbStep b s.tlb op).map fun tlb => ⟨tlb, s.flushBlocks op, s.notePageSize op⟩
  | .block op => (tbStep z s.blocks op).map fun blocks => { s with blocks := blocks }

/-- The sizes that `tlb_set_page` is called with. -/
def FlushOp.PowerOfTwo : FlushOp → Prop
  | .tlb (.tlbSetPage _ _ _ _ _ size _) => ∃ k, size.toNat = 2 ^ k
  | _ => True

/-- CPUs after reset, and no blocks. -/
def initTranslations (iotlb : ℕ → ℕ → ℕ → UInt32) (mem : ℕ → UInt8) (blocks : TbTable)
    (pageSize : ℕ → ℕ → ℕ → UInt32) : Translations :=
  ⟨initTlbState iotlb mem, blocks, pageSize⟩

/-! ### What entries are for -/

/-- The entry translates the addresses of a page, for one kind of access at least. -/
def translates (e : TlbEntry) (p : ℕ) : Bool :=
  e.addrRead.isFor p || e.addrWrite.isFor p || e.addrCode.isFor p

/-- The address is in the guest page of a size that page `p` is part of. -/
def InGuestPage (size : UInt32) (p : ℕ) (addr : UInt32) : Prop :=
  addr.toNat / size.toNat = p * targetPageSize / size.toNat

section Entries

variable {e : TlbEntry} {p q : ℕ}

theorem isFor_eq_true {a : TlbAddr} :
    a.isFor p = true ↔ a.page = p ∧ a.flags &&& tlbInvalidMask = 0 := by
  rw [TlbAddr.isFor, decide_eq_true_eq]

@[simp] theorem isFor_invalid (p : ℕ) : TlbAddr.invalid.isFor p = false := by
  have hflags : ¬ TlbAddr.invalid.flags &&& tlbInvalidMask = 0 := by decide
  rw [TlbAddr.isFor, decide_eq_false_iff_not]
  exact fun h => hflags h.2

@[simp] theorem translates_empty (p : ℕ) : translates .empty p = false := by
  simp [translates, TlbEntry.empty]

theorem tlbFlushEntry_eq (e : TlbEntry) (p : ℕ) :
    e.tlbFlushEntry p = if translates e p then .empty else e := rfl

theorem notdirty_and_invalid : tlbNotdirty &&& tlbInvalidMask = 0 &&& tlbInvalidMask := by decide

/-- The dirty flags of an entry do not matter. -/
theorem translates_congr {w : TlbAddr} (hpage : w.page = e.addrWrite.page)
    (hflags : w.flags &&& tlbInvalidMask = e.addrWrite.flags &&& tlbInvalidMask) :
    translates { e with addrWrite := w } p = translates e p := by
  have hw : w.isFor p = e.addrWrite.isFor p := by
    rw [TlbAddr.isFor, TlbAddr.isFor, hpage, hflags]
  rw [translates, translates, hw]

theorem translates_tlbResetDirtyRange (start length : ℕ) :
    translates (e.tlbResetDirtyRange start length) p = translates e p := by
  rw [TlbEntry.tlbResetDirtyRange]
  split
  next h => exact translates_congr rfl (by rw [h.1]; exact notdirty_and_invalid)
  next => rfl

theorem translates_tlbSetDirty1 : translates (e.tlbSetDirty1 q) p = translates e p := by
  rw [TlbEntry.tlbSetDirty1]
  split
  next h => exact translates_congr (by rw [h]) (by rw [h]; exact notdirty_and_invalid.symm)
  next => rfl

theorem translates_tlbUpdateDirty {e' : TlbEntry} {ram : RamList} {physDirty : ℕ → UInt8}
    (h : e.tlbUpdateDirty ram physDirty = some e') : translates e' p = translates e p := by
  rw [TlbEntry.tlbUpdateDirty] at h
  split at h
  next hflags =>
    obtain ⟨r, -, rfl⟩ := map_eq_some_iff.mp h
    split
    · rfl
    · exact translates_congr rfl (by rw [hflags]; exact notdirty_and_invalid)
  next =>
    cases h
    rfl

theorem eq_of_translates_newEntry {b : TlbBoard} {physDirty : ℕ → UInt8} {vaddr : UInt32}
    {paddr ptr : ℕ} {prot : Prot} {watched : Bool}
    (h : translates (b.newEntry physDirty vaddr paddr prot watched ptr) p = true) :
    p = vpage vaddr := by
  have hpage : ∀ (c : Bool) (flags : ℕ),
      (if c then (⟨vpage vaddr, flags⟩ : TlbAddr) else .invalid).isFor p = true →
      p = vpage vaddr := by
    intro c flags hc
    cases c with
    | false =>
      rw [if_neg Bool.false_ne_true, isFor_invalid] at hc
      cases hc
    | true => exact (isFor_eq_true.mp hc).1.symm
  simp only [translates, TlbBoard.newEntry, Bool.or_eq_true] at h
  rcases h with (h | h) | h <;> exact hpage _ _ h

end Entries

/-! ### The region of large pages -/

theorem toBitVec_extendMask (flushAddr vaddr : UInt32) (n : ℕ) (mask : UInt32) :
    (CpuTlb.extendMask flushAddr vaddr n mask).toBitVec =
      widen (flushAddr ^^^ vaddr).toBitVec n mask.toBitVec := by
  induction n generalizing mask with
  | zero => rfl
  | succ n ih =>
    have hiff : (flushAddr ^^^ vaddr) &&& mask = 0 ↔
        (flushAddr ^^^ vaddr).toBitVec &&& mask.toBitVec = 0 := by
      rw [← UInt32.toBitVec_inj, UInt32.toBitVec_and]
      rfl
    rw [CpuTlb.extendMask, widen]
    by_cases h : (flushAddr ^^^ vaddr) &&& mask = 0
    · rw [if_pos h, if_pos (hiff.mp h)]
    · rw [if_neg h, if_neg (mt hiff.mpr h), ih]
      rfl

/-- The block of a CPU is for large pages only. -/
structure Region (c : CpuTlb) : Prop where
  upward : Upward c.tlbFlushMask.toBitVec
  empty : c.tlbFlushAddr = -1 → c.tlbFlushMask = 0

theorem inRegion_iff (c : CpuTlb) (a : UInt32) :
    InRegion c a ↔ Covers c.tlbFlushAddr.toBitVec c.tlbFlushMask.toBitVec a.toBitVec := by
  rw [InRegion, Covers, ← UInt32.toBitVec_inj, UInt32.toBitVec_and]

variable {c : CpuTlb} {vaddr size a : UInt32} {k : ℕ}

/-- A mask of large pages does not have the lowest bit, so no base of theirs is `-1`. -/
theorem and_ne_neg_one {m : BitVec 32} {size : BitVec 32} (hsize : size.toNat = 2 ^ k) (hk : 0 < k)
    (hsub : m &&& ~~~(size - 1) = m) (x : BitVec 32) : x &&& m ≠ -1 := by
  intro h
  have hbit : (x &&& m).getLsbD 0 = true := by
    rw [h]
    rfl
  rw [← hsub, getLsbD_and, getLsbD_and, getLsbD_not_sub_one hsize,
    decide_eq_false (Nat.not_le.mpr hk), Bool.and_false, Bool.and_false, Bool.and_false] at hbit
  cases hbit

/-- **`tlb_add_large_page`** keeps the block and adds a page to it. -/
theorem Region.tlbAddLargePage (hc : Region c) (hsize : size.toNat = 2 ^ k) (hk : 0 < k) :
    Region (c.tlbAddLargePage vaddr size) ∧
      (∀ a, InRegion c a → InRegion (c.tlbAddLargePage vaddr size) a) ∧
      ∀ a : UInt32, a.toNat / 2 ^ k = vaddr.toNat / 2 ^ k →
        InRegion (c.tlbAddLargePage vaddr size) a := by
  have hup := upward_not_sub_one (show size.toBitVec.toNat = 2 ^ k from hsize)
  have hpage : ∀ a : UInt32, a.toNat / 2 ^ k = vaddr.toNat / 2 ^ k →
      a.toBitVec &&& ~~~(size.toBitVec - 1) = vaddr.toBitVec &&& ~~~(size.toBitVec - 1) := fun a =>
    (and_not_sub_one_eq_iff (show size.toBitVec.toNat = 2 ^ k from hsize)).mpr
  rw [CpuTlb.tlbAddLargePage]
  dsimp only
  split
  next hnone =>
    -- there was no large page
    refine ⟨⟨hup, fun h => ?_⟩, fun a ha => ?_, fun a ha => ?_⟩
    · exact absurd (congrArg UInt32.toBitVec h) (and_ne_neg_one hsize hk BitVec.and_self _)
    · rw [InRegion, hc.empty hnone, hnone, UInt32.and_zero] at ha
      cases ha
    · exact UInt32.toBitVec_inj.mp (hpage a ha)
  next =>
    set mask := CpuTlb.extendMask c.tlbFlushAddr vaddr 32 (~~~(size - 1) &&& c.tlbFlushMask)
    have hmask : mask.toBitVec = widen (c.tlbFlushAddr ^^^ vaddr).toBitVec 32
        (~~~(size.toBitVec - 1) &&& c.tlbFlushMask.toBitVec) := toBitVec_extendMask ..
    obtain ⟨hup', hsub⟩ := (hup.and hc.upward).widen (c.tlbFlushAddr ^^^ vaddr).toBitVec 32
    have hend := and_widen_eq_zero (c.tlbFlushAddr ^^^ vaddr).toBitVec
      (~~~(size.toBitVec - 1) &&& c.tlbFlushMask.toBitVec)
    rw [← hmask] at hup' hsub hend
    -- the new mask has bits of both of the old ones only
    have hsize' : mask.toBitVec &&& ~~~(size.toBitVec - 1) = mask.toBitVec := by
      rw [← hsub, BitVec.and_assoc, BitVec.and_assoc, BitVec.and_comm c.tlbFlushMask.toBitVec,
        ← BitVec.and_assoc (~~~(size.toBitVec - 1)), BitVec.and_self]
    have hold : mask.toBitVec &&& c.tlbFlushMask.toBitVec = mask.toBitVec := by
      rw [← hsub, BitVec.and_assoc, BitVec.and_assoc, BitVec.and_self]
    refine ⟨⟨hup', fun h => ?_⟩, fun a ha => ?_, fun a ha => ?_⟩
    · exact absurd (congrArg UInt32.toBitVec h) (and_ne_neg_one hsize hk hsize' _)
    · rw [inRegion_iff] at ha ⊢
      exact ha.and hold
    · -- the page agrees with its address, and the address with the old base
      have hagree : c.tlbFlushAddr.toBitVec &&& mask.toBitVec =
          vaddr.toBitVec &&& mask.toBitVec := by
        rw [UInt32.toBitVec_xor] at hend
        refine eq_of_getLsbD_eq fun i _ => ?_
        have hbit := congrArg (fun b => b.getLsbD i) hend
        simp only [getLsbD_and, getLsbD_xor] at hbit ⊢
        revert hbit
        cases c.tlbFlushAddr.toBitVec.getLsbD i <;> cases vaddr.toBitVec.getLsbD i <;> simp
      rw [inRegion_iff, Covers]
      show a.toBitVec &&& mask.toBitVec = c.tlbFlushAddr.toBitVec &&& mask.toBitVec
      rw [← and_and_of_sub hsize', hpage a ha, and_and_of_sub hsize', hagree]

/-! ### What is tracked -/

/-- For every entry there is what `tlb_flush_page` goes by: it is for one page, at the index of that
page, and if its guest page is a large one, then that is in the region of large pages. -/
structure Tracked (c : CpuTlb) (size : ℕ → ℕ → UInt32) : Prop where
  region : Region c
  index : ∀ m i p, translates (c.table m i) p = true → i = p % cpuTlbSize
  unique : ∀ m i p q, translates (c.table m i) p = true → translates (c.table m i) q = true → p = q
  large : ∀ m i p, translates (c.table m i) p = true →
    (size m i).toNat = targetPageSize ∨ ∀ a, InGuestPage (size m i) p a → InRegion c a

section Tracked

variable {c' : CpuTlb} {sizes sizes' : ℕ → ℕ → UInt32}

theorem region_of_mask_eq_zero (h : c.tlbFlushMask = 0) : Region c := by
  refine ⟨fun i _ hi => ?_, fun _ => h⟩
  have hzero : c.tlbFlushMask.toBitVec = 0#32 := by rw [h]; rfl
  rw [hzero, getLsbD_zero] at hi
  cases hi

/-- Entries that do not translate anything need nothing. -/
theorem tracked_of_not_translates (hregion : Region c)
    (h : ∀ m i p, translates (c.table m i) p = false) : Tracked c sizes := by
  have hno : ∀ {m i p} {P : Prop}, translates (c.table m i) p = true → P := fun ht =>
    absurd ((h _ _ _).symm.trans ht) nofun
  exact ⟨hregion, fun _ _ _ ht => hno ht, fun _ _ _ _ ht => hno ht, fun _ _ _ ht => hno ht⟩

/-- Entries may go, and their dirty flags may change. -/
theorem Tracked.congr (h : Tracked c sizes) (haddr : c'.tlbFlushAddr = c.tlbFlushAddr)
    (hmask : c'.tlbFlushMask = c.tlbFlushMask)
    (htable : ∀ m i p, translates (c'.table m i) p = true → translates (c.table m i) p = true) :
    Tracked c' sizes := by
  refine ⟨⟨hmask ▸ h.region.upward, ?_⟩, fun m i p ht => h.index m i p (htable m i p ht),
    fun m i p q hp hq => h.unique m i p q (htable m i p hp) (htable m i q hq), fun m i p ht => ?_⟩
  · rw [haddr, hmask]
    exact h.region.empty
  · simp only [InRegion, haddr, hmask]
    exact h.large m i p (htable m i p ht)

theorem translates_of_tlbFlushEntry {e : TlbEntry} {p q : ℕ}
    (h : translates (e.tlbFlushEntry q) p = true) :
    translates e p = true ∧ translates e q = false := by
  rw [tlbFlushEntry_eq] at h
  split at h
  · rw [translates_empty] at h
    cases h
  next hq => exact ⟨h, Bool.eq_false_iff.mpr hq⟩

theorem Tracked.tlbFlushPage (h : Tracked c sizes) (addr : UInt32) :
    Tracked (c.tlbFlushPage addr) sizes := by
  rw [CpuTlb.tlbFlushPage]
  split
  · exact tracked_of_not_translates (region_of_mask_eq_zero rfl) fun _ _ => translates_empty
  · refine h.congr rfl rfl fun m i p ht => ?_
    dsimp only at ht
    split at ht
    · exact (translates_of_tlbFlushEntry ht).1
    · exact ht

theorem size_of_ge (hsize : size.toNat = 2 ^ k) (hge : targetPageSize ≤ size.toNat) : 10 ≤ k := by
  by_contra hlt
  have hpow : 2 ^ k ≤ 2 ^ 9 := Nat.pow_le_pow_right (by decide) (by omega)
  rw [hsize] at hge
  unfold targetPageSize at hge
  omega

/-- **`tlb_set_page`.** -/
theorem Tracked.tlbSetPage (h : Tracked c sizes) {b : TlbBoard} {physDirty : ℕ → UInt8}
    {paddr mmuIdx : ℕ} {prot : Prot} {watchpoints : List Watchpoint} (hsize : size.toNat = 2 ^ k)
    (hset : c.tlbSetPage b physDirty vaddr paddr prot mmuIdx size watchpoints = some c')
    (hnew : sizes' mmuIdx (vpage vaddr % cpuTlbSize) = size)
    (hsame : ∀ m i, ¬ (m = mmuIdx ∧ i = vpage vaddr % cpuTlbSize) → sizes' m i = sizes m i) :
    Tracked c' sizes' := by
  rw [CpuTlb.tlbSetPage] at hset
  split at hset
  · cases hset
  next hguard =>
    obtain ⟨haligned, hge⟩ := not_or.mp hguard
    have hk := size_of_ge hsize (Nat.not_lt.mp hge)
    obtain ⟨ptr, -, rfl⟩ := map_eq_some_iff.mp hset
    set c₁ := if size.toNat = targetPageSize then c else c.tlbAddLargePage vaddr size with hc₁
    -- the region keeps what it had and has the new page, if that is a large one
    have hregion : Region c₁ ∧ c₁.table = c.table ∧ (∀ a, InRegion c a → InRegion c₁ a) ∧
        (size.toNat = targetPageSize ∨ ∀ a, InGuestPage size (vpage vaddr) a → InRegion c₁ a) := by
      rw [hc₁]
      split
      next hsmall => exact ⟨h.region, rfl, fun _ => id, .inl hsmall⟩
      next =>
        obtain ⟨hr, hkeep, hadd⟩ := h.region.tlbAddLargePage hsize (by omega : 0 < k)
        refine ⟨hr, ?_, hkeep, .inr fun a ha => hadd a ?_⟩
        · rw [CpuTlb.tlbAddLargePage]
          dsimp only
          split <;> rfl
        · have hpage : vpage vaddr * targetPageSize = vaddr.toNat :=
            Nat.div_mul_cancel (Nat.dvd_of_mod_eq_zero (Classical.not_not.mp haligned))
          rw [InGuestPage, hpage, hsize] at ha
          exact ha
    obtain ⟨hr, htable, hkeep, hlarge⟩ := hregion
    set e := b.newEntry physDirty vaddr paddr prot (isWatched watchpoints vaddr prot) ptr
    have hentry : ∀ m i p, translates (update c₁.table mmuIdx
        (update (c₁.table mmuIdx) (vpage vaddr % cpuTlbSize) e) m i) p = true →
        (m = mmuIdx ∧ i = vpage vaddr % cpuTlbSize) ∧ p = vpage vaddr ∨
          ¬ (m = mmuIdx ∧ i = vpage vaddr % cpuTlbSize) ∧ translates (c.table m i) p = true := by
      intro m i p ht
      by_cases hm : m = mmuIdx
      · subst hm
        rw [update_self] at ht
        by_cases hi : i = vpage vaddr % cpuTlbSize
        · subst hi
          rw [update_self] at ht
          exact .inl ⟨⟨rfl, rfl⟩, eq_of_translates_newEntry ht⟩
        · rw [update_of_ne hi, htable] at ht
          exact .inr ⟨fun heq => hi heq.2, ht⟩
      · rw [update_of_ne hm, htable] at ht
        exact .inr ⟨fun heq => hm heq.1, ht⟩
    refine ⟨⟨hr.upward, hr.empty⟩, fun m i p ht => ?_, fun m i p q hp hq => ?_, fun m i p ht => ?_⟩
    · rcases hentry m i p ht with ⟨⟨-, hi⟩, rfl⟩ | ⟨-, ht⟩
      · exact hi
      · exact h.index m i p ht
    · rcases hentry m i p hp with ⟨hat, rfl⟩ | ⟨hnot, hp⟩ <;>
        rcases hentry m i q hq with ⟨hat', rfl⟩ | ⟨hnot', hq⟩
      · rfl
      · exact absurd hat hnot'
      · exact absurd hat' hnot
      · exact h.unique m i p q hp hq
    · rcases hentry m i p ht with ⟨⟨rfl, rfl⟩, rfl⟩ | ⟨hnot, ht⟩
      · rw [hnew]
        exact hlarge
      · rw [hsame m i hnot]
        exact (h.large m i p ht).imp_right fun hin a ha => hkeep a (hin a ha)

end Tracked

/-! ### The jump cache -/

section JmpCache

variable {pc addr : UInt32}

theorem toNat_tbJmpCacheHashPage (pc : UInt32) : (tbJmpCacheHashPage pc).toNat =
    ((pc.toNat ^^^ (pc.toNat >>> 4)) >>> 4) &&& 4032 := by
  rw [tbJmpCacheHashPage, tbJmpCacheMix, UInt32.toNat_and, UInt32.toNat_shiftRight,
    UInt32.toNat_xor, UInt32.toNat_shiftRight]
  rfl

/-- The bits that choose the slots of a page are bits of its number. -/
theorem tbJmpCacheHashPage_congr (h : virtPage pc = virtPage addr) :
    tbJmpCacheHashPage pc = tbJmpCacheHashPage addr := by
  have hbit : ∀ i, 10 ≤ i → pc.toNat.testBit i = addr.toNat.testBit i := by
    intro i hi
    have hdiv := congrArg (fun n => n.testBit (i - 10)) h
    rw [virtPage, virtPage, show targetPageSize = 2 ^ 10 from rfl] at hdiv
    simp only [Nat.testBit_div_two_pow, Nat.sub_add_cancel hi] at hdiv
    exact hdiv
  have hlow : ∀ i < 6, Nat.testBit 4032 i = false := by decide
  rw [← UInt32.toNat_inj, toNat_tbJmpCacheHashPage, toNat_tbJmpCacheHashPage]
  refine Nat.eq_of_testBit_eq fun i => ?_
  simp only [Nat.testBit_and, Nat.testBit_shiftRight, Nat.testBit_xor]
  by_cases hi : i < 6
  · rw [hlow i hi, Bool.and_false, Bool.and_false]
  · rw [hbit (4 + i) (by omega), hbit (4 + (4 + i)) (by omega)]

/-- The slot of an address is one of the 64 of its page. -/
theorem tbJmpCacheHashFunc_mem (pc : UInt32) :
    tbJmpCacheHashPage pc ≤ tbJmpCacheHashFunc pc ∧
      tbJmpCacheHashFunc pc < tbJmpCacheHashPage pc + 64 := by
  have hpage := toNat_tbJmpCacheHashPage pc
  set P := (tbJmpCacheHashPage pc).toNat
  have hle : P ≤ 4032 := hpage ▸ Nat.and_le_right
  have hmod : P % 2 ^ 6 = 0 := by
    rw [hpage, Nat.and_mod_two_pow]
    exact Nat.and_zero _
  have hlow : (tbJmpCacheMix pc).toNat &&& 63 < 2 ^ 6 := Nat.and_lt_two_pow _ (by decide)
  have hfunc : (tbJmpCacheHashFunc pc).toNat = P + ((tbJmpCacheMix pc).toNat &&& 63) := by
    rw [tbJmpCacheHashFunc, UInt32.toNat_or, UInt32.toNat_and]
    have hor := Nat.two_pow_add_eq_or_of_lt hlow (P / 2 ^ 6)
    rw [Nat.mul_div_cancel' (Nat.dvd_of_mod_eq_zero hmod)] at hor
    exact hor.symm
  rw [UInt32.le_iff_toNat_le, UInt32.lt_iff_toNat_lt, UInt32.toNat_add, hfunc]
  have h64 : (64 : UInt32).toNat = 64 := rfl
  omega

/-- Some byte of the code of a block is on a virtual page. -/
def TbFields.OverlapsPage (t : TbFields) (p : ℕ) : Prop :=
  ∃ i < t.size, virtPage (t.pc + UInt32.ofNat i) = p

/-- A block that overlaps a page starts on it or on the page before. -/
theorem TbFields.Sound.page_of_overlapsPage {t : TbFields} (ht : t.Sound) {p : ℕ}
    (h : t.OverlapsPage p) : virtPage t.pc = p ∨ virtPageAfter t.pc = p := by
  obtain ⟨i, hi, rfl⟩ := h
  have hle := ht.size_le
  have hpc := t.pc.toNat_lt
  have hsum : (t.pc + UInt32.ofNat i).toNat = (t.pc.toNat + i) % 2 ^ 32 := by
    rw [UInt32.toNat_add, UInt32.toNat_ofNat']
    omega
  simp only [virtPage, virtPageAfter, pageOffset, targetPageSize, hsum] at *
  omega

/-- `addr & TARGET_PAGE_MASK` is on the page of `addr`. -/
theorem virtPage_and_mask (addr : UInt32) : virtPage (addr &&& 0xfffffc00) = virtPage addr := by
  have hhigh : ∀ i < 22, Nat.testBit 0xfffffc00 (i + 10) = true := by decide
  rw [virtPage, virtPage, show targetPageSize = 2 ^ 10 from rfl, UInt32.toNat_and]
  refine Nat.eq_of_testBit_eq fun i => ?_
  rw [Nat.testBit_div_two_pow, Nat.testBit_div_two_pow, Nat.testBit_and]
  by_cases hi : i < 22
  · rw [show (0xfffffc00 : UInt32).toNat = 0xfffffc00 from rfl, hhigh i hi, Bool.and_true]
  · have hlt : addr.toNat < 2 ^ (i + 10) :=
      addr.toNat_lt.trans_le (Nat.pow_le_pow_right (by decide) (by omega))
    rw [Nat.testBit_lt_two_pow hlt, Bool.false_and]

theorem virtPageAfter_sub (addr : UInt32) : virtPageAfter (addr - 1024) = virtPage addr := by
  have hlt := addr.toNat_lt
  have hsub : (addr - 1024).toNat = (addr.toNat + (2 ^ 32 - 1024)) % 2 ^ 32 := by
    rw [UInt32.toNat_sub, show (1024 : UInt32).toNat = 1024 from rfl, Nat.add_comm]
  simp only [virtPageAfter, virtPage, targetPageSize, hsub]
  omega

theorem virtPageAfter_inj {a b : UInt32} (h : virtPageAfter a = virtPageAfter b) :
    virtPage a = virtPage b := by
  have ha := a.toNat_lt
  have hb := b.toNat_lt
  simp only [virtPageAfter, virtPage, targetPageSize] at *
  omega

/-- **`tlb_flush_jmp_cache`** leaves no block that overlaps the page. -/
theorem TbTable.AllIndexed.not_overlapsPage {s : TbTable} (hs : s.AllIndexed) {cpu t : ℕ}
    {h : UInt32} (hh : (s.tlbFlushJmpCache cpu (addr &&& 0xfffffc00)).jmpCache cpu h = some t) :
    ¬ (s.tbs t).OverlapsPage (virtPage addr) := by
  obtain ⟨hashLists, pageLists, hs⟩ := hs
  intro hover
  simp only [TbTable.tlbFlushJmpCache, update_self] at hh
  split at hh
  · cases hh
  next hnot =>
    obtain ⟨hlive, rfl⟩ := hs.cache cpu h t hh
    obtain ⟨hle, hlt⟩ := tbJmpCacheHashFunc_mem (s.tbs t).pc
    refine hnot ?_
    simp only [Bool.or_eq_true, Bool.and_eq_true, decide_eq_true_eq]
    rcases (hs.sound t hlive).page_of_overlapsPage hover with hpage | hpage
    · rw [← virtPage_and_mask addr] at hpage
      rw [← tbJmpCacheHashPage_congr hpage]
      exact .inr ⟨hle, hlt⟩
    · rw [← virtPage_and_mask addr, ← virtPageAfter_sub] at hpage
      rw [← tbJmpCacheHashPage_congr (virtPageAfter_inj hpage)]
      exact .inl ⟨hle, hlt⟩

end JmpCache

/-! ### Every state that can be reached -/

/-- All entries of all CPUs are tracked, and the blocks are found where they are looked for. -/
structure Translations.Inv (s : Translations) : Prop where
  tracked : ∀ cpu, Tracked (s.tlb.cpu cpu) (s.pageSize cpu)
  indexed : s.blocks.AllIndexed

section Reachable

variable {s s' : Translations} {b : TlbBoard} {z : Translate.CacheSize}

theorem tracked_update {cpus : ℕ → CpuTlb} {sizes : ℕ → ℕ → ℕ → UInt32}
    (h : ∀ cpu, Tracked (cpus cpu) (sizes cpu)) {cpu : ℕ} {c : CpuTlb} (hc : Tracked c (sizes cpu))
    (i : ℕ) : Tracked (update cpus cpu c i) (sizes i) :=
  (forall_update_iff cpus fun i c => Tracked c (sizes i)).mpr ⟨hc, fun i _ => h i⟩ i

theorem Translations.Inv.tracked_tlbStep (hs : s.Inv) {op : TlbOp} {tlb : TlbState}
    (h : tlbStep b s.tlb op = some tlb) (hpow : (FlushOp.tlb op).PowerOfTwo) (cpu : ℕ) :
    Tracked (tlb.cpu cpu) (s.notePageSize op cpu) := by
  cases op with
  | tlbSetPage i vaddr paddr prot mmuIdx size watchpoints =>
    obtain ⟨c, hset, rfl⟩ := map_eq_some_iff.mp h
    obtain ⟨k, hk⟩ := hpow
    by_cases hi : cpu = i
    · subst hi
      simp only [update_self]
      refine (hs.tracked cpu).tlbSetPage hk hset ?_ fun m j hnot => ?_
      · simp [Translations.notePageSize]
      · simp [Translations.notePageSize, hnot]
    · simp only [update_of_ne hi]
      have hsame : s.notePageSize (.tlbSetPage i vaddr paddr prot mmuIdx size watchpoints) cpu =
          s.pageSize cpu := by
        funext m j
        simp [Translations.notePageSize, hi]
      rw [hsame]
      exact hs.tracked cpu
  | tlbFlush i =>
    cases h
    exact tracked_update hs.tracked
      (tracked_of_not_translates (region_of_mask_eq_zero rfl) fun _ _ => translates_empty) cpu
  | tlbFlushPage i addr =>
    cases h
    exact tracked_update hs.tracked ((hs.tracked i).tlbFlushPage addr) cpu
  | resetDirty start stop flags =>
    rw [tlbStep, TlbState.cpuPhysicalMemoryResetDirty] at h
    split at h
    · cases h
    split at h
    · cases h
      exact hs.tracked cpu
    · obtain ⟨start1, -, h⟩ := bind_eq_some_iff.mp h
      obtain ⟨last, -, h⟩ := bind_eq_some_iff.mp h
      split at h
      · cases h
        refine (hs.tracked cpu).congr rfl rfl fun m j p ht => ?_
        rwa [translates_tlbResetDirtyRange] at ht
      · cases h
  | updateDirty i =>
    obtain ⟨c, hupd, rfl⟩ := map_eq_some_iff.mp h
    rw [CpuTlb.cpuTlbUpdateDirty] at hupd
    dsimp only at hupd
    split at hupd
    · cases hupd
      refine tracked_update hs.tracked ?_ cpu
      refine (hs.tracked i).congr rfl rfl fun m j p ht => ?_
      dsimp only at ht
      cases he : ((s.tlb.cpu i).table m j).tlbUpdateDirty b.ram s.tlb.physDirty with
      | none => rwa [he] at ht
      | some e =>
        rw [he, getD_some, translates_tlbUpdateDirty he] at ht
        exact ht
    · cases hupd
  | store i mmuIdx size val vaddr unprotect =>
    rw [tlbStep, TlbState.slowStore] at h
    split at h
    · obtain ⟨ptr, -, rfl⟩ := map_eq_some_iff.mp h
      dsimp only
      split
      · refine tracked_update hs.tracked ?_ cpu
        refine (hs.tracked i).congr rfl rfl fun m j p ht => ?_
        rw [CpuTlb.tlbSetDirty] at ht
        dsimp only at ht
        split at ht
        · rwa [translates_tlbSetDirty1] at ht
        · exact ht
      · exact hs.tracked cpu
    · cases h

theorem Translations.Inv.indexed_flushBlocks (hs : s.Inv) (z : Translate.CacheSize) (op : TlbOp) :
    (s.flushBlocks op).AllIndexed := by
  have hflush : ∀ cpu, (s.blocks.tlbFlush cpu).AllIndexed := fun cpu =>
    hs.indexed.step (show tbStep z s.blocks (.tlbFlush cpu) = _ from rfl)
  cases op with
  | tlbFlush cpu => exact hflush cpu
  | tlbFlushPage cpu addr =>
    rw [Translations.flushBlocks]
    split
    · exact hflush cpu
    · exact hs.indexed.step
        (show tbStep z s.blocks (.tlbFlushJmpCache cpu (addr &&& 0xfffffc00)) = _ from rfl)
  | _ => exact hs.indexed

theorem Translations.Inv.step (hs : s.Inv) {op : FlushOp} (hpow : op.PowerOfTwo)
    (h : flushStep b z s op = some s') : s'.Inv := by
  cases op with
  | tlb op =>
    obtain ⟨tlb, hstep, rfl⟩ := map_eq_some_iff.mp h
    exact ⟨hs.tracked_tlbStep hstep hpow, hs.indexed_flushBlocks z op⟩
  | block op =>
    obtain ⟨blocks, hstep, rfl⟩ := map_eq_some_iff.mp h
    exact ⟨hs.tracked, hs.indexed.step hstep⟩

variable {iotlb : ℕ → ℕ → ℕ → UInt32} {mem : ℕ → UInt8} {pageSize : ℕ → ℕ → ℕ → UInt32}
variable {tbs : ℕ → TbFields} {hashNext : ℕ → Option ℕ} {pageNext : PageNode → Option PageNode}
variable {jumps : JmpState} {ops : List FlushOp}

theorem inv_of_flush_run (h : Runs.run (flushStep b z)
      (initTranslations iotlb mem (initTbTable tbs hashNext pageNext jumps) pageSize) ops = some s)
    (hpow : ∀ op ∈ ops, op.PowerOfTwo) : s.Inv := by
  refine Runs.forall_prefix (P := fun _ s => s.Inv) ?_ ?_ ops s (List.prefix_refl ops) h
  · exact ⟨fun _ => tracked_of_not_translates (region_of_mask_eq_zero rfl)
      fun _ _ => translates_empty, _, _, TbTable.indexed_of_live_eq_empty rfl (fun _ => rfl)
      (fun _ => rfl) fun _ _ => rfl⟩
  · intro p op s s' hp _ hs hstep
    refine hs.step (hpow op (hp.subset ?_)) hstep
    exact List.mem_append_right _ (.head _)

/-- **Flushing a page.** After any history in which the sizes of pages are powers of two, flushing
an address returns and leaves no entry whose guest page has the address in it, and no block in the
jump cache that overlaps its page. Outside of the region of large pages it leaves the entries of
other pages as they are. -/
theorem page_flush_complete (h : Runs.run (flushStep b z)
      (initTranslations iotlb mem (initTbTable tbs hashNext pageNext jumps) pageSize) ops = some s)
    (hpow : ∀ op ∈ ops, op.PowerOfTwo) (cpu : ℕ) (addr : UInt32) :
    ∃ s', flushStep b z s (.tlb (.tlbFlushPage cpu addr)) = some s' ∧
      (∀ mmuIdx index p, translates ((s'.tlb.cpu cpu).table mmuIdx index) p = true →
        ¬ InGuestPage (s'.pageSize cpu mmuIdx index) p addr) ∧
      (∀ slot t, s'.blocks.jmpCache cpu slot = some t →
        ¬ (s'.blocks.tbs t).OverlapsPage (virtPage addr)) ∧
      (¬ InRegion (s.tlb.cpu cpu) addr →
        ∀ mmuIdx index p, translates ((s.tlb.cpu cpu).table mmuIdx index) p = true →
          p ≠ virtPage addr →
            (s'.tlb.cpu cpu).table mmuIdx index = (s.tlb.cpu cpu).table mmuIdx index) := by
  have hs := inv_of_flush_run h hpow
  have htracked := hs.tracked cpu
  refine ⟨_, rfl, ?_⟩
  simp only [update_self, Translations.notePageSize, Translations.flushBlocks]
  by_cases hin : InRegion (s.tlb.cpu cpu) addr
  · -- everything is flushed
    have hflush : (s.tlb.cpu cpu).tlbFlushPage addr = (s.tlb.cpu cpu).tlbFlush := if_pos hin
    rw [hflush, if_pos hin]
    refine ⟨fun m i p ht => ?_, fun slot t hslot => ?_, absurd hin⟩
    · rw [show (s.tlb.cpu cpu).tlbFlush.table m i = .empty from rfl, translates_empty] at ht
      cases ht
    · simp only [TbTable.tlbFlush, update_self] at hslot
      cases hslot
  · have hflush : ∀ m i, ((s.tlb.cpu cpu).tlbFlushPage addr).table m i =
        if i = vpage addr % cpuTlbSize then
          ((s.tlb.cpu cpu).table m i).tlbFlushEntry (vpage addr)
        else (s.tlb.cpu cpu).table m i := by
      intro m i
      rw [CpuTlb.tlbFlushPage]
      exact congrArg (fun c => CpuTlb.table c m i) (if_neg hin)
    rw [if_neg hin]
    refine ⟨fun m i p ht hguest => ?_, fun slot t hslot => hs.indexed.not_overlapsPage hslot,
      fun _ m i p ht hp => ?_⟩
    · rw [hflush] at ht
      have hold : translates ((s.tlb.cpu cpu).table m i) p = true := by
        split at ht
        · exact (translates_of_tlbFlushEntry ht).1
        · exact ht
      rcases htracked.large m i p hold with hsmall | hlarge
      · -- a page of the smallest size is looked for at its index
        obtain rfl : p = vpage addr := by
          rw [InGuestPage, hsmall, Nat.mul_div_cancel _ (by decide : 0 < targetPageSize)] at hguest
          exact hguest.symm
        rw [if_pos (htracked.index m i _ hold)] at ht
        rw [(translates_of_tlbFlushEntry ht).2] at hold
        cases hold
      · exact hin (hlarge addr hguest)
    · rw [hflush]
      split
      · rw [tlbFlushEntry_eq, if_neg]
        exact fun hq => hp (htracked.unique m i p _ ht hq)
      · rfl

/-- CPUs after reset, and an array of blocks without contents. -/
def blankTranslations : Translations :=
  initTranslations (fun _ _ _ => 0) (fun _ => 0)
    (initTbTable (fun _ => ⟨0, 0, 0, 0, fun _ => none, 0⟩) (fun _ => none) (fun _ => none)
      ⟨fun _ => none, fun _ _ => .absent, ∅⟩) fun _ _ _ => 0

/-- A page of 4 KiB, a page of the smallest size, and a block that starts in front of it. Flushing
the small page leaves the entry of the large one as it is. -/
theorem page_flush_beside_large_page :
    ∃ ram : RamList, ram.blocks = [⟨0, 2 ^ 31, 0⟩] ∧
      ∃ s s', Runs.run (flushStep (ramBoard ram) ⟨1, 64, 128⟩) blankTranslations
          [.tlb (.tlbSetPage 0 0x1000 0 ⟨true, true, true⟩ 0 4096 []),
            .tlb (.tlbSetPage 0 0x4000 0 ⟨true, true, true⟩ 0 1024 []),
            .block (.tbFindSlow some 0 0x3ffe 0 0
              (some ⟨4, 16, fun _ => false, by decide, by decide⟩))] = some s ∧
        translates ((s.tlb.cpu 0).table 0 4) 4 = true ∧
        translates ((s.tlb.cpu 0).table 0 16) 16 = true ∧
        s.blocks.jmpCache 0 (tbJmpCacheHashFunc 0x3ffe) = some 0 ∧
        flushStep (ramBoard ram) ⟨1, 64, 128⟩ s (.tlb (.tlbFlushPage 0 0x4000)) = some s' ∧
        (s'.tlb.cpu 0).table 0 4 = (s.tlb.cpu 0).table 0 4 ∧
        (∀ mmuIdx index p, translates ((s'.tlb.cpu 0).table mmuIdx index) p = true →
          ¬ InGuestPage (s'.pageSize 0 mmuIdx index) p 0x4000) ∧
        ∀ slot t, s'.blocks.jmpCache 0 slot = some t →
          ¬ (s'.blocks.tbs t).OverlapsPage 16 := by
  refine ⟨⟨[⟨0, 2 ^ 31, 0⟩], by decide, by decide, by decide⟩, rfl, ?_⟩
  generalize hram : (RamList.mk _ _ _ _) = ram
  simp only [exists_and_left]
  refine Runs.exists_of_map (fun s =>
    (translates ((s.tlb.cpu 0).table 0 4) 4, translates ((s.tlb.cpu 0).table 0 16) 16,
      s.blocks.jmpCache 0 (tbJmpCacheHashFunc 0x3ffe), decide (InRegion (s.tlb.cpu 0) 0x4000)))
    (true, true, some 0, false) (by subst hram; decide +kernel) fun s hs heq => ?_
  simp only [Prod.mk.injEq, decide_eq_false_iff_not] at heq
  obtain ⟨hlarge, hsmall, hcached, hout⟩ := heq
  obtain ⟨s', hstep, hentries, hblocks, hkeep⟩ := page_flush_complete hs (by
    simp only [List.forall_mem_cons, List.not_mem_nil, false_implies, implies_true, and_true]
    exact ⟨⟨12, rfl⟩, ⟨10, rfl⟩, trivial⟩) 0 0x4000
  exact ⟨hlarge, hsmall, hcached, s', hstep, hkeep hout 0 4 4 hlarge (by decide), hentries, hblocks⟩

end Reachable

end VariabilityTestbed.Exec

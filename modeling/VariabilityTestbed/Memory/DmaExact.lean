import VariabilityTestbed.Memory.Dma

/-!
# A mapping and a copy

Does a device that maps guest memory see and change the same as a device that copies? Both loops go
through RAM in pieces and do the same to each piece, so the answer is in how they choose the pieces.

* `cpu_physical_memory_map` looks at the RAM address of its first page only. It counts the pages of
  RAM that follow in the guest, and hands out as many bytes of the block, whether the pages follow
  each other in RAM or not.
* `cpu_physical_memory_unmap` has the RAM address of the start, not of a page. Its pieces are a page
  long and begin where the buffer begins, and a piece that lies on two pages is taken to be on the
  first.
-/

namespace VariabilityTestbed.Memory

open Bytes Exec List Option Function

variable {δ : Type} {b : Board δ} {s s' : Machine δ} {addr len raddr ptr k l : ℕ} {buf : List UInt8}

/-! ### Pages -/

theorem chunk_pos (h : 0 < len) : 0 < chunk addr len := by
  have : addr % targetPageSize < targetPageSize := Nat.mod_lt _ (by decide)
  rw [chunk]
  omega

theorem chunk_le : chunk addr len ≤ len := Nat.min_le_right ..

theorem add_lt_of_lt_chunk (h : k < chunk addr len) :
    addr % targetPageSize + k < targetPageSize := by
  rw [chunk] at h
  omega

theorem div_add_of_lt (h : addr % targetPageSize + k < targetPageSize) :
    (addr + k) / targetPageSize = addr / targetPageSize ∧
      (addr + k) % targetPageSize = addr % targetPageSize + k := by
  unfold targetPageSize at *
  omega

namespace Board

/-- The page of an address is RAM. -/
def IsRam (b : Board δ) (addr : ℕ) : Prop := ioType (b.pd addr) = 0

theorem pd_add (h : addr % targetPageSize + k < targetPageSize) : b.pd (addr + k) = b.pd addr := by
  rw [pd, pd, pageOf, pageOf, (div_add_of_lt h).1]

theorem ramAddr_add (h : addr % targetPageSize + k < targetPageSize) :
    b.ramAddr (addr + k) = b.ramAddr addr + k := by
  rw [ramAddr, ramAddr, pd_add h, (div_add_of_lt h).2, Nat.add_assoc]

theorem ramAddr_div (b : Board δ) (addr : ℕ) :
    b.ramAddr addr / targetPageSize * targetPageSize =
      b.pd addr / targetPageSize * targetPageSize := by
  have : addr % targetPageSize < targetPageSize := Nat.mod_lt _ (by decide)
  rw [ramAddr]
  unfold targetPageSize at *
  omega

theorem ramAddr_mod (b : Board δ) (addr : ℕ) :
    b.ramAddr addr % targetPageSize = addr % targetPageSize := by
  rw [ramAddr]
  unfold targetPageSize at *
  omega

end Board

/-! ### What a write leaves to be done -/

namespace Machine

/-- Invalidating code and setting flags do not look at memory. -/
theorem wrote_store (s : Machine δ) (ptr : ℕ) (buf : List UInt8) (addr l : ℕ) :
    (s.store ptr buf).wrote addr l = (s.wrote addr l).map fun s => s.store ptr buf := by
  have hdirty : (s.store ptr buf).isDirty addr = s.isDirty addr := rfl
  rw [wrote, wrote, hdirty]
  cases s.isDirty addr with
  | true => rfl
  | false =>
    simp only [Bool.false_eq_true, if_false, tbInvalidate, Option.map_map]
    rfl

theorem wrote_eq_some (h : s.wrote addr l = some s') :
    s'.mem = s.mem ∧ (s' = s ∧ s.physDirty (addr / targetPageSize) = 0xff ∨
      s'.physDirty = Function.update s.physDirty (addr / targetPageSize)
        (s.physDirty (addr / targetPageSize) ||| nonCodeDirtyFlags)) := by
  rw [wrote] at h
  split at h
  next hdirty =>
    cases h
    exact ⟨rfl, .inl ⟨rfl, by simpa [isDirty] using hdirty⟩⟩
  next =>
    simp only [tbInvalidate, Option.map_map, map_eq_some_iff] at h
    obtain ⟨tbs, -, rfl⟩ := h
    exact ⟨rfl, .inr rfl⟩

theorem store_append (s : Machine δ) (ptr : ℕ) (buf buf' : List UInt8) :
    (s.store ptr buf).store (ptr + buf.length) buf' = s.store ptr (buf ++ buf') := by
  simp only [store, storeBytes_append]

theorem store_nil (s : Machine δ) (ptr : ℕ) : s.store ptr [] = s := by
  simp only [store, storeBytes_nil]

end Machine

/-! ### The loops over RAM -/

namespace Board

open Machine

/-- All of a range is RAM. -/
def AllRam (b : Board δ) (addr len : ℕ) : Prop := ∀ k < len, b.IsRam (addr + k)

theorem AllRam.first (h : b.AllRam addr len) (hlen : 0 < len) : b.IsRam addr := h 0 hlen

theorem AllRam.drop (h : b.AllRam addr len) (l : ℕ) : b.AllRam (addr + l) (len - l) := by
  intro k hk
  rw [Nat.add_assoc]
  exact h (l + k) (by omega)

theorem writeLoop_ram (fuel : ℕ) (hnil : buf ≠ []) (hram : b.IsRam addr) :
    b.writeLoop (fuel + 1) s addr buf = (b.ram.qemuGetRamPtr (b.ramAddr addr)).bind fun ptr =>
      ((s.store ptr (buf.take (chunk addr buf.length))).wrote (b.ramAddr addr)
        (chunk addr buf.length)).bind fun s =>
          b.writeLoop fuel s (addr + chunk addr buf.length) (buf.drop (chunk addr buf.length)) := by
  rw [writeLoop, if_neg hnil, if_neg fun h => h hram]
  rfl

theorem unmapLoop_succ (fuel : ℕ) (hlen : len ≠ 0) :
    unmapLoop (fuel + 1) s raddr len = (s.wrote raddr (min targetPageSize len)).bind fun s =>
      unmapLoop fuel s (raddr + min targetPageSize len) (len - min targetPageSize len) := by
  rw [unmapLoop, if_neg hlen]
  rfl

theorem readLoop_ram (fuel : ℕ) (hlen : len ≠ 0) (hram : b.IsRam addr) :
    b.readLoop (fuel + 1) s addr len =
      (b.ram.qemuGetRamPtr (b.pd addr / targetPageSize * targetPageSize)).bind fun ptr =>
        (b.readLoop fuel s (addr + chunk addr len) (len - chunk addr len)).map fun (s', buf) =>
          (s', loadBytes s.mem (ptr + addr % targetPageSize) (chunk addr len) ++ buf) := by
  have hnotIo : ¬ (ioType (b.pd addr) > ioMemRom ∧ isRomd (b.pd addr) = false) := by
    rw [show ioType (b.pd addr) = 0 from hram]
    exact fun h => absurd h.1 (by decide)
  rw [readLoop, if_neg hlen, if_neg hnotIo]
  cases b.ram.qemuGetRamPtr (b.pd addr / targetPageSize * targetPageSize) with
  | none => rfl
  | some ptr =>
    simp only [bind_eq_bind, bind_some]
    cases b.readLoop fuel s (addr + chunk addr len) (len - chunk addr len) <;> rfl

/-- The range is RAM, `raddr` is where it lies in RAM, and `ptr` is where it lies in the host. -/
structure Contiguous (b : Board δ) (addr len raddr ptr : ℕ) : Prop where
  ram : b.AllRam addr len
  addr : ∀ k < len, b.ramAddr (addr + k) = raddr + k
  host : ∀ k < len, b.ram.qemuGetRamPtr (raddr + k) = some (ptr + k)

theorem Contiguous.drop (h : b.Contiguous addr len raddr ptr) (hl : l ≤ len) :
    b.Contiguous (addr + l) (len - l) (raddr + l) (ptr + l) where
  ram := h.ram.drop l
  addr := fun k hk => by
    rw [Nat.add_assoc, Nat.add_assoc]
    exact h.addr (l + k) (by omega)
  host := fun k hk => by
    rw [Nat.add_assoc, Nat.add_assoc]
    exact h.host (l + k) (by omega)

theorem Contiguous.first (h : b.Contiguous addr len raddr ptr) (hlen : 0 < len) :
    b.IsRam addr ∧ b.ramAddr addr = raddr ∧ b.ram.qemuGetRamPtr raddr = some ptr :=
  ⟨h.ram 0 hlen, h.addr 0 hlen, h.host 0 hlen⟩

/-- **Copying and unmapping are one.** If the buffer begins with a page or ends with the first one,
the pieces of the two loops are the same, and the bytes may as well be there before. -/
theorem writeLoop_eq_unmapLoop (fuel : ℕ) (hfuel : buf.length ≤ fuel)
    (h : b.Contiguous addr buf.length raddr ptr)
    (halign : addr % targetPageSize = 0 ∨ addr % targetPageSize + buf.length ≤ targetPageSize) :
    b.writeLoop fuel s addr buf = unmapLoop fuel (s.store ptr buf) raddr buf.length := by
  induction fuel generalizing s addr raddr ptr buf with
  | zero =>
    obtain rfl : buf = [] := length_eq_zero_iff.mp (by omega)
    rw [store_nil]
    rfl
  | succ fuel ih =>
    by_cases hnil : buf = []
    · subst hnil
      rw [store_nil]
      rfl
    · have hpos : 0 < buf.length := length_pos_iff.mpr hnil
      obtain ⟨hram, hraddr, hptr⟩ := h.first hpos
      have hchunk : chunk addr buf.length = min targetPageSize buf.length := by
        rw [chunk]
        omega
      have hle : min targetPageSize buf.length ≤ buf.length := Nat.min_le_right ..
      have hlpos : 0 < min targetPageSize buf.length := Nat.lt_min.mpr ⟨by decide, hpos⟩
      have htake : (buf.take (min targetPageSize buf.length)).length =
          min targetPageSize buf.length := by rw [length_take]; omega
      rw [writeLoop_ram fuel hnil hram, hchunk, hraddr, hptr, bind_some,
        unmapLoop_succ fuel hpos.ne']
      generalize min targetPageSize buf.length = l at *
      have hsplit : s.store ptr buf = (s.store ptr (buf.take l)).store (ptr + l) (buf.drop l) := by
        have := store_append s ptr (buf.take l) (buf.drop l)
        rw [htake, take_append_drop] at this
        exact this.symm
      rw [hsplit, wrote_store (s.store ptr (buf.take l))]
      cases (s.store ptr (buf.take l)).wrote raddr l with
      | none => rfl
      | some s₁ =>
        show b.writeLoop fuel s₁ (addr + l) (buf.drop l) =
          unmapLoop fuel (s₁.store (ptr + l) (buf.drop l)) (raddr + l) (buf.length - l)
        have hlen : (buf.drop l).length = buf.length - l := length_drop
        rw [← hlen]
        refine ih (by omega) (hlen ▸ h.drop hle) ?_
        rw [chunk] at hchunk
        unfold targetPageSize at *
        omega

theorem readLoop_eq (fuel : ℕ) (hfuel : len ≤ fuel) (h : b.Contiguous addr len raddr ptr) :
    b.readLoop fuel s addr len = some (s, loadBytes s.mem ptr len) := by
  induction fuel generalizing addr raddr ptr len with
  | zero =>
    obtain rfl : len = 0 := by omega
    rfl
  | succ fuel ih =>
    by_cases hzero : len = 0
    · subst hzero
      rfl
    · have hpos : 0 < len := by omega
      obtain ⟨hram, hraddr, hptr⟩ := h.first hpos
      have hle : chunk addr len ≤ len := chunk_le
      have hlpos : 0 < chunk addr len := chunk_pos hpos
      obtain ⟨p, hp, hpoff⟩ := RamList.qemuGetRamPtr_page (hraddr ▸ hptr)
      rw [ramAddr_div] at hp
      rw [ramAddr_mod] at hpoff
      have hadd := loadBytes_add s.mem ptr (chunk addr len) (len - chunk addr len)
      rw [Nat.add_sub_cancel' hle] at hadd
      rw [readLoop_ram fuel hzero hram, hp, bind_some, ih (by omega) (h.drop hle), hpoff, hadd]
      rfl

/-! ### Where copied bytes come from and go to

These need no more than that the range is RAM. -/

section Anywhere

/-- Each byte of a copy is that of its own RAM address. -/
theorem readLoop_getElem? (fuel : ℕ) (hfuel : len ≤ fuel) (hram : b.AllRam addr len)
    (h : b.readLoop fuel s addr len = some (s', buf)) (hk : k < len) :
    ∃ p, b.ram.qemuGetRamPtr (b.ramAddr (addr + k)) = some p ∧ buf[k]? = some (s.mem p) := by
  induction fuel generalizing addr len k buf with
  | zero => omega
  | succ fuel ih =>
    have hzero : len ≠ 0 := by omega
    rw [readLoop_ram fuel hzero (hram.first (by omega)), bind_eq_some_iff] at h
    obtain ⟨p, hp, h⟩ := h
    obtain ⟨⟨s₁, buf₁⟩, hrec, heq⟩ := map_eq_some_iff.mp h
    cases heq
    have hle : chunk addr len ≤ len := chunk_le
    have hpos : 0 < chunk addr len := chunk_pos (by omega)
    by_cases hlt : k < chunk addr len
    · -- this piece
      have hoff := add_lt_of_lt_chunk hlt
      have hstart : b.pd addr / targetPageSize * targetPageSize % targetPageSize = 0 :=
        Nat.mul_mod_left ..
      have hget := RamList.qemuGetRamPtr_add_of_lt hp (k := addr % targetPageSize + k) (by omega)
      refine ⟨p + (addr % targetPageSize + k), ?_, ?_⟩
      · rw [ramAddr_add hoff, ramAddr, Nat.add_assoc]
        exact hget
      · rw [getElem?_append_left (by simpa using hlt), getElem?_loadBytes hlt, Nat.add_assoc]
    · obtain ⟨q, hq, hbuf⟩ := ih (by omega) (hram.drop (chunk addr len)) hrec
        (k := k - chunk addr len) (by omega)
      have hadd : addr + chunk addr len + (k - chunk addr len) = addr + k := by omega
      refine ⟨q, hadd ▸ hq, ?_⟩
      rw [getElem?_append_right (by simpa using Nat.not_lt.mp hlt), length_loadBytes, hbuf]

/-- A byte of memory that a copy changes is that of one of the RAM addresses. -/
theorem writeLoop_mem (fuel : ℕ) (hram : b.AllRam addr buf.length)
    (h : b.writeLoop fuel s addr buf = some s') (q : ℕ) :
    s'.mem q = s.mem q ∨
      ∃ k, buf[k]? = some (s'.mem q) ∧ b.ram.qemuGetRamPtr (b.ramAddr (addr + k)) = some q := by
  induction fuel generalizing addr s buf with
  | zero =>
    cases h
    exact .inl rfl
  | succ fuel ih =>
    by_cases hnil : buf = []
    · rw [writeLoop, if_pos hnil] at h
      cases h
      exact .inl rfl
    have hpos : 0 < buf.length := length_pos_iff.mpr hnil
    rw [writeLoop_ram fuel hnil (hram.first hpos), bind_eq_some_iff] at h
    obtain ⟨p, hp, h⟩ := h
    obtain ⟨s₁, hwrote, h⟩ := bind_eq_some_iff.mp h
    rcases ih (by rw [length_drop]; exact hram.drop _) h with heq | ⟨k, hk, hq⟩
    · rw [heq, (wrote_eq_some hwrote).1]
      rcases storeBytes_eq_or s.mem p (buf.take (chunk addr buf.length)) q with hold | ⟨k, hk, rfl⟩
      · exact .inl hold
      · -- a byte of this piece
        have hlt : k < chunk addr buf.length := by
          have := (List.getElem?_eq_some_iff.mp hk).1
          rw [length_take] at this
          omega
        have hoff := add_lt_of_lt_chunk hlt
        have hmod := b.ramAddr_mod addr
        refine .inr ⟨k, ?_, ?_⟩
        · rw [getElem?_take_of_lt hlt] at hk
          exact hk
        · rw [ramAddr_add hoff]
          exact RamList.qemuGetRamPtr_add_of_lt hp (by omega)
    · refine .inr ⟨chunk addr buf.length + k, ?_, ?_⟩
      · rw [← hk, getElem?_drop]
      · rw [← Nat.add_assoc]
        exact hq

/-- The flags that a write sets are set. -/
def Marked (flags : UInt8) : Prop := flags ||| nonCodeDirtyFlags = flags

theorem marked_or (flags : UInt8) : Marked (flags ||| nonCodeDirtyFlags) := by
  rw [Marked, UInt8.or_assoc, UInt8.or_self]

theorem marked_of_wrote (h : s.wrote raddr l = some s') :
    Marked (s'.physDirty (raddr / targetPageSize)) ∧
      ∀ p, Marked (s.physDirty p) → Marked (s'.physDirty p) := by
  rcases (wrote_eq_some h).2 with ⟨rfl, hff⟩ | hdirty
  · refine ⟨?_, fun _ h => h⟩
    rw [hff]
    exact (by decide : (0xff : UInt8) ||| nonCodeDirtyFlags = 0xff)
  · rw [hdirty]
    refine ⟨by rw [update_self]; exact marked_or _, fun p hp => ?_⟩
    by_cases hpage : p = raddr / targetPageSize
    · rw [hpage, update_self]
      exact marked_or _
    · rwa [update_of_ne hpage]

/-- A copy marks the pages of all of its RAM addresses. -/
theorem writeLoop_marked (fuel : ℕ) (hfuel : buf.length ≤ fuel)
    (hram : b.AllRam addr buf.length) (h : b.writeLoop fuel s addr buf = some s') :
    (∀ p, Marked (s.physDirty p) → Marked (s'.physDirty p)) ∧
      ∀ k < buf.length, Marked (s'.physDirty (b.ramAddr (addr + k) / targetPageSize)) := by
  induction fuel generalizing addr s buf with
  | zero =>
    cases h
    exact ⟨fun _ h => h, fun k hk => by omega⟩
  | succ fuel ih =>
    by_cases hnil : buf = []
    · rw [writeLoop, if_pos hnil] at h
      cases h
      exact ⟨fun _ h => h, fun k hk => by simp [hnil] at hk⟩
    have hpos : 0 < buf.length := length_pos_iff.mpr hnil
    have hcpos : 0 < chunk addr buf.length := chunk_pos hpos
    rw [writeLoop_ram fuel hnil (hram.first hpos), bind_eq_some_iff] at h
    obtain ⟨p, -, h⟩ := h
    obtain ⟨s₁, hwrote, h⟩ := bind_eq_some_iff.mp h
    have hlen : (buf.drop (chunk addr buf.length)).length = buf.length - chunk addr buf.length :=
      length_drop
    obtain ⟨hkeep, hmarked⟩ := ih (by omega) (hlen ▸ hram.drop _) h
    obtain ⟨hfirst, hold⟩ := marked_of_wrote hwrote
    refine ⟨fun p hp => hkeep p (hold p hp), fun k hk => ?_⟩
    by_cases hlt : k < chunk addr buf.length
    · have hoff := add_lt_of_lt_chunk hlt
      have := b.ramAddr_mod addr
      rw [ramAddr_add hoff, (div_add_of_lt (by omega)).1]
      exact hkeep _ hfirst
    · have hadd : addr + chunk addr buf.length + (k - chunk addr buf.length) = addr + k := by omega
      exact hadd ▸ hmarked (k - chunk addr buf.length) (by omega)

end Anywhere

/-! ### What is mapped -/

/-- If it begins with RAM, the loop counts RAM up to the first page that is not. -/
theorem mapLoop_eq (busy : Bool) (fuel addr len todo raddr : ℕ) (hfuel : len ≤ fuel)
    (h : todo ≠ 0 ∨ 0 < len ∧ b.IsRam addr) :
    ∃ t, b.mapLoop busy fuel addr len todo raddr =
        .ram (if todo = 0 then b.ramAddr addr else raddr) (todo + t) ∧
      ∀ k, k < t ↔ k < len ∧ b.AllRam addr (k + 1) := by
  induction fuel generalizing addr len todo raddr with
  | zero =>
    have htodo : todo ≠ 0 := by omega
    rw [if_neg htodo]
    exact ⟨0, rfl, fun k => by omega⟩
  | succ fuel ih =>
    rw [mapLoop]
    by_cases hzero : len = 0
    · have htodo : todo ≠ 0 := by omega
      rw [if_pos hzero, if_neg htodo]
      exact ⟨0, rfl, fun k => by omega⟩
    rw [if_neg hzero]
    by_cases hio : ioType (b.pd addr) ≠ 0
    · have htodo : todo ≠ 0 := h.resolve_right fun h => hio h.2
      rw [if_pos hio, if_pos (.inl htodo), if_neg htodo]
      exact ⟨0, rfl, fun k => ⟨fun h => absurd h (Nat.not_lt_zero k),
        fun h => absurd (h.2.first (Nat.succ_pos k)) hio⟩⟩
    rw [if_neg hio]
    have hpos : 0 < chunk addr len := chunk_pos (by omega)
    have hle : chunk addr len ≤ len := chunk_le
    have hpiece : ∀ j < chunk addr len, b.IsRam (addr + j) := by
      intro j hj
      rw [IsRam, pd_add (add_lt_of_lt_chunk hj)]
      exact not_not.mp hio
    obtain ⟨t, heq, ht⟩ := ih (addr + chunk addr len) (len - chunk addr len)
      (todo + chunk addr len) (if todo = 0 then b.ramAddr addr else raddr) (by omega)
      (.inl (by omega))
    rw [heq, if_neg (by omega : todo + chunk addr len ≠ 0)]
    refine ⟨chunk addr len + t, by rw [Nat.add_assoc], fun k => ?_⟩
    by_cases hlt : k < chunk addr len
    · exact ⟨fun _ => ⟨by omega, fun j hj => hpiece j (by omega)⟩, fun _ => by omega⟩
    · -- behind the first page, with the rest of the loop
      have hiff := ht (k - chunk addr len)
      have hsub : k + 1 - chunk addr len = k - chunk addr len + 1 := by omega
      constructor
      · intro hk
        obtain ⟨hlen, hall⟩ := hiff.mp (by omega)
        refine ⟨by omega, fun j hj => ?_⟩
        by_cases hjlt : j < chunk addr len
        · exact hpiece j hjlt
        · have hadd : addr + chunk addr len + (j - chunk addr len) = addr + j := by omega
          exact hadd ▸ hall (j - chunk addr len) (by omega)
      · rintro ⟨hlen, hall⟩
        have := hiff.mpr ⟨by omega, hsub ▸ hall.drop (chunk addr len)⟩
        omega

/-- A byte of the buffer: all pages up to it are RAM, and the block that the first byte is in goes
on for long enough. -/
def Mapped (b : Board δ) (addr len k : ℕ) : Prop :=
  k < len ∧ b.AllRam addr (k + 1) ∧
    ∃ block, b.ram.block (b.ramAddr addr) = some block ∧ block.Contains (b.ramAddr addr + k)

theorem Mapped.mono (h : b.Mapped addr len k) {j : ℕ} (hj : j ≤ k) : b.Mapped addr len j := by
  obtain ⟨hlen, hall, block, hblock, -, hlt⟩ := h
  obtain ⟨-, hle, -⟩ := RamList.block_eq_some hblock
  exact ⟨by omega, fun i hi => hall i (by omega), block, hblock, by omega, by omega⟩

theorem mapLoop_ram (busy : Bool) (hram : b.IsRam addr) (hlen : 0 < len) :
    ∃ t, b.mapLoop busy len addr len 0 (2 ^ 64 - 1) = .ram (b.ramAddr addr) t ∧ t ≠ 0 ∧
      ∀ k, k < t ↔ k < len ∧ b.AllRam addr (k + 1) := by
  obtain ⟨t, heq, ht⟩ := mapLoop_eq busy len addr len 0 (2 ^ 64 - 1) le_rfl (.inr ⟨hlen, hram⟩)
  rw [if_pos rfl, Nat.zero_add] at heq
  have htpos : 0 < t := (ht 0).mpr ⟨hlen, fun k hk => by
    obtain rfl : k = 0 := by omega
    exact hram⟩
  exact ⟨t, heq, htpos.ne', ht⟩

/-- **The buffer**, when the first page is RAM. -/
theorem cpuPhysicalMemoryMap_ram (hram : b.IsRam addr) (s : DmaState δ) (isWrite : Bool)
    {block : RamBlock} (hblock : b.ram.block (b.ramAddr addr) = some block) (hlen : 0 < len) :
    ∃ n, b.cpuPhysicalMemoryMap s addr len isWrite =
        some (s, some (.host (block.host + (b.ramAddr addr - block.offset)), n)) ∧
      ∀ k, k < n ↔ b.Mapped addr len k := by
  obtain ⟨t, heq, htpos, ht⟩ := mapLoop_ram s.bounce.isSome hram hlen
  obtain ⟨-, hle, hlt⟩ := RamList.block_eq_some hblock
  rw [cpuPhysicalMemoryMap, heq]
  simp only [RamList.qemuRamPtrLength, if_neg htpos, hblock, map_some]
  refine ⟨_, rfl, fun k => ?_⟩
  have hk := ht k
  constructor
  · intro h
    obtain ⟨hlen, hall⟩ := hk.mp (by split at h <;> omega)
    exact ⟨hlen, hall, block, hblock, by omega, by split at h <;> omega⟩
  · rintro ⟨hlen, hall, block', hblock', -, hend⟩
    obtain rfl := some.inj (hblock'.symm.trans hblock)
    have := hk.mpr ⟨hlen, hall⟩
    split <;> omega

/-- Without a block there is no buffer. -/
theorem cpuPhysicalMemoryMap_no_block (hram : b.IsRam addr) (s : DmaState δ) (isWrite : Bool)
    (hblock : b.ram.block (b.ramAddr addr) = none) (hlen : 0 < len) :
    b.cpuPhysicalMemoryMap s addr len isWrite = none := by
  obtain ⟨t, heq, htpos, -⟩ := mapLoop_ram s.bounce.isSome hram hlen
  rw [cpuPhysicalMemoryMap, heq]
  simp only [RamList.qemuRamPtrLength, if_neg htpos, hblock, map_none]

/-- For nothing there is no buffer. -/
theorem cpuPhysicalMemoryMap_zero (b : Board δ) (s : DmaState δ) (addr : ℕ) (isWrite : Bool) :
    b.cpuPhysicalMemoryMap s addr 0 isWrite = some (s, none) := rfl

theorem length_stP (l val : ℕ) : (stP l val).length = l := by simp [stP]

theorem accessSize_pos (l addr1 : ℕ) : 0 < accessSize l addr1 := by
  rw [accessSize]
  split
  · decide
  · split <;> decide

theorem accessSize_le (addr1 : ℕ) (hl : 0 < l) : accessSize l addr1 ≤ l := by
  rw [accessSize]
  split
  next h => exact h.1
  next =>
    split
    next h => exact h.1
    next => exact hl

/-- A copy has as many bytes as were asked for. -/
theorem length_of_readLoop (fuel : ℕ) (hfuel : len ≤ fuel)
    (h : b.readLoop fuel s addr len = some (s', buf)) : buf.length = len := by
  induction fuel generalizing s addr len buf with
  | zero =>
    cases h
    exact (by omega : len = 0).symm
  | succ fuel ih =>
    by_cases hzero : len = 0
    · rw [readLoop, if_pos hzero] at h
      cases h
      exact hzero.symm
    have hpos : 0 < chunk addr len := chunk_pos (by omega)
    have hle : chunk addr len ≤ len := chunk_le
    rw [readLoop, if_neg hzero] at h
    split at h
    next =>
      have hspos := accessSize_pos (chunk addr len) (b.ioAddr addr)
      have hsle := accessSize_le (b.ioAddr addr) hpos
      simp only [bind_eq_bind, bind_eq_some_iff, Option.pure_def] at h
      obtain ⟨⟨s₁, val⟩, -, ⟨s₂, buf₁⟩, hrec, heq⟩ := h
      cases heq
      rw [length_append, length_stP, ih (by omega) hrec]
      omega
    next =>
      simp only [bind_eq_bind, bind_eq_some_iff, Option.pure_def] at h
      obtain ⟨p, -, ⟨s₂, buf₁⟩, hrec, heq⟩ := h
      cases heq
      rw [length_append, length_loadBytes, ih (by omega) hrec]
      omega

end Board

/-! ### Mapping and copying -/

open Board

/-- RAM, dirty flags and translated code. -/
def Machine.visible (s : Machine δ) : (ℕ → UInt8) × (ℕ → UInt8) × TbTable :=
  (s.mem, s.physDirty, s.tbs)

/-- **A mapping is as good as a copy.** Whenever there is a buffer, it is not longer than what was
asked for. For a read it holds what a copy gives. For a write, storing bytes in it and unmapping it
leaves what a copy of those bytes leaves. -/
def DmaAgrees (b : Board δ) (addr len : ℕ) (isWrite : Bool) : Prop :=
  ∀ s s' buffer n, b.cpuPhysicalMemoryMap s addr len isWrite = some (s', some (buffer, n)) →
    n ≤ len ∧
    (isWrite = false →
      (b.cpuPhysicalMemoryRead s.machine addr n).map Prod.snd = some (s'.loadBuffer buffer n)) ∧
    (isWrite = true → ∀ bytes, bytes.length ≤ n →
      (b.cpuPhysicalMemoryUnmap (s'.storeBuffer buffer bytes) buffer true bytes.length).map
          (fun s => s.machine.visible) =
        (b.cpuPhysicalMemoryWrite s.machine addr bytes).map Machine.visible)

/-- A bounce buffer is filled and emptied by copying. -/
theorem dmaAgrees_of_not_ram (isWrite : Bool) (hram : ¬ b.IsRam addr) :
    DmaAgrees b addr len isWrite := by
  intro s s' buffer n hmap
  cases len with
  | zero =>
    rw [cpuPhysicalMemoryMap_zero] at hmap
    exact nomatch (Prod.mk.inj (some.inj hmap)).2
  | succ len =>
    have hloop : b.mapLoop s.bounce.isSome (len + 1) addr (len + 1) 0 (2 ^ 64 - 1) =
        if s.bounce.isSome then .ram (2 ^ 64 - 1) 0 else .bounce (chunk addr (len + 1)) := by
      have hio : ioType (b.pd addr) ≠ 0 := hram
      rw [mapLoop, if_neg (Nat.succ_ne_zero len), if_pos hio]
      simp
    have hle : chunk addr (len + 1) ≤ len + 1 := chunk_le
    have hint : chunk addr (len + 1) < 2 ^ 31 := by
      rw [chunk]
      unfold targetPageSize
      omega
    rw [cpuPhysicalMemoryMap, hloop] at hmap
    cases hbusy : s.bounce.isSome with
    | true =>
      rw [hbusy, if_pos rfl] at hmap
      exact nomatch (Prod.mk.inj (some.inj hmap)).2
    | false =>
      rw [hbusy] at hmap
      cases isWrite with
      | true =>
        obtain ⟨rfl, hbuf⟩ := Prod.mk.inj (some.inj hmap)
        cases hbuf
        refine ⟨hle, nofun, fun _ bytes _ => ?_⟩
        simp only [DmaState.storeBuffer, cpuPhysicalMemoryUnmap, map_some, drop_nil,
          append_nil, bind_eq_bind, bind_some, if_true, take_length]
        cases b.cpuPhysicalMemoryWrite s.machine addr bytes <;> rfl
      | false =>
        simp only [Bool.false_eq_true, if_false, bind_eq_bind, bind_eq_some_iff, Option.pure_def]
          at hmap
        obtain ⟨⟨machine, data⟩, hread, heq⟩ := hmap
        obtain ⟨rfl, hbuf⟩ := Prod.mk.inj (some.inj heq)
        cases hbuf
        refine ⟨hle, fun _ => ?_, nofun⟩
        have hlength : data.length = chunk addr (len + 1) := by
          rw [cpuPhysicalMemoryRead, if_pos hint] at hread
          exact length_of_readLoop _ le_rfl hread
        rw [hread, map_some, DmaState.loadBuffer, map_some, ← hlength, take_length]
        rfl

/-- What the code gets right: the bytes of the buffer lie in RAM as they lie in the guest, their
number is an `int`, and a write begins with a page or ends with the first one. -/
def MapSound (b : Board δ) (addr len : ℕ) (isWrite : Bool) : Prop :=
  b.IsRam addr → ∀ k, b.Mapped addr len k →
    b.ramAddr (addr + k) = b.ramAddr addr + k ∧ k + 1 < 2 ^ 31 ∧
      (isWrite = true → addr % targetPageSize = 0 ∨ addr % targetPageSize + k < targetPageSize)

/-- The bytes up to one that is mapped, if they lie in RAM as they lie in the guest. -/
theorem contiguous_of_mapped {block : RamBlock} (hblock : b.ram.block (b.ramAddr addr) = some block)
    {n : ℕ} (hn : ∀ k < n, b.Mapped addr len k ∧ b.ramAddr (addr + k) = b.ramAddr addr + k) :
    b.Contiguous addr n (b.ramAddr addr) (block.host + (b.ramAddr addr - block.offset)) where
  ram := fun k hk => (hn k hk).1.2.1 k (Nat.lt_succ_self k)
  addr := fun k hk => (hn k hk).2
  host := fun k hk => by
    obtain ⟨-, -, block', hblock', hcontains⟩ := (hn k hk).1
    obtain rfl := some.inj (hblock'.symm.trans hblock)
    exact RamList.qemuGetRamPtr_add hblock hcontains

theorem dmaAgrees_of_mapSound {isWrite : Bool} (hram : b.IsRam addr)
    (h : MapSound b addr len isWrite) : DmaAgrees b addr len isWrite := by
  intro s s' buffer n hmap
  rcases Nat.eq_zero_or_pos len with rfl | hlen
  · rw [cpuPhysicalMemoryMap_zero] at hmap
    exact nomatch (Prod.mk.inj (some.inj hmap)).2
  cases hblock : b.ram.block (b.ramAddr addr) with
  | none =>
    rw [cpuPhysicalMemoryMap_no_block hram s isWrite hblock hlen] at hmap
    exact nomatch hmap
  | some block =>
    obtain ⟨n', heq, hn⟩ := cpuPhysicalMemoryMap_ram hram s isWrite hblock hlen
    rw [heq] at hmap
    obtain ⟨rfl, hbuf⟩ := Prod.mk.inj (some.inj hmap)
    obtain ⟨rfl, rfl⟩ := Prod.mk.inj (some.inj hbuf)
    have hle : n' ≤ len := by
      by_contra hlt
      exact absurd ((hn len).mp (by omega)).1 (lt_irrefl len)
    have hint : ∀ m ≤ n', m < 2 ^ 31 := by
      intro m hm
      rcases Nat.eq_zero_or_pos m with rfl | hpos
      · decide
      · have := (h hram (m - 1) ((hn _).mp (by omega))).2.1
        omega
    have hcont : ∀ m ≤ n', b.Contiguous addr m (b.ramAddr addr)
        (block.host + (b.ramAddr addr - block.offset)) := fun m hm =>
      contiguous_of_mapped hblock fun k hk =>
        ⟨(hn k).mp (by omega), (h hram k ((hn k).mp (by omega))).1⟩
    refine ⟨hle, fun _ => ?_, fun hw bytes hbytes => ?_⟩
    · rw [cpuPhysicalMemoryRead, if_pos (hint n' le_rfl), readLoop_eq n' le_rfl (hcont n' le_rfl)]
      rfl
    · have halign : addr % targetPageSize = 0 ∨
          addr % targetPageSize + bytes.length ≤ targetPageSize := by
        have hoff : addr % targetPageSize < targetPageSize := Nat.mod_lt _ (by decide)
        rcases Nat.eq_zero_or_pos bytes.length with hzero | hpos
        · omega
        · have := (h hram (bytes.length - 1) ((hn _).mp (by omega))).2.2 hw
          omega
      have haddr : b.ram.qemuRamAddrFromHost (block.host + (b.ramAddr addr - block.offset)) =
          some (b.ramAddr addr) :=
        RamList.qemuRamAddrFromHost_of_qemuGetRamPtr
          (RamList.qemuGetRamPtr_eq_some.mpr ⟨block, hblock, rfl⟩)
      rw [cpuPhysicalMemoryWrite, if_pos (hint _ hbytes),
        writeLoop_eq_unmapLoop _ le_rfl (hcont _ hbytes) halign]
      simp only [DmaState.storeBuffer, cpuPhysicalMemoryUnmap, if_true, haddr,
        bind_eq_bind, bind_some]
      cases unmapLoop bytes.length
        (s.machine.store (block.host + (b.ramAddr addr - block.offset)) bytes) (b.ramAddr addr)
        bytes.length <;> rfl

/-! ### What goes wrong otherwise -/

section Agrees

variable {block : RamBlock}

/-- What agreement says of the loop, for a write up to a byte that is mapped. -/
theorem DmaAgrees.write_eq (h : DmaAgrees b addr len true) (hram : b.IsRam addr)
    (hblock : b.ram.block (b.ramAddr addr) = some block) (hk : b.Mapped addr len k)
    (s : Machine δ) {bytes : List UInt8} (hbytes : bytes.length = k + 1) :
    (unmapLoop (k + 1) (s.store (block.host + (b.ramAddr addr - block.offset)) bytes)
        (b.ramAddr addr) (k + 1)).map Machine.visible =
      (b.cpuPhysicalMemoryWrite s addr bytes).map Machine.visible := by
  obtain ⟨n, hmap, hn⟩ :=
    cpuPhysicalMemoryMap_ram hram ⟨s, none⟩ true hblock (Nat.zero_lt_of_lt hk.1)
  have hkn := (hn k).mpr hk
  rw [← (h _ _ _ _ hmap).2.2 rfl bytes (by omega), hbytes]
  have haddr := RamList.qemuRamAddrFromHost_of_qemuGetRamPtr
    (RamList.qemuGetRamPtr_eq_some.mpr ⟨block, hblock, rfl⟩)
  simp only [DmaState.storeBuffer, cpuPhysicalMemoryUnmap, if_true, haddr, bind_eq_bind, bind_some]
  cases unmapLoop (k + 1) (s.store (block.host + (b.ramAddr addr - block.offset)) bytes)
    (b.ramAddr addr) (k + 1) <;> rfl

/-- What agreement says of a read. -/
theorem DmaAgrees.read_eq (h : DmaAgrees b addr len false) (hram : b.IsRam addr)
    (hblock : b.ram.block (b.ramAddr addr) = some block) (hk : b.Mapped addr len k)
    (s : Machine δ) : ∃ n, k < n ∧ b.AllRam addr n ∧
      (b.cpuPhysicalMemoryRead s addr n).map Prod.snd =
        some (loadBytes s.mem (block.host + (b.ramAddr addr - block.offset)) n) := by
  obtain ⟨n, hmap, hn⟩ :=
    cpuPhysicalMemoryMap_ram hram ⟨s, none⟩ false hblock (Nat.zero_lt_of_lt hk.1)
  refine ⟨n, (hn k).mpr hk, fun j hj => ?_, (h _ _ _ _ hmap).2.1 rfl⟩
  exact ((hn j).mp hj).2.1 j (Nat.lt_succ_self j)

end Agrees

/-- A machine without translated code, with the same flags on every page. -/
def blank [Inhabited δ] (mem : ℕ → UInt8) (flags : UInt8) : Machine δ where
  mem := mem
  physDirty := fun _ => flags
  tbs := initTbTable (fun _ => ⟨0, 0, 0, 0, fun _ => none, 0⟩) (fun _ => none) (fun _ => none)
    ⟨fun _ => none, fun _ _ => .absent, ∅⟩
  currentTb := none
  device := default

/-- Dirty pages are left alone. -/
theorem unmapLoop_of_dirty (fuel : ℕ) (h : ∀ p, s.physDirty p = 0xff) :
    unmapLoop fuel s raddr len = some s := by
  induction fuel generalizing raddr len with
  | zero => rfl
  | succ fuel ih =>
    have hwrote : s.wrote raddr (min targetPageSize len) = some s := if_pos (decide_eq_true (h _))
    by_cases hzero : len = 0
    · rw [unmapLoop, if_pos hzero]
    · rw [unmapLoop_succ fuel hzero, hwrote]
      exact ih

/-- Unmapping a piece marks one page. -/
theorem unmapLoop_piece (hpos : 0 < len) (hle : len ≤ targetPageSize) :
    unmapLoop len s raddr len = s.wrote raddr len := by
  obtain ⟨n, rfl⟩ := Nat.exists_eq_add_of_lt hpos
  rw [Nat.zero_add] at hle ⊢
  rw [unmapLoop_succ n (Nat.succ_ne_zero n), Nat.min_eq_right hle, Nat.sub_self]
  cases s.wrote raddr (n + 1) with
  | none => rfl
  | some s₁ => cases n <;> rfl

section Fails

variable [Inhabited δ]

theorem wrote_blank (ptr : ℕ) (bytes : List UInt8) (raddr len : ℕ) :
    ∃ s', ((blank (δ := δ) (fun _ => 0) 0).store ptr bytes).wrote raddr len = some s' ∧
      s'.physDirty = Function.update (fun _ => 0) (raddr / targetPageSize) nonCodeDirtyFlags := by
  refine ⟨_, rfl, ?_⟩
  show Function.update (fun _ => (0 : UInt8)) (raddr / targetPageSize) (0 ||| nonCodeDirtyFlags) = _
  rw [UInt8.zero_or]

/-- A write that tells its last byte from the others, to pages that need nothing else. -/
theorem ramAddr_of_agrees_write (hram : b.IsRam addr) (h : DmaAgrees b addr len true)
    (hk : b.Mapped addr len k) :
    b.ramAddr (addr + k) = b.ramAddr addr + k ∧ k + 1 < 2 ^ 31 := by
  obtain ⟨-, hall, block, hblock, hcontains⟩ := id hk
  have hget := RamList.qemuGetRamPtr_add hblock hcontains
  have hlength : (replicate k (0 : UInt8) ++ [1]).length = k + 1 := by simp
  have hlast : (replicate k (0 : UInt8) ++ [1])[k]? = some 1 := by simp
  have heq := h.write_eq hram hblock hk (blank (fun _ => 0) 0xff) hlength
  rw [unmapLoop_of_dirty _ fun _ => rfl] at heq
  obtain ⟨m, hm, hvisible⟩ := map_eq_some_iff.mp heq.symm
  have hmem : m.mem (block.host + (b.ramAddr addr - block.offset) + k) = 1 := by
    rw [show m.mem = _ from congrArg Prod.fst hvisible]
    exact storeBytes_add hlast
  rw [cpuPhysicalMemoryWrite, hlength] at hm
  split at hm
  next hint =>
    refine ⟨?_, hint⟩
    rcases writeLoop_mem (k + 1) (hlength ▸ hall) hm _ with hold | ⟨j, hj, hq⟩
    · rw [hmem] at hold
      exact absurd (show (1 : UInt8) = 0 from hold) (by decide)
    · rw [hmem] at hj
      obtain rfl : j = k := by
        by_contra hne
        have hlt : j < k := by
          have := (List.getElem?_eq_some_iff.mp hj).1
          omega
        rw [getElem?_append_left (by simpa using hlt)] at hj
        simp [hlt] at hj
      exact RamList.qemuGetRamPtr_inj hq hget
  next =>
    cases hm
    exact absurd (show (0 : UInt8) = 1 from hmem) (by decide)

/-- A read from memory that has one byte that differs from the others. -/
theorem ramAddr_of_agrees_read (hram : b.IsRam addr) (h : DmaAgrees b addr len false)
    (hk : b.Mapped addr len k) :
    b.ramAddr (addr + k) = b.ramAddr addr + k ∧ k + 1 < 2 ^ 31 := by
  obtain ⟨-, -, block, hblock, hcontains⟩ := id hk
  have hget := RamList.qemuGetRamPtr_add hblock hcontains
  generalize hp : block.host + (b.ramAddr addr - block.offset) = p at *
  obtain ⟨n, hkn, hall, heq⟩ :=
    h.read_eq hram hblock hk (blank (fun q => if q = p + k then 1 else 0) 0xff)
  obtain ⟨⟨m, data⟩, hread, hdata⟩ := map_eq_some_iff.mp heq
  rw [hp] at hdata
  rw [cpuPhysicalMemoryRead] at hread
  split at hread
  next hint =>
    refine ⟨?_, by omega⟩
    obtain ⟨q, hq, hbyte⟩ := readLoop_getElem? n le_rfl hall hread hkn
    rw [show data = _ from hdata, getElem?_loadBytes hkn] at hbyte
    have hbyte' := some.inj hbyte
    have hqp : q = p + k := by
      by_contra hne
      simp [blank, hne] at hbyte'
    exact RamList.qemuGetRamPtr_inj (hqp ▸ hq) hget
  next =>
    cases hread
    have hzero := congrArg List.length (show [] = _ from hdata)
    rw [length_loadBytes, length_nil] at hzero
    omega

/-- A piece on two pages, both of them without dirty flags. -/
theorem aligned_of_agrees_write (hram : b.IsRam addr) (h : DmaAgrees b addr len true)
    (hk : b.Mapped addr len k) :
    addr % targetPageSize = 0 ∨ addr % targetPageSize + k < targetPageSize := by
  by_contra hnot
  rw [not_or, Nat.not_lt] at hnot
  have hoff : addr % targetPageSize < targetPageSize := Nat.mod_lt _ (by decide)
  -- the write ends with the first byte of the second page
  obtain ⟨j, hj⟩ := Nat.exists_eq_add_of_lt hoff
  have hmapped := hk.mono (by omega : j + 1 ≤ k)
  obtain ⟨haddr, hint⟩ := ramAddr_of_agrees_write hram h hmapped
  obtain ⟨-, hall, block, hblock, -⟩ := id hmapped
  have hlength : (replicate (j + 1 + 1) (0 : UInt8)).length = j + 1 + 1 := by simp
  have heq := h.write_eq hram hblock hmapped (blank (fun _ => 0) 0) hlength
  obtain ⟨s₁, hwrote, hdirty₁⟩ := wrote_blank (δ := δ)
    (block.host + (b.ramAddr addr - block.offset)) (replicate (j + 1 + 1) 0) (b.ramAddr addr)
    (j + 1 + 1)
  rw [unmapLoop_piece (Nat.succ_pos (j + 1)) (by omega), hwrote] at heq
  obtain ⟨m, hm, hvisible⟩ := map_eq_some_iff.mp heq.symm
  have hdirty : m.physDirty = s₁.physDirty := congrArg (·.2.1) hvisible
  rw [cpuPhysicalMemoryWrite, hlength, if_pos hint] at hm
  have hmarked := (writeLoop_marked (j + 1 + 1) hlength.le (by rwa [hlength]) hm).2 (j + 1)
    (by rw [hlength]; exact Nat.lt_succ_self _)
  have hmod := b.ramAddr_mod addr
  have hpage : (b.ramAddr addr + (j + 1)) / targetPageSize ≠ b.ramAddr addr / targetPageSize := by
    unfold targetPageSize at *
    omega
  rw [haddr, hdirty, hdirty₁, update_of_ne hpage] at hmarked
  exact absurd hmarked (by decide : ¬ (0 : UInt8) ||| nonCodeDirtyFlags = 0)

end Fails

/-- **Mapping and copying agree exactly for what `MapSound` describes.** -/
theorem dma_agrees_iff [Inhabited δ] (b : Board δ) (addr len : ℕ) (isWrite : Bool) :
    DmaAgrees b addr len isWrite ↔ MapSound b addr len isWrite := by
  constructor
  · intro h hram k hk
    cases isWrite with
    | true =>
      obtain ⟨haddr, hint⟩ := ramAddr_of_agrees_write hram h hk
      exact ⟨haddr, hint, fun _ => aligned_of_agrees_write hram h hk⟩
    | false =>
      obtain ⟨haddr, hint⟩ := ramAddr_of_agrees_read hram h hk
      exact ⟨haddr, hint, nofun⟩
  · intro h
    by_cases hram : b.IsRam addr
    · exact dmaAgrees_of_mapSound hram h
    · exact dmaAgrees_of_not_ram isWrite hram

/-- Pages of RAM at a distance from each other, and no devices. -/
def ramEvery (distance : ℕ) (ram : RamList) : Board Unit where
  page := fun q => some ⟨q * distance, 0⟩
  ram := ram
  io := ⟨fun _ _ _ _ => none, fun _ _ _ _ _ => none⟩

/-- Each page holds its number, and no page is dirty. -/
def numbered : DmaState Unit := ⟨blank (fun q => UInt8.ofNat (q / 1024)) 0, none⟩

/-- Two bytes, the last of a page and the first of the next. If they are written, the second page
does not become dirty. If the pages do not follow each other in RAM, what is read is the last byte
of the page and the byte behind it in RAM. -/
theorem second_page_lost :
    ∃ ram : RamList, ram.blocks = [⟨0, 4096, 0⟩] ∧
      ((ramEvery 1024 ram).cpuPhysicalMemoryMap numbered 1023 2 true =
          some (numbered, some (.host 1023, 2)) ∧
        ((ramEvery 1024 ram).cpuPhysicalMemoryUnmap (numbered.storeBuffer (.host 1023) [7, 7])
          (.host 1023) true 2).map (fun s => s.machine.physDirty 1) = some 0 ∧
        ((ramEvery 1024 ram).cpuPhysicalMemoryWrite numbered.machine 1023 [7, 7]).map
          (fun s => s.physDirty 1) = some 0xfd ∧
        ¬ DmaAgrees (ramEvery 1024 ram) 1023 2 true) ∧
      (ramEvery 2048 ram).cpuPhysicalMemoryMap numbered 1023 2 false =
          some (numbered, some (.host 1023, 2)) ∧
        numbered.loadBuffer (.host 1023) 2 = [0, 1] ∧
        ((ramEvery 2048 ram).cpuPhysicalMemoryRead numbered.machine 1023 2).map Prod.snd =
          some [0, 2] ∧
        ¬ DmaAgrees (ramEvery 2048 ram) 1023 2 false := by
  have hmapped :
      ∀ (b : Board Unit) (isWrite : Bool), b.mapLoop false 2 1023 2 0 (2 ^ 64 - 1) = .ram 1023 2 →
      b.ram.qemuRamPtrLength 1023 2 = some (some (1023, 2)) →
        b.cpuPhysicalMemoryMap numbered 1023 2 isWrite = some (numbered, some (.host 1023, 2)) := by
    intro b isWrite hloop hptr
    rw [Board.cpuPhysicalMemoryMap, show numbered.bounce.isSome = false from rfl, hloop]
    simp only [hptr, map_some]
  refine ⟨⟨[⟨0, 4096, 0⟩], by decide, by decide, by decide⟩, rfl, ?_, ?_⟩
  · generalize hb : ramEvery 1024 _ = b
    have hmap := hmapped b true (by subst hb; decide +kernel) (by subst hb; decide +kernel)
    have hunmap : (b.cpuPhysicalMemoryUnmap (numbered.storeBuffer (.host 1023) [7, 7])
        (.host 1023) true 2).map (fun s => s.machine.physDirty 1) = some 0 := by
      subst hb
      decide +kernel
    have hcopy : (b.cpuPhysicalMemoryWrite numbered.machine 1023 [7, 7]).map
        (fun s => s.physDirty 1) = some 0xfd := by
      subst hb
      decide +kernel
    refine ⟨hmap, hunmap, hcopy, fun h => ?_⟩
    have hflags :=
      congrArg (Option.map fun v => v.2.1 1) ((h _ _ _ _ hmap).2.2 rfl [7, 7] (by decide))
    rw [Option.map_map, Option.map_map] at hflags
    exact absurd (hunmap.symm.trans (hflags.trans hcopy)) (by decide)
  · generalize hb : ramEvery 2048 _ = b
    have hmap := hmapped b false (by subst hb; decide +kernel) (by subst hb; decide +kernel)
    have hload : numbered.loadBuffer (.host 1023) 2 = [0, 1] := by decide +kernel
    have hcopy : (b.cpuPhysicalMemoryRead numbered.machine 1023 2).map Prod.snd =
        some [0, 2] := by
      subst hb
      decide +kernel
    refine ⟨hmap, hload, hcopy, fun h => ?_⟩
    have hbytes := (h _ _ _ _ hmap).2.1 rfl
    rw [hload] at hbytes
    exact absurd (hcopy.symm.trans hbytes) (by decide)

end VariabilityTestbed.Memory

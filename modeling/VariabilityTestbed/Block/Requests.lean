import Mathlib.Data.UInt

/-!
# Requests to a block device

`bdrv_read`, `bdrv_write`, `bdrv_aio_readv` and `bdrv_aio_writev` pass a request on to the driver if
`bdrv_check_request` accepts it. The check works on bytes: it multiplies the sector number and the
number of sectors by 512, in 64 bits, and compares with the length of the device. A sector number
that is a small one plus a multiple of `2 ^ 55` wraps to the small one and is accepted.

While dirty tracking is on, a write sets the bits of the chunks it touches in `dirty_bitmap`. An
empty request at sector 0 sets the bit of the first chunk, because C divides `-1` by the size of a
chunk towards zero. The bitmap has one byte for every eight chunks, but it is read and written in
words of eight bytes: the last word may not all be there.
-/

namespace VariabilityTestbed.Block

/-! ### Devices -/

/-- `dirty_bitmap`: the bytes that were asked for, and the words. -/
structure DirtyBitmap where
  size : ℕ
  word : ℕ → UInt64

/-- What is read of a `BlockDriverState`. -/
structure Disk where
  drv : Bool
  inserted : Bool
  readOnly : Bool
  growable : Bool
  length : Int64
  dirtyBitmap : Option DirtyBitmap
  dirtyCount : ℤ

/-- `bdrv_check_byte_request`. -/
def bdrvCheckByteRequest (bs : Disk) (offset : Int64) (size : UInt64) : ℤ :=
  if !bs.inserted then -123
  else if bs.growable then 0
  else if offset < 0 then -5
  else if offset > bs.length ∨ (bs.length - offset).toUInt64 < size then -5
  else 0

/-- `bdrv_check_request`. Both products are unsigned, since `BDRV_SECTOR_SIZE` is. -/
def bdrvCheckRequest (bs : Disk) (sector : Int64) (nb : Int32) : ℤ :=
  bdrvCheckByteRequest bs (sector.toUInt64 * 512).toInt64 (nb.toInt64.toUInt64 * 512)

/-- The chunks that `set_dirty_bitmap` goes through, of 2048 sectors each. -/
def dirtyChunks (sector nb : ℤ) : List ℤ :=
  let start := sector.tdiv 2048
  (List.range ((sector + nb - 1).tdiv 2048 + 1 - start).toNat).map fun k : ℕ => start + k

/-- A round of `set_dirty_bitmap`, which accesses a word of eight bytes. -/
def setDirtyBit (dirty : Bool) (b : DirtyBitmap × ℤ) (chunk : ℤ) : Option (DirtyBitmap × ℤ) :=
  let start := (chunk % 0x10000000000000000).toNat
  let idx := start / 64
  let mask : UInt64 := 1 <<< UInt64.ofNat (start % 64)
  let val := b.1.word idx
  if idx * 8 + 8 ≤ b.1.size then
    some <|
      if dirty then
        if val &&& mask = 0 then
          ({ b.1 with word := Function.update b.1.word idx (val ||| mask) }, b.2 + 1)
        else b
      else if val &&& mask = 0 then b
      else ({ b.1 with word := Function.update b.1.word idx (val &&& ~~~mask) }, b.2 - 1)
  else none

/-- `set_dirty_bitmap`. -/
def setDirtyBitmap (bs : Disk) (sector nb : ℤ) (dirty : Bool) : Option Disk :=
  bs.dirtyBitmap.bind fun bitmap =>
    ((dirtyChunks sector nb).foldlM (setDirtyBit dirty) (bitmap, bs.dirtyCount)).map fun r =>
      { bs with dirtyBitmap := some r.1, dirtyCount := r.2 }

/-- `bdrv_set_dirty_tracking`. -/
def bdrvSetDirtyTracking (bs : Disk) (enable : Bool) : Disk :=
  let bitmapSize := ((bs.length.toInt / 512 + 2048 * 8 - 1).tdiv (2048 * 8)).toNat
  { bs with
    dirtyBitmap := if enable then some (bs.dirtyBitmap.getD ⟨bitmapSize, fun _ => 0⟩) else none
    dirtyCount := 0 }

/-! ### The functions -/

/-- `set_dirty_bitmap` is called if there is a bitmap. -/
def markDirty (bs : Disk) (sector : Int64) (nb : Int32) : Option Disk :=
  if bs.dirtyBitmap.isSome then setDirtyBitmap bs sector.toInt nb.toInt true else some bs

/-- A request that is handed to the driver, and the device as it is then, or nothing if a word
outside of the bitmap was accessed. -/
abbrev Passed := Option (Option (Int64 × Int32) × Disk)

/-- The checks before a request is passed on, and what is done to the device then. -/
def bdrvRequest (writes : Bool) (mark : Disk → Option Disk) (bs : Disk) (sector : Int64)
    (nb : Int32) : Passed :=
  if !bs.drv then some (none, bs)
  else if writes && bs.readOnly then some (none, bs)
  else if bdrvCheckRequest bs sector nb ≠ 0 then some (none, bs)
  else (mark bs).map fun bs => (some (sector, nb), bs)

/-- `bdrv_read`. -/
def bdrvRead (bs : Disk) (sector : Int64) (nb : Int32) : Passed :=
  bdrvRequest false some bs sector nb

/-- `bdrv_write`. -/
def bdrvWrite (bs : Disk) (sector : Int64) (nb : Int32) : Passed :=
  bdrvRequest true (markDirty · sector nb) bs sector nb

/-- `bdrv_aio_readv`. -/
def bdrvAioReadv (bs : Disk) (sector : Int64) (nb : Int32) : Passed :=
  bdrvRequest false some bs sector nb

/-- `bdrv_aio_writev`. The bits are set when the write is complete, by `block_complete_cb`. -/
def bdrvAioWritev (bs : Disk) (sector : Int64) (nb : Int32) : Passed :=
  bdrvRequest true some bs sector nb

/-- `block_complete_cb`. -/
def blockCompleteCb (bs : Disk) (sector : Int64) (nb : Int32) : Option Disk :=
  markDirty bs sector nb

/-- The four functions. -/
inductive Op
  | read
  | write
  | aioReadv
  | aioWritev
  deriving DecidableEq, Repr

/-- What a function hands to the driver. -/
def Op.passes : Op → Disk → Int64 → Int32 → Passed
  | .read => bdrvRead
  | .write => bdrvWrite
  | .aioReadv => bdrvAioReadv
  | .aioWritev => bdrvAioWritev

/-- The functions that write. -/
def Op.writes : Op → Bool
  | .read => false
  | .write => true
  | .aioReadv => false
  | .aioWritev => true

/-- The device when a request is complete. -/
def Op.finish (op : Op) (bs : Disk) (sector : Int64) (nb : Int32) : Option Disk :=
  (op.passes bs sector nb).bind fun
    | (none, bs) => some bs
    | (some r, bs) => if op = .aioWritev then blockCompleteCb bs r.1 r.2 else some bs

/-- The chunks whose bits a request sets, at once or when it is complete. -/
def Op.dirtied (op : Op) (bs : Disk) (sector : Int64) (nb : Int32) : List ℤ :=
  if op.writes ∧ bs.drv ∧ bs.readOnly = false ∧ bdrvCheckRequest bs sector nb = 0 ∧
    bs.dirtyBitmap.isSome then
    dirtyChunks sector.toInt nb.toInt
  else []

/-! ### What gets through -/

/-- The sectors of a request are sectors of the device. -/
def InRange (bs : Disk) (sector : Int64) (nb : Int32) : Prop :=
  0 ≤ sector.toInt ∧ 0 ≤ nb.toInt ∧ (sector.toInt + nb.toInt) * 512 ≤ bs.length.toInt

/-- A chunk has a sector of the device. -/
def OnDisk (bs : Disk) (chunk : ℤ) : Prop := 0 ≤ chunk ∧ chunk * 2048 < bs.length.toInt / 512

variable {bs : Disk} {sector : Int64} {nb : Int32}

theorem toNat_toUInt64 (x : Int64) : (x.toUInt64.toNat : ℤ) = x.toInt % 2 ^ 64 := by
  have hnat : x.toUInt64.toNat = x.toBitVec.toNat := rfl
  have hint : x.toInt = x.toBitVec.toInt := rfl
  have hlt := x.toBitVec.isLt
  rw [hnat, hint, BitVec.toInt_eq_toNat_cond]
  split <;> omega

/-- The offset, in bytes. -/
theorem toInt_offset (sector : Int64) :
    (sector.toUInt64 * 512).toInt64.toInt = (sector.toInt * 512).bmod (2 ^ 64) := by
  rw [UInt64.toInt64_mul, Int64.toInt64_toUInt64, Int64.toInt_mul]
  rfl

/-- The size, in bytes. -/
theorem toNat_size (nb : Int32) :
    ((nb.toInt64.toUInt64 * 512).toNat : ℤ) = nb.toInt % 2 ^ 64 * 512 % 2 ^ 64 := by
  have h512 : (512 : UInt64).toNat = 512 := rfl
  rw [UInt64.toNat_mul, h512, Int.natCast_emod, Int.natCast_mul, toNat_toUInt64,
    Int32.toInt_toInt64]
  rfl

/-- **What the check accepts**, with `o` the wrapped offset. -/
theorem bdrvCheckRequest_eq_zero_iff (hin : bs.inserted = true)
    (hgrow : bs.growable = false) {o : ℤ} (ho : o = (sector.toInt * 512).bmod (2 ^ 64)) :
    bdrvCheckRequest bs sector nb = 0 ↔
      0 ≤ o ∧ o ≤ bs.length.toInt ∧ 0 ≤ nb.toInt ∧ nb.toInt * 512 ≤ bs.length.toInt - o := by
  have hoff : (sector.toUInt64 * 512).toInt64.toInt = o := (toInt_offset sector).trans ho.symm
  generalize hx : (sector.toUInt64 * 512).toInt64 = offset at hoff
  have hsize := toNat_size nb
  generalize hy : nb.toInt64.toUInt64 * 512 = size at hsize
  have hzero : (0 : Int64).toInt = 0 := rfl
  have hlen := bs.length.toInt_lt
  have hnb := nb.toInt_lt
  have hnb' := nb.le_toInt
  have hdiff : ((bs.length - offset).toUInt64.toNat : ℤ) = (bs.length.toInt - o) % 2 ^ 64 := by
    rw [toNat_toUInt64, Int64.toInt_sub, hoff]
    exact Int.bmod_emod
  simp only [bdrvCheckRequest, bdrvCheckByteRequest, hx, hy, hin, hgrow, Bool.not_true,
    Bool.false_eq_true, if_false, Int64.lt_iff_toInt_lt, gt_iff_lt, hoff, hzero,
    UInt64.lt_iff_toNat_lt]
  by_cases hneg : o < 0
  · rw [if_pos hneg]
    omega
  · rw [if_neg hneg]
    split_ifs with hcond
    · constructor
      · exact False.elim
      · rintro ⟨-, hle, hpos, hfit⟩
        omega
    · constructor
      · intro _
        omega
      · intro _
        rfl

/-- A sector number that fits is not changed by the multiplication. -/
theorem bmod_of_fits (hlo : 0 ≤ sector.toInt) (hhi : sector.toInt < 2 ^ 54) :
    (sector.toInt * 512).bmod (2 ^ 64) = sector.toInt * 512 := by
  rw [Int.bmod_eq_of_le] <;> omega

theorem mem_dirtyChunks {sector nb c : ℤ} :
    c ∈ dirtyChunks sector nb ↔ sector.tdiv 2048 ≤ c ∧ c ≤ (sector + nb - 1).tdiv 2048 := by
  simp only [dirtyChunks, List.mem_map, List.mem_range]
  constructor
  · rintro ⟨k, hk, rfl⟩
    omega
  · rintro ⟨hlo, hhi⟩
    exact ⟨(c - sector.tdiv 2048).toNat, by omega, by omega⟩

/-- Bits can be set if their words are there. -/
theorem isSome_foldlM_setDirtyBit {dirty : Bool} {chunks : List ℤ} {b : DirtyBitmap × ℤ} :
    (chunks.foldlM (setDirtyBit dirty) b).isSome = true ↔
      ∀ c ∈ chunks, (c % 0x10000000000000000).toNat / 64 * 8 + 8 ≤ b.1.size := by
  induction chunks generalizing b with
  | nil => simp
  | cons c chunks ih =>
    rw [List.foldlM_cons, List.forall_mem_cons, setDirtyBit]
    dsimp only
    split
    case isTrue hin =>
      rw [and_iff_right hin]
      refine ih.trans (Iff.of_eq ?_)
      split_ifs <;> rfl
    case isFalse hout => exact iff_of_false Bool.false_ne_true fun h => hout h.1

/-- The words of a request in range are there if the last one is. -/
theorem markDirty_isSome_iff {bitmap : DirtyBitmap} (hbitmap : bs.dirtyBitmap = some bitmap)
    (h : InRange bs sector nb) :
    (markDirty bs sector nb).isSome = true ↔
      ∀ c ∈ dirtyChunks sector.toInt nb.toInt, c / 64 * 8 + 8 ≤ bitmap.size := by
  obtain ⟨hsector, hnb, -⟩ := h
  have hlt := sector.toInt_lt
  have hlt' := nb.toInt_lt
  rw [markDirty, if_pos (by rw [hbitmap]; rfl), setDirtyBitmap, hbitmap, Option.bind_some,
    Option.isSome_map, isSome_foldlM_setDirtyBit]
  refine forall₂_congr fun c hc => ?_
  rw [mem_dirtyChunks, Int.tdiv_eq_ediv_of_nonneg hsector] at hc
  have hle : (sector.toInt + nb.toInt - 1).tdiv 2048 ≤ sector.toInt + nb.toInt := by
    rcases Int.lt_or_le (sector.toInt + nb.toInt - 1) 0 with hneg | hpos
    · rw [show sector.toInt + nb.toInt - 1 = -1 by omega]
      exact (by decide : Int.tdiv (-1) 2048 ≤ 0).trans (by omega)
    · rw [Int.tdiv_eq_ediv_of_nonneg hpos]
      omega
  dsimp only
  omega

/-- What a function does with a request that is not refused. -/
theorem finish_eq {op : Op} (hdrv : bs.drv = true) (hcheck : bdrvCheckRequest bs sector nb = 0) :
    op.finish bs sector nb =
      if op.writes = true ∧ bs.readOnly = false then markDirty bs sector nb else some bs := by
  cases hread : bs.readOnly <;> cases op <;>
    simp [Op.finish, Op.passes, Op.writes, bdrvRead, bdrvWrite, bdrvAioReadv,
    bdrvAioWritev, bdrvRequest, blockCompleteCb, hdrv, hcheck, hread, Option.bind_map]

/-- A request that is refused changes nothing. -/
theorem finish_of_refused {op : Op} (hcheck : bdrvCheckRequest bs sector nb ≠ 0) :
    op.finish bs sector nb = some bs := by
  cases op <;>
    simp [Op.finish, Op.passes, bdrvRead, bdrvWrite, bdrvAioReadv, bdrvAioWritev,
    bdrvRequest, hcheck]

/-- Only what the check accepts is passed on. -/
theorem bdrvRequest_eq_some {writes : Bool} {mark : Disk → Option Disk}
    {r : Int64 × Int32} {bs' : Disk}
    (h : bdrvRequest writes mark bs sector nb = some (some r, bs')) :
    r = (sector, nb) ∧ bdrvCheckRequest bs sector nb = 0 := by
  rw [bdrvRequest] at h
  split_ifs at h with hdrv hread hcheck
  · cases h
  · cases h
  · cases h
  · obtain ⟨_, -, heq⟩ := Option.map_eq_some_iff.mp h
    cases heq
    exact ⟨rfl, not_not.mp hcheck⟩

theorem passes_eq_some {op : Op} {r : Int64 × Int32} {bs' : Disk}
    (h : op.passes bs sector nb = some (some r, bs')) :
    r = (sector, nb) ∧ bdrvCheckRequest bs sector nb = 0 := by
  cases op <;> simp only [Op.passes, bdrvRead, bdrvWrite, bdrvAioReadv, bdrvAioWritev] at h <;>
    exact bdrvRequest_eq_some h

/-- An accepted request in range sets bits of the device only, in words of the bitmap, exactly if
its last chunk does. -/
theorem bits_contained_iff (hdrv : bs.drv = true) (hcheck : bdrvCheckRequest bs sector nb = 0)
    (h : InRange bs sector nb) (op : Op) :
    (∀ c ∈ op.dirtied bs sector nb, OnDisk bs c) ∧ (op.finish bs sector nb).isSome = true ↔
      (op.writes = true → ∀ bitmap, bs.dirtyBitmap = some bitmap → bs.readOnly = false →
        let last := (sector.toInt + nb.toInt - 1).tdiv 2048
        sector.toInt / 2048 ≤ last →
          last * 2048 < bs.length.toInt / 512 ∧ last / 64 * 8 + 8 ≤ bitmap.size) := by
  rw [finish_eq hdrv hcheck]
  by_cases hw : op.writes = true ∧ bs.readOnly = false
  swap
  · rw [if_neg hw, Op.dirtied, if_neg fun hall => hw ⟨hall.1, hall.2.2.1⟩]
    exact iff_of_true ⟨nofun, rfl⟩ fun hwrites _ _ hread => absurd ⟨hwrites, hread⟩ hw
  obtain ⟨hwrites, hread⟩ := hw
  rw [if_pos ⟨hwrites, hread⟩]
  cases hbitmap : bs.dirtyBitmap with
  | none => simp [Op.dirtied, markDirty, hbitmap]
  | some bitmap =>
    rw [markDirty_isSome_iff hbitmap h, Op.dirtied,
      if_pos ⟨hwrites, hdrv, hread, hcheck, by rw [hbitmap]; rfl⟩]
    have hmem (c : ℤ) : c ∈ dirtyChunks sector.toInt nb.toInt ↔
        sector.toInt / 2048 ≤ c ∧ c ≤ (sector.toInt + nb.toInt - 1).tdiv 2048 := by
      rw [mem_dirtyChunks, Int.tdiv_eq_ediv_of_nonneg h.1]
    constructor
    · rintro ⟨hdisk, hword⟩ - _ ⟨⟩ - last hle
      have hlast := (hmem _).mpr ⟨hle, le_rfl⟩
      exact ⟨(hdisk _ hlast).2, hword _ hlast⟩
    · -- a chunk that is touched is not behind the last one
      intro hbits
      refine ⟨fun c hc => ?_, fun c hc => ?_⟩ <;> rw [hmem] at hc <;>
        obtain ⟨hdisk, hword⟩ := hbits hwrites bitmap rfl hread (hc.1.trans hc.2)
      · have := h.1
        exact ⟨by omega, by omega⟩
      · omega

/-- The request is passed on only in range, and sets bits of the device only, in words of the
bitmap. -/
def Contained (bs : Disk) (sector : Int64) (nb : Int32) : Prop :=
  (bdrvCheckRequest bs sector nb = 0 → InRange bs sector nb) ∧
    ∀ op : Op, (∀ r bs', op.passes bs sector nb = some (some r, bs') → InRange bs r.1 r.2) ∧
      (∀ c ∈ op.dirtied bs sector nb, OnDisk bs c) ∧ (op.finish bs sector nb).isSome = true

/-- **Exactly the sector numbers that fit are kept in range**: the offset in bytes, which wraps
around, must not be that of an accepted request unless the sector number is small. While dirty
tracking is on, and the device can be written, the last chunk that is touched must be on the device
and its word in the bitmap. -/
theorem requests_in_range_iff (bs : Disk) (hdrv : bs.drv = true) (hin : bs.inserted = true)
    (hgrow : bs.growable = false) (hlen : 0 ≤ bs.length.toInt) (sector : Int64) (nb : Int32) :
    Contained bs sector nb ↔
      let offset := (sector.toInt * 512).bmod (2 ^ 64)
      let last := (sector.toInt + nb.toInt - 1).tdiv 2048
      0 ≤ offset → 0 ≤ nb.toInt → offset + nb.toInt * 512 ≤ bs.length.toInt →
        0 ≤ sector.toInt ∧ sector.toInt < 2 ^ 54 ∧
          ∀ bitmap, bs.dirtyBitmap = some bitmap → bs.readOnly = false →
          sector.toInt / 2048 ≤ last →
            last * 2048 < bs.length.toInt / 512 ∧ last / 64 * 8 + 8 ≤ bitmap.size := by
  have hlt := bs.length.toInt_lt
  have haccept : bdrvCheckRequest bs sector nb = 0 ↔ _ :=
    bdrvCheckRequest_eq_zero_iff hin hgrow rfl
  dsimp only
  constructor
  · rintro ⟨hrange, hops⟩ hoffset hnb hend
    have hcheck := haccept.mpr ⟨hoffset, by omega, hnb, by omega⟩
    obtain ⟨hsector, -, hfit⟩ := hrange hcheck
    exact ⟨hsector, by omega,
      (bits_contained_iff hdrv hcheck (hrange hcheck) .write).mp (hops .write).2 rfl⟩
  · intro h
    have hrange : bdrvCheckRequest bs sector nb = 0 → InRange bs sector nb := by
      intro hcheck
      obtain ⟨hpos, hle, hnb, hfit⟩ := haccept.mp hcheck
      obtain ⟨hsector, hsmall, -⟩ := h hpos hnb (by omega)
      rw [bmod_of_fits hsector hsmall] at hfit
      exact ⟨hsector, hnb, by omega⟩
    refine ⟨hrange, fun op => ⟨fun r bs' hr => ?_, ?_⟩⟩
    · obtain ⟨rfl, hcheck⟩ := passes_eq_some hr
      exact hrange hcheck
    by_cases hcheck : bdrvCheckRequest bs sector nb = 0
    · obtain ⟨hpos, hle, hnb, hfit⟩ := haccept.mp hcheck
      exact (bits_contained_iff hdrv hcheck (hrange hcheck) op).mpr fun _ =>
        (h hpos hnb (by omega)).2.2
    · rw [finish_of_refused hcheck, Op.dirtied, if_neg fun hw => hcheck hw.2.2.2.1]
      exact ⟨nofun, rfl⟩

/-- A device of so many bytes. -/
def plainDisk (length : Int64) : Disk := ⟨true, true, false, false, length, none, 0⟩

/-- Sector `2 ^ 55` of a device of one sector is accepted and handed to the driver. With dirty
tracking, a write of the only sector accesses eight bytes of a bitmap of one. -/
theorem huge_sector_accepted :
    bdrvCheckRequest (plainDisk 512) 36028797018963968 1 = 0 ∧
    ¬InRange (plainDisk 512) 36028797018963968 1 ∧
      (∀ op : Op, (op.passes (plainDisk 512) 36028797018963968 1).map Prod.fst =
        some (some (36028797018963968, 1))) ∧
      (Op.finish .write (bdrvSetDirtyTracking (plainDisk 512) true) 0 1).isNone = true := by
  refine ⟨by decide, fun h => absurd h.2.2 (by decide), fun op => ?_, by decide⟩
  cases op <;> decide

/-- A device of 64 MiB with dirty tracking, and a write of its last sector. -/
theorem last_sector_contained :
    Contained (bdrvSetDirtyTracking (plainDisk 0x4000000) true) 131071 1 :=
  (requests_in_range_iff _ rfl rfl rfl (by decide) 131071 1).mpr fun _ _ _ =>
    ⟨by decide, by decide, fun bitmap hbitmap _ _ => by cases hbitmap; decide⟩

end VariabilityTestbed.Block

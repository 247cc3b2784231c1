import VariabilityTestbed.Block.ClusterOffset
import VariabilityTestbed.Lib.Words

/-!
# Opening an image

`qcow2_open` takes the geometry of an image from a header that anybody may have written. It has one
check for the size: the L1 table must have enough entries for it, where the number that is enough
comes from `size_to_l1`. This adds up 64 bits and returns an `int`, so the check may be about
another number. The size of the refcount table in bytes is an `int` as well, and is not checked at
all: the loop that turns the bytes of its entries leaves a buffer that is too small, and the program
ends there.

The host has 64 bits: `size_t` does.
-/

namespace VariabilityTestbed.Block

open Words

/-- `QCowHeader`, as far as it gives the geometry. -/
structure Header where
  magic : UInt32
  version : UInt32
  clusterBits : UInt32
  size : UInt64
  cryptMethod : UInt32
  l1Size : UInt32
  refcountTableClusters : UInt32

/-- What `BDRVQcowState` says about the geometry, and the number of bytes at `l1_table` and
`refcount_table`. -/
structure Opened where
  geometry : Geometry
  totalSectors : ℕ
  l1Size : ℤ
  l1VmStateIndex : ℤ
  l1TableBytes : ℕ
  refcountTableSize : ℕ
  refcountTableBytes : ℕ
  deriving DecidableEq

/-- The memory of the host: whether it allows to ask for no bytes (`CONFIG_ZERO_MALLOC`), and
whether it gives so many. -/
structure Host where
  zeroMalloc : Bool
  gives : ℕ → Bool

/-- What becomes of the reads: of the L1 table, of the refcount table, and of the extensions, the
name of the backing file and the snapshots. -/
structure OpenReads where
  l1Table : Except ℕ Unit
  refcountTable : Except ℕ Unit
  rest : Except ℤ Unit

/-! ### The code -/

/-- `qemu_malloc` and `qemu_mallocz`. No host gives half of its address space. -/
def qemuMalloc (host : Host) (size : ℤ) : Option ℕ :=
  let bytes := (size % 2 ^ 64).toNat
  if bytes = 0 ∧ host.zeroMalloc = false then none
  else if bytes < 2 ^ 63 ∧ host.gives bytes then some bytes else none

/-- `bdrv_pread`, which reads nothing for a count that is not positive, and returns it. -/
def bdrvPread (read : Except ℕ Unit) (count : ℤ) : ℤ :=
  if 0 < count then
    match read with
    | .ok () => count
    | .error e => Int.negSucc e
  else count

/-- `size_to_l1`. -/
def sizeToL1 (g : Geometry) (size : UInt64) : ℤ :=
  toInt ((size.toNat + g.l1Bytes - 1) % 2 ^ 64 / g.l1Bytes : ℕ)

/-- `align_offset`, for a power of two. -/
def alignOffset (offset n : ℤ) : ℤ := (offset + n - 1) / n * n

/-- The L1 table: the bytes that it gets, or the error. -/
def loadL1 (host : Host) (read : Except ℕ Unit) (l1Size : ℤ) : Option (Except ℤ ℕ) :=
  if 0 < l1Size then
    (qemuMalloc host (alignOffset (l1Size * 8) 512)).map fun bytes =>
      let ret := bdrvPread read (toInt (l1Size * 8))
      if ret < 0 then .error ret else .ok bytes
  else some (.ok 0)

/-- `qcow2_refcount_init`: the bytes that the refcount table gets, or `-ENOMEM`. The loop of
`be64_to_cpus` touches every entry. -/
def refcountInit (host : Host) (read : Except ℕ Unit) (refcountTableSize : ℕ) :
    Option (Except ℤ ℕ) :=
  let refcountTableSize2 := toInt (refcountTableSize * 8)
  (qemuMalloc host refcountTableSize2).bind fun bytes =>
    if 0 < refcountTableSize ∧ bdrvPread read refcountTableSize2 ≠ refcountTableSize2 then
      some (.error (-12))
    else if bytes < refcountTableSize * 8 then none
    else some (.ok bytes)

/-- `qcow2_open` after the header was read, or `none` if it ends the program. -/
def qcow2Open (host : Host) (reads : OpenReads) (h : Header) : Option (Except ℤ Opened) :=
  if h.magic ≠ 0x514649fb then some (.error (-22))
  else if h.version ≠ 2 then some (.error (-95))
  else if hbits : 9 ≤ h.clusterBits.toNat ∧ h.clusterBits.toNat ≤ 21 then
    if 1 < h.cryptMethod then some (.error (-22))
    else
      let g : Geometry := ⟨h.clusterBits.toNat, hbits.1, hbits.2⟩
      let refcountTableSize := h.refcountTableClusters.toNat * g.l2Size % 2 ^ 32
      let l1Size := toInt h.l1Size.toNat
      let l1VmStateIndex := sizeToL1 g h.size
      if l1Size < l1VmStateIndex then some (.error (-22))
      else
        (loadL1 host reads.l1Table l1Size).bind fun
          | .error e => some (.error e)
          | .ok l1TableBytes =>
            (refcountInit host reads.refcountTable refcountTableSize).bind fun
              | .error e => some (.error e)
              | .ok refcountTableBytes =>
                match reads.rest with
                | .error e => some (.error e)
                | .ok () => some (.ok ⟨g, h.size.toNat / 512, l1Size, l1VmStateIndex, l1TableBytes,
                    refcountTableSize, refcountTableBytes⟩)
  else some (.error (-22))

/-! ### What an open image is to be like -/

/-- `refcount_table_index` of `get_refcount`, an `int`. -/
def refcountTableIndex (g : Geometry) (clusterIndex : ℤ) : ℤ :=
  toInt (clusterIndex / g.blockClusters)

/-- **The image fits its tables.** -/
structure ValidGeometry (h : Header) (s : Opened) : Prop where
  size_le : (h.size.toNat : ℤ) ≤ s.l1Size * s.geometry.l1Bytes
  l1_room : s.l1Size * 8 ≤ s.l1TableBytes
  refcount_room : s.refcountTableSize * 8 ≤ s.refcountTableBytes
  /-- An index that `qcow2_get_cluster_offset` lets pass is in the L1 table. -/
  l1_inside : ∀ offset : UInt64, (l1Index s.geometry offset : ℤ) < s.l1Size % 2 ^ 32 →
    (l1Index s.geometry offset + 1) * 8 ≤ s.l1TableBytes
  /-- An index that `get_refcount` lets pass is in the refcount table. -/
  refcount_inside : ∀ clusterIndex : ℤ, refcountTableIndex s.geometry clusterIndex % 2 ^ 32 <
    s.refcountTableSize →
    0 ≤ refcountTableIndex s.geometry clusterIndex ∧
      (refcountTableIndex s.geometry clusterIndex + 1) * 8 ≤ s.refcountTableBytes
  /-- Clusters of the image have entries of their own. -/
  distinct : ∀ offset offset' : UInt64, offset < h.size → offset' < h.size →
    l1Index s.geometry offset = l1Index s.geometry offset' →
    offset.toNat / s.geometry.clusterSize % s.geometry.l2Size =
      offset'.toNat / s.geometry.clusterSize % s.geometry.l2Size →
    offset.toNat / s.geometry.clusterSize = offset'.toNat / s.geometry.clusterSize

/-! ### Integers -/

theorem toInt_of_lt {x : ℤ} (h0 : 0 ≤ x) (h : x < 2 ^ 31) : toInt x = x := by
  rw [toInt, Int.bmod_def]
  omega

theorem toInt_lt (x : ℤ) : toInt x < 2 ^ 31 := by
  rw [toInt, Int.bmod_def]
  omega

theorem toInt_ge (x : ℤ) : -2 ^ 31 ≤ toInt x := by
  rw [toInt, Int.bmod_def]
  omega

theorem qemuMalloc_eq_some {host : Host} {size : ℤ} {bytes : ℕ}
    (h : qemuMalloc host size = some bytes) :
    (bytes : ℤ) = size % 2 ^ 64 ∧ bytes < 2 ^ 63 := by
  rw [qemuMalloc] at h
  split at h
  · cases h
  · split at h
    case isTrue hlt =>
      cases h
      exact ⟨Int.toNat_of_nonneg (Int.emod_nonneg _ (by decide)), hlt.1⟩
    case isFalse => cases h

theorem loadL1_eq_ok {host : Host} {read : Except ℕ Unit} {l1Size : ℤ} {bytes : ℕ}
    (hlt : l1Size < 2 ^ 31) (h : loadL1 host read l1Size = some (.ok bytes)) :
    l1Size * 8 ≤ bytes := by
  rw [loadL1] at h
  split at h
  case isTrue hpos =>
    obtain ⟨b, hb, hret⟩ := Option.map_eq_some_iff.1 h
    obtain ⟨hbytes, -⟩ := qemuMalloc_eq_some hb
    rw [alignOffset] at hbytes
    dsimp only at hret
    split at hret
    · cases hret
    · cases hret
      omega
  case isFalse hpos =>
    cases h
    omega

/-- A refcount table that was loaded has room for its entries, and less than 2 GB. -/
theorem refcountInit_eq_ok {host : Host} {read : Except ℕ Unit} {size bytes : ℕ}
    (h : refcountInit host read size = some (.ok bytes)) : size * 8 ≤ bytes ∧ bytes < 2 ^ 31 := by
  rw [refcountInit] at h
  obtain ⟨b, hb, hret⟩ := Option.bind_eq_some_iff.1 h
  obtain ⟨hbytes, hlt⟩ := qemuMalloc_eq_some hb
  have hup := toInt_lt (size * 8)
  have hlow := toInt_ge (size * 8)
  split at hret
  · cases hret
  · split at hret
    · cases hret
    · cases hret
      omega

/-- What an image that was opened has passed. -/
theorem qcow2Open_eq_ok {host : Host} {reads : OpenReads} {h : Header} {s : Opened}
    (hopen : qcow2Open host reads h = some (.ok s)) :
    s.l1Size = toInt h.l1Size.toNat ∧ sizeToL1 s.geometry h.size ≤ s.l1Size ∧
    s.l1Size * 8 ≤ s.l1TableBytes ∧
      s.refcountTableSize * 8 ≤ s.refcountTableBytes ∧ s.refcountTableBytes < 2 ^ 31 := by
  rw [qcow2Open] at hopen
  split at hopen
  · cases hopen
  split at hopen
  · cases hopen
  split at hopen
  case isFalse => cases hopen
  split at hopen
  · cases hopen
  dsimp only at hopen
  split at hopen
  · cases hopen
  case isFalse hcheck =>
    obtain ⟨_ | l1Bytes, hl1, hopen⟩ := Option.bind_eq_some_iff.1 hopen
    · cases hopen
    obtain ⟨_ | refcountBytes, hrefcount, hopen⟩ := Option.bind_eq_some_iff.1 hopen
    · cases hopen
    cases hrest : reads.rest with
    | error e => rw [hrest] at hopen; cases hopen
    | ok u =>
      rw [hrest] at hopen
      cases hopen
      dsimp only
      exact ⟨rfl, not_lt.1 hcheck, loadL1_eq_ok (toInt_lt _) hl1, refcountInit_eq_ok hrefcount⟩

/-- `size_to_l1` of a size for which it neither overflows nor loses bits. -/
theorem sizeToL1_eq {g : Geometry} {size : UInt64} (hwrap : size.toNat + g.l1Bytes ≤ 2 ^ 64)
    (hint : size.toNat ≤ (2 ^ 31 - 1) * g.l1Bytes) :
    (size.toNat : ℤ) ≤ sizeToL1 g size * g.l1Bytes := by
  have hpos : 0 < g.l1Bytes := Nat.mul_pos g.l2Size_pos g.clusterSize_pos
  have hlt : (size.toNat + g.l1Bytes - 1) / g.l1Bytes < 2 ^ 31 := by
    rw [Nat.div_lt_iff_lt_mul hpos]
    omega
  have hle : size.toNat ≤ (size.toNat + g.l1Bytes - 1) / g.l1Bytes * g.l1Bytes := by
    have := Nat.div_add_mod (size.toNat + g.l1Bytes - 1) g.l1Bytes
    have := Nat.mod_lt (size.toNat + g.l1Bytes - 1) hpos
    rw [Nat.mul_comm]
    omega
  rw [sizeToL1, Nat.mod_eq_of_lt (by omega), toInt_of_lt (Int.natCast_nonneg _)
    (by exact_mod_cast hlt)]
  exact_mod_cast hle

/-- Clusters whose L1 entry has an index of 32 bits have entries of their own. -/
theorem cluster_eq_of_indices_eq {g : Geometry} {offset offset' : UInt64}
    (h : offset.toNat / g.l1Bytes < 2 ^ 32) (h' : offset'.toNat / g.l1Bytes < 2 ^ 32)
    (hl1 : l1Index g offset = l1Index g offset')
    (hl2 : offset.toNat / g.clusterSize % g.l2Size = offset'.toNat / g.clusterSize % g.l2Size) :
    offset.toNat / g.clusterSize = offset'.toNat / g.clusterSize := by
  have hdiv (o : UInt64) : o.toNat / g.clusterSize / g.l2Size = o.toNat / g.l1Bytes := by
    rw [Nat.div_div_eq_div_mul, Nat.mul_comm, Geometry.l1Bytes]
  rw [l1Index, l1Index, Nat.mod_eq_of_lt h, Nat.mod_eq_of_lt h', ← hdiv, ← hdiv] at hl1
  rw [← Nat.div_add_mod (offset.toNat / g.clusterSize) g.l2Size, hl1, hl2, Nat.div_add_mod]

/-! ### The check -/

/-- **Opening an image.** The image fits its tables exactly if the check of the size loses no bits:
the size is one for which `size_to_l1` fits in an `int` and does not wrap around, or there are
entries for any size. The refcount table always fits, in less than 2 GB: with more entries the
program has ended. -/
theorem open_valid_iff (host : Host) (reads : OpenReads) (h : Header) (s : Opened)
    (hopen : qcow2Open host reads h = some (.ok s)) :
    (ValidGeometry h s ↔
      h.size.toNat ≤ (2 ^ 31 - 1) * s.geometry.l1Bytes ∧
      (h.size.toNat + s.geometry.l1Bytes ≤ 2 ^ 64 ∨ 2 ^ 64 ≤ s.l1Size * s.geometry.l1Bytes)) ∧
    s.refcountTableSize < 2 ^ 28 := by
  obtain ⟨hl1, hcheck, hroom, hrefcount, hsmall⟩ := qcow2Open_eq_ok hopen
  have hl1lt : s.l1Size < 2 ^ 31 := hl1 ▸ toInt_lt _
  have hpos : 0 < s.geometry.l1Bytes := Nat.mul_pos s.geometry.l2Size_pos s.geometry.clusterSize_pos
  have hsize := h.size.toNat_lt
  refine ⟨?_, by omega⟩
  constructor
  · intro hvalid
    have hle := hvalid.size_le
    have hint : (h.size.toNat : ℤ) ≤ (2 ^ 31 - 1) * s.geometry.l1Bytes :=
      hle.trans (Int.mul_le_mul_of_nonneg_right (by omega) (by omega))
    refine ⟨by omega, ?_⟩
    -- the entries stand for a multiple of what one stands for, and so does 2 ^ 64
    by_contra hboth
    obtain ⟨hwrap, hfew⟩ := not_or.1 hboth
    obtain ⟨k, hk⟩ := s.geometry.l1Bytes_dvd
    have hk' : (2 ^ 64 : ℤ) = k * s.geometry.l1Bytes := by
      rw [Int.mul_comm]
      exact_mod_cast hk
    have hmono {a b : ℤ} (hab : a ≤ b) : a * s.geometry.l1Bytes ≤ b * s.geometry.l1Bytes :=
      Int.mul_le_mul_of_nonneg_right hab (Int.natCast_nonneg _)
    rcases lt_or_ge s.l1Size k with hlt | hge
    · have hmul := hmono (Int.le_sub_one_of_lt hlt)
      rw [Int.sub_mul, Int.one_mul] at hmul
      omega
    · have hmul := hmono hge
      omega
  · rintro ⟨hint, hwrap⟩
    have hle : (h.size.toNat : ℤ) ≤ s.l1Size * s.geometry.l1Bytes := by
      rcases hwrap with hwrap | hmany
      · exact (sizeToL1_eq hwrap hint).trans (Int.mul_le_mul_of_nonneg_right hcheck (by omega))
      · omega
    have hnonneg : 0 ≤ s.l1Size := by
      by_contra hneg
      have := Int.mul_neg_of_neg_of_pos (not_le.1 hneg) (Int.natCast_pos.2 hpos)
      omega
    have hindex {offset : UInt64} (hoffset : offset < h.size) :
        offset.toNat / s.geometry.l1Bytes < 2 ^ 32 := by
      have hlt : offset.toNat < h.size.toNat := hoffset
      rw [Nat.div_lt_iff_lt_mul hpos]
      omega
    refine ⟨hle, hroom, hrefcount, ?_, ?_, ?_⟩
    · intro offset hoffset
      rw [Int.emod_eq_of_lt hnonneg (by omega)] at hoffset
      omega
    · intro clusterIndex hlt
      have := toInt_ge (clusterIndex / s.geometry.blockClusters)
      have := toInt_lt (clusterIndex / s.geometry.blockClusters)
      rw [refcountTableIndex] at *
      omega
    · intro offset offset' hoffset hoffset'
      exact cluster_eq_of_indices_eq (hindex hoffset) (hindex hoffset')

/-! ### Headers -/

/-- A host with memory. -/
def largeHost : Host := ⟨false, fun _ => true⟩

/-- A file that can be read. -/
def goodReads : OpenReads := ⟨.ok (), .ok (), .ok ()⟩

/-- The header of an image of 64 KB. -/
def smallHeader : Header := ⟨0x514649fb, 2, 9, 0x10000, 0, 2, 1⟩

/-- An image of 64 KB with two L1 entries. -/
theorem open_valid_small :
    qcow2Open largeHost goodReads smallHeader =
      some (.ok ⟨sectorClusters, 128, 2, 2, 512, 64, 512⟩) ∧
      ValidGeometry smallHeader ⟨sectorClusters, 128, 2, 2, 512, 64, 512⟩ :=
  ⟨by decide +kernel, (open_valid_iff largeHost goodReads smallHeader _ (by decide +kernel)).1.2
    (by decide)⟩

/-- An image of 64 TB opens with one L1 entry. -/
theorem open_not_valid :
    let large : Header := { smallHeader with size := 0x400000000000, l1Size := 1 }
    qcow2Open largeHost goodReads large =
      some (.ok ⟨sectorClusters, 0x2000000000, 1, -0x80000000, 512, 64, 512⟩) ∧
    ¬ValidGeometry large ⟨sectorClusters, 0x2000000000, 1, -0x80000000, 512, 64, 512⟩ :=
  ⟨by decide +kernel, fun h => absurd h.size_le (by decide)⟩

/-- With a refcount table of 2 ^ 29 + 64 entries, which gets 512 bytes, the program ends. -/
example : qcow2Open largeHost goodReads { smallHeader with refcountTableClusters := 0x800001 } =
    none := by
  decide +kernel

end VariabilityTestbed.Block

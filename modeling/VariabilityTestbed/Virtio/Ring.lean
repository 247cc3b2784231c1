import VariabilityTestbed.Lib.BigEndian
import VariabilityTestbed.Lib.Bytes

/-!
# Rings of a virtio device

A driver in the guest puts buffers into a table of descriptors in guest memory. A buffer is a chain
of descriptors that are linked by their `next` field, or a single descriptor that leads to a table
of its own. The driver publishes the first descriptor of each chain in the available ring; the
device takes chains from there and publishes those it is done with in the used ring.

Everything here is under the control of the guest. Physical addresses have 32 bits.
-/

namespace VariabilityTestbed.Virtio

open BigEndian Bytes List

/-! ### Guest memory -/

/-- The memory of the guest. -/
abbrev GuestMemory := ℕ → UInt8

/-- A `target_phys_addr_t`. -/
def phys (n : ℕ) : ℕ := n % 2 ^ 32

/-- `lduw_phys`, `ldl_phys` and `ldq_phys`: a little-endian number of `w` bytes. -/
def ldPhys (m : GuestMemory) (pa w : ℕ) : ℕ := ofBe (loadBytes m (phys pa) w).reverse

/-- `stw_phys` and `stl_phys`. -/
def stPhys (m : GuestMemory) (pa w v : ℕ) : GuestMemory :=
  storeBytes m (phys pa) (beBytes w v).reverse

theorem ldPhys_stPhys (m : GuestMemory) (pa w v : ℕ) :
    ldPhys (stPhys m pa w v) pa w = v % 256 ^ w := by
  have h := loadBytes_storeBytes m (phys pa) (beBytes w v).reverse
  rw [length_reverse, length_beBytes] at h
  rw [ldPhys, stPhys, h, reverse_reverse, ofBe_beBytes]

/-- A number below the one that is stored is not changed. -/
theorem ldPhys_stPhys_of_le (m : GuestMemory) {pa pb w w' : ℕ} (h : pb + w' ≤ pa)
    (hpa : pa < 2 ^ 32) (v : ℕ) : ldPhys (stPhys m pa w v) pb w' = ldPhys m pb w' := by
  have hle : phys pb + w' ≤ phys pa := by
    rw [phys, phys]
    omega
  rw [ldPhys, stPhys, loadBytes_storeBytes_of_disjoint m (.inr hle), ldPhys]

/-- Of two numbers stored at one place the later one stays. -/
theorem stPhys_stPhys (m : GuestMemory) (pa w v v' : ℕ) :
    stPhys (stPhys m pa w v) pa w v' = stPhys m pa w v' :=
  storeBytes_storeBytes (by simp)

/-! ### Queues -/

/-- Where the rings are, and how many entries they have. -/
structure VRing where
  num : ℕ
  desc : ℕ
  avail : ℕ
  used : ℕ
  deriving DecidableEq, Repr

/-- The fields of a `VirtQueue` that are used here. -/
structure VirtQueue where
  vring : VRing
  lastAvailIdx : UInt16
  signalledUsed : UInt16
  signalledUsedValid : Bool
  notification : Bool
  inuse : ℤ
  deriving DecidableEq, Repr

/-- The features that are used here. -/
structure Features where
  eventIdx : Bool
  notifyOnEmpty : Bool
  deriving DecidableEq, Repr

/-- `vring_avail_flags`. -/
def vringAvailFlags (m : GuestMemory) (r : VRing) : ℕ := ldPhys m r.avail 2

/-- `vring_avail_idx`. -/
def vringAvailIdx (m : GuestMemory) (r : VRing) : UInt16 := UInt16.ofNat (ldPhys m (r.avail + 2) 2)

/-- `vring_avail_ring`. -/
def vringAvailRing (m : GuestMemory) (r : VRing) (i : ℕ) : ℕ := ldPhys m (r.avail + 4 + 2 * i) 2

/-- `vring_used_event`. -/
def vringUsedEvent (m : GuestMemory) (r : VRing) : UInt16 := UInt16.ofNat (vringAvailRing m r r.num)

/-- `vring_used_idx`. -/
def vringUsedIdx (m : GuestMemory) (r : VRing) : UInt16 := UInt16.ofNat (ldPhys m (r.used + 2) 2)

/-- `vring_used_idx_set`. -/
def vringUsedIdxSet (m : GuestMemory) (r : VRing) (v : UInt16) : GuestMemory :=
  stPhys m (r.used + 2) 2 v.toNat

/-- Where `vring_avail_event` stores. -/
def availEventPa (r : VRing) : ℕ := r.used + 4 + 8 * r.num

/-- `vring_avail_event`. -/
def vringAvailEvent (m : GuestMemory) (q : VirtQueue) (v : UInt16) : GuestMemory :=
  if q.notification then stPhys m (availEventPa q.vring) 2 v.toNat else m

theorem vringUsedIdx_set (m : GuestMemory) (r : VRing) (v : UInt16) :
    vringUsedIdx (vringUsedIdxSet m r v) r = v := by
  have hlt : v.toNat < 256 ^ 2 := v.toNat_lt
  rw [vringUsedIdx, vringUsedIdxSet, ldPhys_stPhys, Nat.mod_eq_of_lt hlt, UInt16.ofNat_toNat]

/-! ### Descriptors -/

/-- A descriptor. -/
structure VRingDesc where
  addr : ℕ
  len : ℕ
  flags : ℕ
  next : ℕ
  deriving DecidableEq, Repr

namespace VRingDesc

/-- `VRING_DESC_F_NEXT`. -/
def hasNext (d : VRingDesc) : Bool := d.flags.testBit 0

/-- `VRING_DESC_F_WRITE`. -/
def isWrite (d : VRingDesc) : Bool := d.flags.testBit 1

/-- `VRING_DESC_F_INDIRECT`. -/
def isIndirect (d : VRingDesc) : Bool := d.flags.testBit 2

end VRingDesc

/-- The bytes of a descriptor in a table: `vring_desc_addr`, `vring_desc_len`, `vring_desc_flags`
and `vring_desc_next`. -/
def desc (m : GuestMemory) (pa i : ℕ) : VRingDesc where
  addr := ldPhys m (pa + 16 * i) 8
  len := ldPhys m (pa + 16 * i + 8) 4
  flags := ldPhys m (pa + 16 * i + 12) 2
  next := ldPhys m (pa + 16 * i + 14) 2

/-- Why the process stops. -/
inductive Fatal
  /-- "Guest moved used index from %u to %u" -/
  | movedIndex (old new : UInt16)
  /-- "Guest says index %u is available" -/
  | sillyHead (head : ℕ)
  /-- "Desc next is %u" -/
  | badNext (next : ℕ)
  /-- "Invalid size for indirect buffer table" -/
  | indirectSize
  /-- "Too many write descriptors in indirect table" -/
  | tooManyWrite
  /-- "Too many read descriptors in indirect table" -/
  | tooManyRead
  /-- "Looped descriptor" -/
  | looped
  /-- "virtio: trying to map MMIO memory" -/
  | mmio
  deriving DecidableEq, Repr

/-- `virtqueue_num_heads`. -/
def virtqueueNumHeads (m : GuestMemory) (r : VRing) (idx : UInt16) : Except Fatal ℕ :=
  let heads := (vringAvailIdx m r - idx).toNat
  if heads > r.num then .error (.movedIndex idx (vringAvailIdx m r)) else .ok heads

/-- `virtqueue_get_head`. -/
def virtqueueGetHead (m : GuestMemory) (r : VRing) (idx : ℕ) : Except Fatal ℕ :=
  let head := vringAvailRing m r (idx % r.num)
  if head ≥ r.num then .error (.sillyHead head) else .ok head

/-- `virtqueue_next_desc`, with `none` for the end of the chain, where the source has `max`. -/
def virtqueueNextDesc (m : GuestMemory) (pa i max : ℕ) : Except Fatal (Option ℕ) :=
  let d := desc m pa i
  if !d.hasNext then .ok none
  else if d.next ≥ max then .error (.badNext d.next)
  else .ok (some d.next)

/-! ### Chains -/

/-- The descriptors of the chain that starts at `i`, in a table of `max` descriptors. -/
inductive DescChain (m : GuestMemory) (pa max : ℕ) : ℕ → List ℕ → Prop
  | last {i : ℕ} (h : virtqueueNextDesc m pa i max = .ok none) : DescChain m pa max i [i]
  | link {i j : ℕ} {l : List ℕ} (h : virtqueueNextDesc m pa i max = .ok (some j))
      (htail : DescChain m pa max j l) : DescChain m pa max i (i :: l)

namespace DescChain

variable {m : GuestMemory} {pa max i j : ℕ} {l l' : List ℕ}

section

variable (h : DescChain m pa max i l)
include h

/-- A chain is determined by its start. -/
theorem unique (h' : DescChain m pa max i l') : l = l' := by
  induction h generalizing l' with
  | last hend =>
    cases h' with
    | last _ => rfl
    | link hnext _ => rw [hend] at hnext; cases hnext
  | link hnext _ ih =>
    cases h' with
    | last hend => rw [hnext] at hend; cases hend
    | link hnext' htail' =>
      rw [hnext] at hnext'
      obtain rfl : _ = _ := by simpa using hnext'
      rw [ih htail']

/-- From each descriptor of a chain the rest of it is a chain. -/
theorem exists_suffix (hj : j ∈ l) : ∃ l', l' <:+ l ∧ DescChain m pa max j l' := by
  induction h with
  | last hend =>
    obtain rfl := mem_singleton.mp hj
    exact ⟨_, suffix_rfl, .last hend⟩
  | link hnext htail ih =>
    rcases mem_cons.mp hj with rfl | hj
    · exact ⟨_, suffix_rfl, .link hnext htail⟩
    · obtain ⟨l', hl', hchain⟩ := ih hj
      exact ⟨l', hl'.trans (suffix_cons _ _), hchain⟩

/-- Only the descriptors of the chain matter. -/
theorem congr {m' : GuestMemory} (hsame : ∀ j ∈ l, desc m' pa j = desc m pa j) :
    DescChain m' pa max i l := by
  induction h with
  | last hend =>
    refine .last ?_
    rwa [virtqueueNextDesc, hsame _ (mem_singleton_self _)]
  | link hnext htail ih =>
    refine .link ?_ (ih fun j hj => hsame j (.tail _ hj))
    rwa [virtqueueNextDesc, hsame _ (.head _)]

/-- No descriptor is on a chain twice: the chain would not end. -/
theorem nodup : l.Nodup := by
  induction h with
  | last _ => exact nodup_singleton _
  | @link i k l hnext htail ih =>
    refine nodup_cons.mpr ⟨fun hmem => ?_, ih⟩
    obtain ⟨l', hl', hchain⟩ := htail.exists_suffix hmem
    have hlen := hl'.length_le
    rw [hchain.unique (.link hnext htail), length_cons] at hlen
    omega

/-- Behind the first, all descriptors of a chain are in the table. -/
theorem lt_of_mem (hi : i < max) (hj : j ∈ l) : j < max := by
  induction h with
  | last _ => exact mem_singleton.mp hj ▸ hi
  | @link i k l hnext htail ih =>
    rcases mem_cons.mp hj with rfl | hj
    · exact hi
    · refine ih ?_ hj
      simp only [virtqueueNextDesc] at hnext
      split at hnext
      · cases hnext
      · split at hnext
        · cases hnext
        · obtain rfl : _ = k := by simpa using hnext
          omega

/-- A chain is not longer than its table. -/
theorem length_le (hi : i < max) : l.length ≤ max := by
  have hsub : l ⊆ range max := fun j hj => mem_range.mpr (h.lt_of_mem hi hj)
  have hle := (subperm_of_subset h.nodup hsub).length_le
  rwa [length_range] at hle

end

end DescChain

end VariabilityTestbed.Virtio

import VariabilityTestbed.Virtio.Pop

/-!
# How many bytes are available

Before it starts on a packet, a device asks whether the pending buffers have room for it:
`virtqueue_avail_bytes` walks all pending chains, with a loop of its own, and adds up the lengths of
the writable or the readable descriptors until the request is reached.

For an indirect descriptor it sets its index to 0 and only then reads the address of the table, so
that it takes the address from descriptor 0 instead of the head. And where `virtqueue_pop` counts in
16 bits, it goes on counting in 32, so that the two read different places of the available ring
behind index 65535 unless the size of the ring divides 65536.
-/

namespace VariabilityTestbed.Virtio

open BigEndian Bytes List

/-! ### The walk -/

/-- `int` addition. -/
def addInt (a : ℤ) (n : ℕ) : ℤ := (a + n).bmod (2 ^ 32)

/-- What the walk over a chain ends with: the request is reached, or the number of descriptors and
the totals. -/
inductive Walked
  | reached
  | over (numBufs : ℕ) (inTotal outTotal : ℤ)
  deriving DecidableEq, Repr

/-- The loop over the descriptors of a chain; `none` when the fuel is used up. -/
def walkChain (m : GuestMemory) (pa max : ℕ) (inBytes outBytes : ℤ) :
    ℕ → ℕ → ℕ → ℤ → ℤ → Option (Except Fatal Walked)
  | 0, _, _, _, _ => none
  | fuel + 1, i, numBufs, inTotal, outTotal =>
    if numBufs + 1 > max then some (.error .looped)
    else
      let d := desc m pa i
      let inTotal' := if d.isWrite ∧ inBytes > 0 then addInt inTotal d.len else inTotal
      let outTotal' := if ¬d.isWrite ∧ outBytes > 0 then addInt outTotal d.len else outTotal
      if d.isWrite ∧ inBytes > 0 ∧ inTotal' ≥ inBytes then some (.ok .reached)
      else if ¬d.isWrite ∧ outBytes > 0 ∧ outTotal' ≥ outBytes then some (.ok .reached)
      else
        match virtqueueNextDesc m pa i max with
        | .error e => some (.error e)
        | .ok none => some (.ok (.over (numBufs + 1) inTotal' outTotal'))
        | .ok (some j) =>
          walkChain m pa max inBytes outBytes fuel j (numBufs + 1) inTotal' outTotal'

/-- The walk over the chain of a head, of which `totalBufs` descriptors of the queue have been seen
before. -/
def walkHead (m : GuestMemory) (r : VRing) (inBytes outBytes : ℤ) (head totalBufs : ℕ)
    (inTotal outTotal : ℤ) : Option (Except Fatal Walked) :=
  let d := desc m r.desc head
  if d.isIndirect then
    if d.len % 16 ≠ 0 then some (.error .indirectSize)
    else if totalBufs ≥ r.num then some (.error .looped)
    else
      -- `num_bufs = i = 0` stands before `desc_pa = vring_desc_addr(desc_pa, i)`
      match walkChain m (phys (desc m r.desc 0).addr) (d.len / 16) inBytes outBytes
        (d.len / 16 + 1) 0 0
          inTotal outTotal with
      | some (.ok (.over _ i o)) => some (.ok (.over (totalBufs + 1) i o))
      | x => x
  else walkChain m r.desc r.num inBytes outBytes (r.num + 1) head totalBufs inTotal outTotal

/-- The loop over the heads. -/
def walkHeads (m : GuestMemory) (r : VRing) (inBytes outBytes : ℤ) :
    ℕ → ℕ → ℕ → ℤ → ℤ → Option (Except Fatal Bool)
  | 0, _, _, _, _ => none
  | fuel + 1, idx, totalBufs, inTotal, outTotal =>
    match virtqueueNumHeads m r (UInt16.ofNat idx) with
    | .error e => some (.error e)
    | .ok 0 => some (.ok false)
    | .ok _ =>
      match virtqueueGetHead m r idx with
      | .error e => some (.error e)
      | .ok head =>
        match walkHead m r inBytes outBytes head totalBufs inTotal outTotal with
        | none => none
        | some (.error e) => some (.error e)
        | some (.ok .reached) => some (.ok true)
        | some (.ok (.over n i o)) => walkHeads m r inBytes outBytes fuel (idx + 1) n i o

/-- `virtqueue_avail_bytes`. There are at most as many heads as indexes. -/
def virtqueueAvailBytes (m : GuestMemory) (q : VirtQueue) (inBytes outBytes : ℤ) :
    Option (Except Fatal Bool) :=
  walkHeads m q.vring inBytes outBytes (2 ^ 16) q.lastAvailIdx.toNat 0 0 0

/-! ### What is available -/

/-- The elements that successive calls of `virtqueue_pop` return, up to the one that finds
nothing. -/
inductive Pops (features : Features) (maps : ℕ → ℕ → Option (ℕ × ℕ)) :
    ℕ → GuestMemory → VirtQueue → List VirtQueueElement → Prop
  | stop {k : ℕ} {m : GuestMemory} {q : VirtQueue}
      (h : virtqueuePop features (maps k) m q = some (.ok (none, q, m))) :
      Pops features maps k m q []
  | take {k : ℕ} {m m' : GuestMemory} {q q' : VirtQueue} {e : VirtQueueElement}
      {es : List VirtQueueElement}
      (h : virtqueuePop features (maps k) m q = some (.ok (some e, q', m')))
      (hrest : Pops features maps (k + 1) m' q' es) : Pops features maps k m q (e :: es)

/-- The writable or the readable bytes of elements. -/
def elementBytes (write : Bool) (es : List VirtQueueElement) : ℕ :=
  (es.map fun e => ((if write then e.inSg else e.outSg).map fun p => p.1.2).sum).sum

/-- The writable or the readable bytes of descriptors. -/
def chainBytes (write : Bool) (m : GuestMemory) (pa : ℕ) (l : List ℕ) : ℕ :=
  ((if write then inPieces m pa l else outPieces m pa l).map Prod.snd).sum

/-- A chain that is available: its head, its table and its descriptors. -/
structure PendingChain where
  head : ℕ
  table : Table
  descs : List ℕ

/-- The writable or the readable bytes of chains. -/
def pendingBytes (write : Bool) (m : GuestMemory) (chains : List PendingChain) : ℕ :=
  (chains.map fun c => chainBytes write m c.table.pa c.descs).sum

/-- The descriptors of the queue that a chain takes up. -/
def PendingChain.slots (m : GuestMemory) (r : VRing) (c : PendingChain) : List ℕ :=
  if (desc m r.desc c.head).isIndirect then [c.head] else c.descs

/-- What the driver has made available is well formed: it is a list of chains that do not share a
descriptor of the queue, that fit into elements, can be mapped and have fewer than `2 ^ 31` bytes.
The field that the device writes, `avail_event`, overlaps nothing that is read. -/
structure Pending (maps : ℕ → ℕ → Option (ℕ × ℕ)) (m : GuestMemory) (q : VirtQueue)
    (chains : List PendingChain) : Prop where
  count : virtqueueNumHeads m q.vring q.lastAvailIdx = .ok chains.length
  head : ∀ k c, chains[k]? = some c →
    virtqueueGetHead m q.vring (q.lastAvailIdx + UInt16.ofNat k).toNat = .ok c.head
  table : ∀ c ∈ chains, headTable m q.vring c.head = .ok c.table
  first : ∀ c ∈ chains, c.table.first < c.table.max
  chain : ∀ c ∈ chains, DescChain m c.table.pa c.table.max c.table.first c.descs
  in_le : ∀ c ∈ chains, (inPieces m c.table.pa c.descs).length ≤ virtqueueMaxSize
  out_le : ∀ c ∈ chains, (outPieces m c.table.pa c.descs).length ≤ virtqueueMaxSize
  slots : (chains.flatMap (PendingChain.slots m q.vring)).Nodup
  total : ∀ write, pendingBytes write m chains < 2 ^ 31
  mapped_in : ∀ k c, chains[k]? = some c →
    ∃ l, virtqueueMapSg (maps k) 0 (inPieces m c.table.pa c.descs) = .ok l
  mapped_out : ∀ k c, chains[k]? = some c →
    ∃ l, virtqueueMapSg (maps k) (inPieces m c.table.pa c.descs).length
      (outPieces m c.table.pa c.descs) = .ok l
  clear_idx : ∀ v, vringAvailIdx (stPhys m (availEventPa q.vring) 2 v) q.vring =
    vringAvailIdx m q.vring
  clear_ring : ∀ v i, i < q.vring.num →
    vringAvailRing (stPhys m (availEventPa q.vring) 2 v) q.vring i = vringAvailRing m q.vring i
  clear_head : ∀ v i, i < q.vring.num →
    desc (stPhys m (availEventPa q.vring) 2 v) q.vring.desc i = desc m q.vring.desc i
  clear_desc : ∀ v, ∀ c ∈ chains, ∀ i ∈ c.descs,
    desc (stPhys m (availEventPa q.vring) 2 v) c.table.pa i = desc m c.table.pa i

/-- The two walks go to the same places, as long as the chains before have fewer bytes than are
asked for: an indirect descriptor has the address of descriptor 0, and an index behind 65535 is for
the same place of the ring in 16 bits. -/
structure Addressed (write : Bool) (n : ℕ) (m : GuestMemory) (q : VirtQueue)
    (chains : List PendingChain) : Prop where
  indirect : ∀ done c rest, chains = done ++ c :: rest → pendingBytes write m done < n →
    (desc m q.vring.desc c.head).isIndirect = true →
      phys (desc m q.vring.desc 0).addr = phys (desc m q.vring.desc c.head).addr
  place : ∀ done c rest, chains = done ++ c :: rest → pendingBytes write m done < n →
    (q.lastAvailIdx.toNat + done.length) % 2 ^ 16 % q.vring.num =
    (q.lastAvailIdx.toNat + done.length) % q.vring.num

/-! ### Along a chain -/

variable {m : GuestMemory} {pa max i numBufs fuel tot n : ℕ} {write : Bool} {l : List ℕ}

/-- The number for the writable direction, if that is the one asked for. -/
def forIn (write : Bool) (n : ℕ) : ℤ := if write then n else 0

/-- The number for the readable direction, if that is the one asked for. -/
def forOut (write : Bool) (n : ℕ) : ℤ := if write then 0 else n

theorem addInt_of_lt {a b : ℕ} (h : a + b < 2 ^ 31) : addInt a b = (a + b : ℕ) := by
  rw [addInt, ← Int.natCast_add]
  exact Int.bmod_eq_of_le (by omega) (by omega)

theorem pendingBytes_cons (write : Bool) (m : GuestMemory) (c : PendingChain)
    (chains : List PendingChain) :
    pendingBytes write m (c :: chains) = chainBytes write m c.table.pa c.descs + pendingBytes
      write m chains :=
  rfl

theorem pendingBytes_concat (write : Bool) (m : GuestMemory) (chains : List PendingChain)
    (c : PendingChain) :
    pendingBytes write m (chains ++ [c]) = pendingBytes write m chains + chainBytes write m
      c.table.pa c.descs := by
  rw [pendingBytes, map_append, sum_append, map_singleton, sum_singleton, pendingBytes]

theorem chainBytes_cons (write : Bool) (m : GuestMemory) (pa i : ℕ) (l : List ℕ) :
    chainBytes write m pa (i :: l) =
      (if (desc m pa i).isWrite = write then (desc m pa i).len else 0) + chainBytes
        write m pa l := by
  cases write <;> cases h : (desc m pa i).isWrite <;>
    simp [chainBytes, inPieces_cons, outPieces_cons, h, VRingDesc.sg]

/-- One round, when one direction is asked for. -/
theorem walkChain_succ (hpos : 0 < n)
    (hfit : (desc m pa i).isWrite = write → tot + (desc m pa i).len < 2 ^ 31) :
    walkChain m pa max (forIn write n) (forOut write n) (fuel + 1) i numBufs (forIn write tot)
        (forOut write tot) =
      if numBufs + 1 > max then some (.error .looped)
      else
        let tot' := if (desc m pa i).isWrite = write then tot + (desc m pa i).len else tot
        if (desc m pa i).isWrite = write ∧ n ≤ tot' then some (.ok .reached)
        else
          match virtqueueNextDesc m pa i max with
          | .error e => some (.error e)
          | .ok none => some (.ok (.over (numBufs + 1) (forIn write tot') (forOut write tot')))
          | .ok (some j) =>
            walkChain m pa max (forIn write n) (forOut write n) fuel j (numBufs + 1)
              (forIn write tot')
              (forOut write tot') := by
  have hcast : ∀ k : ℕ, ((n : ℤ) ≤ tot + k) ↔ n ≤ tot + k := fun k => by omega
  cases write with
  | true =>
    cases h : (desc m pa i).isWrite with
    | true =>
      have hadd := addInt_of_lt (hfit h)
      simp [walkChain, forIn, forOut, h, hpos, hadd, hcast]
    | false => simp [walkChain, forIn, forOut, h]
  | false =>
    cases h : (desc m pa i).isWrite with
    | true => simp [walkChain, forIn, forOut, h]
    | false =>
      have hadd := addInt_of_lt (hfit h)
      simp [walkChain, forIn, forOut, h, hpos, hadd, hcast]

/-- **The walk over a chain** adds up its bytes, until the request is reached. -/
theorem walkChain_eq (hchain : DescChain m pa max i l) (hpos : 0 < n) (htot : tot < n)
    (hfuel : l.length ≤ fuel) (hroom : numBufs + l.length ≤ max)
    (hfit : tot + chainBytes write m pa l < 2 ^ 31) :
    walkChain m pa max (forIn write n) (forOut write n) fuel i numBufs (forIn write tot)
        (forOut write tot) =
      some (.ok (if n ≤ tot + chainBytes write m pa l then .reached
        else .over (numBufs + l.length) (forIn write (tot + chainBytes write m pa l))
          (forOut write (tot + chainBytes write m pa l)))) := by
  induction hchain generalizing fuel numBufs tot with
  | @last i hend =>
    obtain ⟨fuel, rfl⟩ : ∃ k, fuel = k + 1 := ⟨fuel - 1, (Nat.sub_add_cancel hfuel).symm⟩
    have hbytes := chainBytes_cons write m pa i []
    have hnil : chainBytes write m pa [] = 0 := by cases write <;> rfl
    rw [hnil, Nat.add_zero] at hbytes
    rw [length_singleton] at hroom ⊢
    by_cases hw : (desc m pa i).isWrite = write
    · rw [if_pos hw] at hbytes
      rw [hbytes] at hfit ⊢
      rw [walkChain_succ hpos fun _ => hfit, if_neg (by omega)]
      simp only [hw, if_true, true_and, hend]
      split_ifs <;> rfl
    · rw [if_neg hw] at hbytes
      rw [hbytes] at hfit ⊢
      rw [walkChain_succ hpos fun h => absurd h hw, if_neg (by omega)]
      simp only [hw, if_false, false_and, hend, Nat.add_zero, if_neg (not_le.mpr htot)]
  | @link i j l hnext htail ih =>
    rw [length_cons] at hroom hfuel ⊢
    obtain ⟨fuel, rfl⟩ : ∃ k, fuel = k + 1 := ⟨fuel - 1, by omega⟩
    rw [chainBytes_cons] at hfit ⊢
    have hlen : numBufs + (l.length + 1) = numBufs + 1 + l.length := by omega
    by_cases hw : (desc m pa i).isWrite = write
    · rw [if_pos hw] at hfit ⊢
      rw [walkChain_succ hpos fun _ => by omega, if_neg (by omega)]
      simp only [hw, if_true, true_and, hnext]
      by_cases hn : n ≤ tot + (desc m pa i).len
      · rw [if_pos hn, if_pos (by omega)]
      · rw [if_neg hn, ih (not_le.mp hn) (by omega) (by omega) (by omega), hlen, Nat.add_assoc]
    · rw [if_neg hw, Nat.zero_add] at hfit ⊢
      rw [walkChain_succ hpos fun h => absurd h hw, if_neg (by omega)]
      simp only [hw, if_false, false_and, hnext]
      rw [ih htot (by omega) (by omega) hfit, hlen]

/-! ### Over all heads -/

section Heads

variable {maps : ℕ → ℕ → Option (ℕ × ℕ)} {q : VirtQueue} {chains done rest : List PendingChain}
  {c : PendingChain}

/-- With `k` heads taken, the others are left. -/
theorem Pending.numHeads (h : Pending maps m q chains) {k : ℕ} (hk : k ≤ chains.length) :
    virtqueueNumHeads m q.vring (UInt16.ofNat (q.lastAvailIdx.toNat + k)) =
      .ok (chains.length - k) := by
  have hcount := h.count
  simp only [virtqueueNumHeads] at hcount
  split_ifs at hcount with hnum
  have hlen : (vringAvailIdx m q.vring - q.lastAvailIdx).toNat = chains.length := by
    simpa using hcount
  have hleft : (vringAvailIdx m q.vring - UInt16.ofNat (q.lastAvailIdx.toNat + k)).toNat =
      chains.length - k := by
    have hlast := q.lastAvailIdx.toNat_lt
    have havail := (vringAvailIdx m q.vring).toNat_lt
    rw [UInt16.toNat_sub] at hlen ⊢
    rw [UInt16.toNat_ofNat']
    omega
  simp only [virtqueueNumHeads, hleft]
  rw [if_neg (by omega)]

theorem Pending.length_lt (h : Pending maps m q chains) : chains.length < 2 ^ 16 := by
  have hcount := h.count
  simp only [virtqueueNumHeads] at hcount
  split_ifs at hcount
  have hlen : (vringAvailIdx m q.vring - q.lastAvailIdx).toNat = chains.length := by
    simpa using hcount
  exact hlen ▸ UInt16.toNat_lt _

/-- The place in the ring is the same for both walks. -/
theorem Pending.getHead (h : Pending maps m q (done ++ c :: rest))
    (hplace : (q.lastAvailIdx.toNat + done.length) % 2 ^ 16 % q.vring.num =
      (q.lastAvailIdx.toNat + done.length) % q.vring.num) :
    virtqueueGetHead m q.vring (q.lastAvailIdx.toNat + done.length) = .ok c.head := by
  have hhead := h.head done.length c (by simp)
  have hidx : (q.lastAvailIdx + UInt16.ofNat done.length).toNat =
      (q.lastAvailIdx.toNat + done.length) % 2 ^ 16 := by
    rw [UInt16.toNat_add, UInt16.toNat_ofNat', Nat.add_mod_mod]
  simp only [virtqueueGetHead, hidx, hplace] at hhead
  exact hhead

theorem headTable_indirect {r : VRing} {head : ℕ} {t : Table} (h : headTable m r head = .ok t)
    (hind : (desc m r.desc head).isIndirect = true) :
    (desc m r.desc head).len % 16 = 0 ∧
      t = ⟨phys (desc m r.desc head).addr, (desc m r.desc head).len / 16, 0⟩ := by
  simp only [headTable, hind, if_true] at h
  split_ifs at h with hlen
  exact ⟨not_not.mp hlen, by simpa using h.symm⟩

theorem headTable_direct {r : VRing} {head : ℕ} {t : Table} (h : headTable m r head = .ok t)
    (hind : (desc m r.desc head).isIndirect = false) : t = ⟨r.desc, r.num, head⟩ := by
  simp only [headTable, hind, Bool.false_eq_true, if_false] at h
  simpa using h.symm

/-- The chains take up no more descriptors than the queue has. -/
theorem Pending.slots_le (h : Pending maps m q (done ++ rest)) :
    (done.flatMap (PendingChain.slots m q.vring)).length ≤ q.vring.num := by
  have hnodup := h.slots
  rw [flatMap_append] at hnodup
  have hsub : done.flatMap (PendingChain.slots m q.vring) ⊆ range q.vring.num := by
    intro j hj
    obtain ⟨c, hc, hj⟩ := mem_flatMap.mp hj
    have hmem : c ∈ done ++ rest := mem_append_left _ hc
    obtain ⟨k, hk⟩ := getElem?_of_mem hmem
    have hhead := virtqueueGetHead_lt (h.head k c hk)
    rw [mem_range]
    cases hind : (desc m q.vring.desc c.head).isIndirect with
    | true =>
      rw [PendingChain.slots, if_pos hind] at hj
      exact mem_singleton.mp hj ▸ hhead
    | false =>
      rw [PendingChain.slots, if_neg (by simp [hind])] at hj
      have hlt := (h.chain c hmem).lt_of_mem (h.first c hmem) hj
      rw [headTable_direct (h.table c hmem) hind] at hlt
      exact hlt
  have hle := (subperm_of_subset (List.Nodup.of_append_left hnodup) hsub).length_le
  rwa [length_range] at hle

/-- **The walk over the chain of a head**, when the request has not been reached before. -/
theorem Pending.walkHead (write : Bool) (h : Pending maps m q (done ++ c :: rest))
    (haddr : (desc m q.vring.desc c.head).isIndirect = true →
      phys (desc m q.vring.desc 0).addr = phys (desc m q.vring.desc c.head).addr) (hpos : 0 < n)
        (htot : tot < n)
    (hfit : tot + chainBytes write m c.table.pa c.descs < 2 ^ 31) :
    Virtio.walkHead m q.vring (forIn write n) (forOut write n) c.head
        (done.flatMap (PendingChain.slots m q.vring)).length (forIn write tot) (forOut write tot) =
      some (.ok (if n ≤ tot + chainBytes write m c.table.pa c.descs then .reached
        else .over ((done ++ [c]).flatMap (PendingChain.slots m q.vring)).length
          (forIn write (tot + chainBytes write m c.table.pa c.descs))
          (forOut write (tot + chainBytes write m c.table.pa c.descs)))) := by
  have hmem : c ∈ done ++ c :: rest := by simp
  have hassoc : done ++ c :: rest = (done ++ [c]) ++ rest := by simp
  have hslots := (hassoc ▸ h).slots_le
  have hchain := h.chain c hmem
  have hlen := hchain.length_le (h.first c hmem)
  rw [flatMap_append, length_append, flatMap_singleton] at hslots ⊢
  cases hind : (desc m q.vring.desc c.head).isIndirect with
  | true =>
    obtain ⟨hsize, htable⟩ := headTable_indirect (h.table c hmem) hind
    have hone : (PendingChain.slots m q.vring c).length = 1 := by
      rw [PendingChain.slots, if_pos hind, length_singleton]
    rw [htable] at hchain hlen hfit ⊢
    rw [hone] at hslots ⊢
    dsimp only at hchain hlen hfit ⊢
    have hwalk := walkChain_eq hchain hpos htot (Nat.le_succ_of_le hlen)
      ((Nat.zero_add _).trans_le hlen) hfit
    simp only [Virtio.walkHead, hind, if_true, hsize, ne_eq, not_true_eq_false, if_false,
      haddr hind, hwalk]
    rw [if_neg (by omega)]
    by_cases hreach : n ≤ tot + chainBytes write m (phys (desc m q.vring.desc c.head).addr) c.descs
    · simp only [if_pos hreach]
    · simp only [if_neg hreach]
  | false =>
    have hall : PendingChain.slots m q.vring c = c.descs := by
      rw [PendingChain.slots, if_neg (by simp [hind])]
    have htable := headTable_direct (h.table c hmem) hind
    rw [htable] at hchain hlen hfit ⊢
    rw [hall] at hslots ⊢
    simp only [Virtio.walkHead, hind, Bool.false_eq_true, if_false]
    rw [walkChain_eq hchain hpos htot (by omega) hslots hfit]

/-- **The walk over all heads.** -/
theorem Pending.walkHeads (h : Pending maps m q (done ++ rest))
    (haddr : Addressed write n m q (done ++ rest)) (hpos : 0 < n)
    (htot : pendingBytes write m done < n) (hfuel : rest.length < fuel)
    (hfit : pendingBytes write m done + pendingBytes write m rest < 2 ^ 31) :
    Virtio.walkHeads m q.vring (forIn write n) (forOut write n) fuel
        (q.lastAvailIdx.toNat + done.length) (done.flatMap (PendingChain.slots m q.vring)).length
        (forIn write (pendingBytes write m done)) (forOut write (pendingBytes write m done)) =
      some (.ok (decide (n ≤ pendingBytes write m done + pendingBytes write m rest))) := by
  induction rest generalizing done fuel with
  | nil =>
    obtain ⟨fuel, rfl⟩ : ∃ k, fuel = k + 1 := ⟨fuel - 1, by simp at hfuel; omega⟩
    have hheads := h.numHeads (k := done.length) (by simp)
    rw [append_nil, Nat.sub_self] at hheads
    have hno : ¬n ≤ pendingBytes write m done + pendingBytes write m [] := not_le.mpr htot
    simp only [Virtio.walkHeads, hheads, hno, decide_false]
  | cons c rest ih =>
    obtain ⟨fuel, rfl⟩ : ∃ k, fuel = k + 1 := ⟨fuel - 1, by omega⟩
    rw [pendingBytes_cons, ← Nat.add_assoc] at hfit ⊢
    have hheads := h.numHeads (k := done.length) (by simp)
    have hsub : (done ++ c :: rest).length - done.length = rest.length + 1 := by simp
    rw [hsub] at hheads
    have hassoc : done ++ c :: rest = (done ++ [c]) ++ rest := by simp
    have hwalk := h.walkHead write (haddr.indirect done c rest rfl htot) hpos htot (by omega)
    simp only [Virtio.walkHeads, hheads, h.getHead (haddr.place done c rest rfl htot), hwalk]
    by_cases hreach : n ≤ pendingBytes write m done + chainBytes write m c.table.pa c.descs
    · simp only [if_pos hreach]
      rw [decide_eq_true (by omega)]
    · simp only [if_neg hreach]
      rw [hassoc] at h haddr
      rw [← pendingBytes_concat] at hreach hfit ⊢
      have hstep := ih h haddr (not_le.mp hreach) (by simp at hfuel; omega) hfit
      rw [length_append, length_singleton, ← Nat.add_assoc] at hstep
      exact hstep

end Heads

/-! ### Taking what is available -/

section Taking

variable {maps : ℕ → ℕ → Option (ℕ × ℕ)} {q q' : VirtQueue} {m' : GuestMemory}
  {chains done rest : List PendingChain} {c : PendingChain}

/-- Memory in which at most `avail_event` has been written. -/
def Published (m : GuestMemory) (r : VRing) (m' : GuestMemory) : Prop :=
  m' = m ∨ ∃ v, m' = stPhys m (availEventPa r) 2 v

theorem Published.event {r : VRing} (h : Published m r m') (v : ℕ) :
    Published m r (stPhys m' (availEventPa r) 2 v) := by
  rcases h with rfl | ⟨v', rfl⟩
  · exact .inr ⟨v, rfl⟩
  · exact .inr ⟨v, stPhys_stPhys _ _ _ _ _⟩

section

variable (h : Pending maps m q chains) (hpub : Published m q.vring m')
include h hpub

theorem Pending.availIdx_eq : vringAvailIdx m' q.vring = vringAvailIdx m q.vring := by
  rcases hpub with rfl | ⟨v, rfl⟩
  · rfl
  · exact h.clear_idx v

theorem Pending.availRing_eq {i : ℕ} (hi : i < q.vring.num) :
    vringAvailRing m' q.vring i = vringAvailRing m q.vring i := by
  rcases hpub with rfl | ⟨v, rfl⟩
  · rfl
  · exact h.clear_ring v i hi

theorem Pending.head_eq {i : ℕ} (hi : i < q.vring.num) :
    desc m' q.vring.desc i = desc m q.vring.desc i := by
  rcases hpub with rfl | ⟨v, rfl⟩
  · rfl
  · exact h.clear_head v i hi

theorem Pending.desc_eq (hc : c ∈ chains) {i : ℕ} (hi : i ∈ c.descs) :
    desc m' c.table.pa i = desc m c.table.pa i := by
  rcases hpub with rfl | ⟨v, rfl⟩
  · rfl
  · exact h.clear_desc v c hc i hi

/-- The pieces of a chain are the same in all such memories. -/
theorem Pending.pieces_eq (hc : c ∈ chains) :
    inPieces m' c.table.pa c.descs = inPieces m c.table.pa c.descs ∧
      outPieces m' c.table.pa c.descs = outPieces m c.table.pa c.descs := by
  have hmap : c.descs.map (desc m' c.table.pa) = c.descs.map (desc m c.table.pa) :=
    map_congr_left fun i hi => h.desc_eq hpub hc hi
  exact ⟨by rw [inPieces, hmap, inPieces], by rw [outPieces, hmap, outPieces]⟩

end

/-- From the table of a pending chain on, an element is returned. -/
theorem Pending.popTable_eq (q' : VirtQueue) (h : Pending maps m q (done ++ c :: rest))
    (hpub : Published m q.vring m') :
    ∃ e : VirtQueueElement, popTable (maps done.length) m' q' c.head c.table =
        some (.ok (some e, { q' with inuse := q'.inuse + 1 }, m')) ∧
      e.inSg.map Prod.fst = inPieces m c.table.pa c.descs ∧
      e.outSg.map Prod.fst = outPieces m c.table.pa c.descs := by
  have hmem : c ∈ done ++ c :: rest := by simp
  have hk : (done ++ c :: rest)[done.length]? = some c := by simp
  obtain ⟨hpin, hpout⟩ := h.pieces_eq hpub hmem
  have hchain := (h.chain c hmem).congr fun i hi => h.desc_eq hpub hmem hi
  have hlen := hchain.length_le (h.first c hmem)
  have hin := h.in_le c hmem
  have hout := h.out_le c hmem
  have hpieces : (inPieces m c.table.pa c.descs).length + (outPieces m c.table.pa c.descs).length =
      c.descs.length := length_pieces c.descs
  have hcollect : collect m' c.table.pa c.table.max collectFuel c.table.first [] [] =
      some (.ok ([] ++ inPieces m' c.table.pa c.descs, [] ++ outPieces m' c.table.pa c.descs)) :=
    collect_of_chain hchain (by rw [collectFuel]; omega) (by rw [hpin]; simpa using hin)
      (by rw [hpout]; simpa using hout) (by simpa using hlen)
  rw [nil_append, nil_append, hpin, hpout] at hcollect
  obtain ⟨inSg, hinSg⟩ := h.mapped_in _ c hk
  obtain ⟨outSg, houtSg⟩ := h.mapped_out _ c hk
  refine ⟨⟨c.head, inSg, outSg⟩, ?_, virtqueueMapSg_eq_ok hinSg, virtqueueMapSg_eq_ok houtSg⟩
  simp only [popTable, hcollect, hinSg, houtSg]

/-- **A call takes the next pending chain.** -/
theorem Pending.pop (features : Features) (h : Pending maps m q (done ++ c :: rest))
    (hpub : Published m q.vring m') (hvring : q'.vring = q.vring)
    (hlast : q'.lastAvailIdx = q.lastAvailIdx + UInt16.ofNat done.length) :
    ∃ e q₂ m₂, virtqueuePop features (maps done.length) m' q' = some (.ok (some e, q₂, m₂)) ∧
      Published m q.vring m₂ ∧ q₂.vring = q.vring ∧ q₂.lastAvailIdx = q'.lastAvailIdx + 1 ∧
      e.inSg.map Prod.fst = inPieces m c.table.pa c.descs ∧
      e.outSg.map Prod.fst = outPieces m c.table.pa c.descs := by
  have hmem : c ∈ done ++ c :: rest := by simp
  have hk : (done ++ c :: rest)[done.length]? = some c := by simp
  have hidx : q'.lastAvailIdx = UInt16.ofNat (q.lastAvailIdx.toNat + done.length) := by
    rw [hlast, UInt16.ofNat_add, UInt16.ofNat_toNat]
  have hheads : virtqueueNumHeads m' q'.vring q'.lastAvailIdx = .ok (rest.length + 1) := by
    have hm := h.numHeads (k := done.length) (by simp)
    rw [hidx, hvring, virtqueueNumHeads, h.availIdx_eq hpub]
    rw [virtqueueNumHeads] at hm
    rw [hm]
    simp
  have hnum : 0 < q.vring.num := Nat.zero_lt_of_lt (virtqueueGetHead_lt (h.head _ c hk))
  have hhead : virtqueueGetHead m' q'.vring q'.lastAvailIdx.toNat = .ok c.head := by
    have hm := h.head _ c hk
    rw [← hlast] at hm
    rw [hvring, virtqueueGetHead, h.availRing_eq hpub (Nat.mod_lt _ hnum)]
    exact hm
  have hlt : c.head < q.vring.num := virtqueueGetHead_lt (h.head _ c hk)
  obtain ⟨m₂, hm₂, hpub₂⟩ : ∃ m₂, (if features.eventIdx = true then
      vringAvailEvent m' { q' with lastAvailIdx := q'.lastAvailIdx + 1 } (vringAvailIdx m' q'.vring)
      else m') = m₂ ∧ Published m q.vring m₂ := by
    refine ⟨_, rfl, ?_⟩
    rw [vringAvailEvent]
    split_ifs
    · simp only [hvring]
      exact hpub.event _
    · exact hpub
    · exact hpub
  have htable : headTable m₂ q'.vring c.head = .ok c.table := by
    rw [hvring, headTable, h.head_eq hpub₂ hlt]
    exact h.table c hmem
  obtain ⟨e, he, hin, hout⟩ := h.popTable_eq { q' with lastAvailIdx := q'.lastAvailIdx + 1 } hpub₂
  refine ⟨e, { q' with lastAvailIdx := q'.lastAvailIdx + 1, inuse := q'.inuse + 1 }, m₂, ?_,
    hpub₂, hvring,
    rfl, hin, hout⟩
  simp only [virtqueuePop, hheads, hhead, hm₂, htable, he]

theorem elementBytes_cons (e : VirtQueueElement) (es : List VirtQueueElement) :
    elementBytes write (e :: es) =
      (((if write then e.inSg else e.outSg).map Prod.fst).map Prod.snd).sum + elementBytes
        write es := by
  rw [elementBytes, map_cons, sum_cons, map_map]
  rfl

/-- **Successive calls take all pending chains.** -/
theorem Pending.pops (features : Features) (h : Pending maps m q (done ++ rest))
    (hpub : Published m q.vring m') (hvring : q'.vring = q.vring)
    (hlast : q'.lastAvailIdx = q.lastAvailIdx + UInt16.ofNat done.length) :
    ∃ es, Pops features maps done.length m' q' es ∧
      ∀ write, elementBytes write es = pendingBytes write m rest := by
  induction rest generalizing done m' q' with
  | nil =>
    have hheads : virtqueueNumHeads m' q'.vring q'.lastAvailIdx = .ok 0 := by
      have hm := h.numHeads (k := done.length) (by simp)
      rw [append_nil, Nat.sub_self] at hm
      rw [hlast, hvring, virtqueueNumHeads, h.availIdx_eq hpub]
      rw [virtqueueNumHeads, UInt16.ofNat_add, UInt16.ofNat_toNat] at hm
      exact hm
    refine ⟨[], .stop ?_, fun write => rfl⟩
    simp only [virtqueuePop, hheads]
  | cons c rest ih =>
    obtain ⟨e, q₂, m₂, hpop, hpub₂, hvring₂, hlast₂, hin, hout⟩ := h.pop features hpub hvring hlast
    have hassoc : done ++ c :: rest = (done ++ [c]) ++ rest := by simp
    rw [hassoc] at h
    obtain ⟨es, hes, hbytes⟩ := ih h hpub₂ hvring₂ (by
      rw [hlast₂, hlast, length_append, length_singleton, UInt16.ofNat_add]
      exact UInt16.add_assoc _ _ _)
    rw [length_append, length_singleton] at hes
    refine ⟨e :: es, .take hpop hes, fun write => ?_⟩
    rw [elementBytes_cons, pendingBytes_cons, hbytes write]
    cases write with
    | true => rw [if_pos rfl, hin]; rfl
    | false => rw [if_neg (by decide), hout]; rfl

end Taking

/-- **The check tells the truth** about one direction, if the two walks go to the same places until
the request is met. -/
theorem avail_bytes_truthful (features : Features) {maps : ℕ → ℕ → Option (ℕ × ℕ)} {q : VirtQueue}
    {chains : List PendingChain} (h : Pending maps m q chains) (write : Bool)
    (haddr : Addressed write n m q chains) (hpos : 0 < n) :
    ∃ es b, Pops features maps 0 m q es ∧
      virtqueueAvailBytes m q (forIn write n) (forOut write n) = some (.ok b) ∧
      (b = true ↔ n ≤ elementBytes write es) := by
  have h₀ : Pending maps m q ([] ++ chains) := h
  obtain ⟨es, hpops, hbytes⟩ := h₀.pops features (.inl rfl) rfl (by simp)
  have hzero : pendingBytes write m [] = 0 := rfl
  have hwalk :=
    h₀.walkHeads haddr hpos hpos h.length_lt (by rw [hzero, Nat.zero_add]; exact h.total write)
  have hnone : forIn write 0 = 0 ∧ forOut write 0 = 0 := by cases write <;> exact ⟨rfl, rfl⟩
  rw [hzero, hnone.1, hnone.2, length_nil, Nat.add_zero, flatMap_nil, length_nil, Nat.zero_add]
    at hwalk
  refine ⟨es, _, hpops, by rw [virtqueueAvailBytes, hwalk], ?_⟩
  rw [decide_eq_true_iff, hbytes write]

/-! ### An indirect descriptor -/

/-- Memory with an indirect descriptor at place `head` of a queue of two, which leads to a table
with a writable descriptor of 10 bytes. The other descriptor is empty. -/
def indirectAt (head : ℕ) : GuestMemory := fun a =>
  ([(16 * head + 1, 1), (16 * head + 8, 16), (16 * head + 12, 4), (34, 1), (36, UInt8.ofNat head),
    (257, 2), (264, 10), (268, 2)].lookup a).getD 0

/-- The queue of two. -/
def queueOfTwo : VirtQueue := ⟨⟨2, 0, 32, 4096⟩, 0, 0, false, true, 0⟩

/-- The chain of the indirect descriptor. -/
def indirectChain (head : ℕ) : PendingChain := ⟨head, ⟨256, 1, 0⟩, [0]⟩

theorem indirectAt_pending {head : ℕ} (hhead : head < 2) :
    Pending (fun _ _ => some (0, 10)) (indirectAt head) queueOfTwo [indirectChain head] := by
  have hld : ∀ v pb w', pb + w' ≤ 4116 →
      ldPhys (stPhys (indirectAt head) (availEventPa queueOfTwo.vring) 2 v) pb w' =
        ldPhys (indirectAt head) pb w' := by
    intro v pb w' hle
    have hev : availEventPa queueOfTwo.vring = 4116 := rfl
    exact ldPhys_stPhys_of_le _ (by rw [hev]; exact hle) (by rw [hev]; omega) v
  have hclear : ∀ v pa i, pa + 16 * i + 16 ≤ 4116 →
      desc (stPhys (indirectAt head) (availEventPa queueOfTwo.vring) 2 v) pa i =
        desc (indirectAt head) pa i := by
    intro v pa i hle
    simp only [desc, hld v (pa + 16 * i) 8 (by omega), hld v (pa + 16 * i + 8) 4 (by omega),
      hld v (pa + 16 * i + 12) 2 (by omega), hld v (pa + 16 * i + 14) 2 (by omega)]
  have hone : ∀ {k c}, [indirectChain head][k]? = some c → k = 0 ∧ indirectChain head = c := by
    intro k c hk
    rcases k with _ | k
    · exact ⟨rfl, by simpa using hk⟩
    · simp at hk
  obtain rfl | rfl : head = 0 ∨ head = 1 := by omega
  all_goals exact
    { count := by decide
      head := fun k c hk => by obtain ⟨rfl, rfl⟩ := hone hk; decide
      table := fun c hc => by obtain rfl := mem_singleton.mp hc; decide
      first := fun c hc => by obtain rfl := mem_singleton.mp hc; decide
      chain := fun c hc => by obtain rfl := mem_singleton.mp hc; exact .last (by decide)
      in_le := fun c hc => by obtain rfl := mem_singleton.mp hc; decide
      out_le := fun c hc => by obtain rfl := mem_singleton.mp hc; decide
      slots := by decide
      total := fun write => by cases write <;> decide +kernel
      mapped_in := fun k c hk => by
        obtain ⟨rfl, rfl⟩ := hone hk; exact ⟨[((512, 10), 0)], by decide⟩
      mapped_out := fun k c hk => by obtain ⟨rfl, rfl⟩ := hone hk; exact ⟨[], by decide⟩
      clear_idx := fun v => congrArg UInt16.ofNat (hld v 34 2 (by omega))
      clear_ring := fun v i hi => hld v _ 2 (by simp only [queueOfTwo] at hi ⊢; omega)
      clear_head := fun v i hi => hclear v 0 i (by simp [queueOfTwo] at hi; omega)
      clear_desc := fun v c hc i hi => by
        obtain rfl := mem_singleton.mp hc
        obtain rfl := mem_singleton.mp hi
        exact hclear v 256 0 (by omega) }

/-- At descriptor 1 the address is taken from descriptor 0: of the 10 bytes none is seen. -/
theorem indirect_at_one_misread :
    Pending (fun _ _ => some (0, 10)) (indirectAt 1) queueOfTwo [indirectChain 1] ∧
      (∃ es, Pops ⟨false, false⟩ (fun _ _ => some (0, 10)) 0 (indirectAt 1) queueOfTwo es ∧
        elementBytes true es = 10) ∧
      virtqueueAvailBytes (indirectAt 1) queueOfTwo 5 0 = some (.ok false) := by
  refine ⟨indirectAt_pending (by decide), ?_, by decide +kernel⟩
  have hpending :
      Pending (fun _ _ => some (0, 10)) (indirectAt 1) queueOfTwo ([] ++ [indirectChain 1]) :=
    indirectAt_pending (by decide)
  obtain ⟨es, hpops, hbytes⟩ := hpending.pops ⟨false, false⟩ (.inl rfl) rfl (by simp)
  exact ⟨es, hpops, (hbytes true).trans (by decide)⟩

/-- At descriptor 0 they are. -/
theorem indirect_at_zero_seen :
    Pending (fun _ _ => some (0, 10)) (indirectAt 0) queueOfTwo [indirectChain 0] ∧
      Addressed true 5 (indirectAt 0) queueOfTwo [indirectChain 0] ∧
      ∃ es b, Pops ⟨false, false⟩ (fun _ _ => some (0, 10)) 0 (indirectAt 0) queueOfTwo es ∧
        virtqueueAvailBytes (indirectAt 0) queueOfTwo (forIn true 5) (forOut true 5) =
          some (.ok b) ∧ (b = true ↔ 5 ≤ elementBytes true es) := by
  have hpending : Pending (fun _ _ => some (0, 10)) (indirectAt 0) queueOfTwo [indirectChain 0] :=
    indirectAt_pending (by decide)
  have haddr : Addressed true 5 (indirectAt 0) queueOfTwo [indirectChain 0] := by
    refine ⟨fun done c rest hsplit _ _ => ?_, fun done c rest _ _ =>
      Nat.mod_mod_of_dvd _ (by decide)⟩
    obtain rfl :=
      mem_singleton.mp (hsplit ▸ mem_append_right done mem_cons_self : c ∈ [indirectChain 0])
    rfl
  exact ⟨hpending, haddr, avail_bytes_truthful ⟨false, false⟩ hpending true haddr (by decide)⟩

end VariabilityTestbed.Virtio

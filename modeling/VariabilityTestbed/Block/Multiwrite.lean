import VariabilityTestbed.IoVectors
import VariabilityTestbed.Lib.BigEndian

/-!
# Batches of writes

`bdrv_aio_multiwrite` takes a batch of write requests, sorts them by sector, merges neighbours that
touch or overlap, and submits what is left. The callbacks of all requests are called when the last
of the writes is complete; a dummy request keeps the count above zero until all are submitted.

A merge cuts the accumulated request where the next one starts and appends the next one. When the
next request ends before the accumulated one does, the rest of the accumulated request is dropped.
The size of a merged request is an `int`, so it is also cut when it reaches `2 ^ 32` sectors.
-/

namespace VariabilityTestbed.Block

open Runs BigEndian List

/-! ### I/O vectors -/

/-- `qemu_iovec_copy`: what is appended to the destination. -/
def iovecCopy : List (List UInt8) → ℕ → ℕ → List (List UInt8)
  | [], _, _ => []
  | iov :: src, skip, size =>
    if size = 0 then []
    else if iov.length ≤ skip then iovecCopy src (skip - iov.length) size
    else if size < iov.length - skip then [(iov.drop skip).take size]
    else iov.drop skip :: iovecCopy src 0 (size - (iov.length - skip))

/-- `qemu_iovec_concat`. -/
def iovecConcat (dst src : List (List UInt8)) (size : ℕ) : List (List UInt8) :=
  dst ++ iovecCopy src 0 size

/-- What the blocks of a vector hold, in memory. -/
def contents (m : ℕ → UInt8) (iov : List IoVectors.Iovec) : List (List UInt8) :=
  iov.map fun v => Bytes.loadBytes m v.base v.len

/-- A part of a block. -/
theorem loadBytes_part (m : ℕ → UInt8) (p : ℕ) {off n len : ℕ} (h : off + n ≤ len) :
    Bytes.loadBytes m (p + off) n = ((Bytes.loadBytes m p len).drop off).take n := by
  obtain ⟨rest, rfl⟩ := Nat.exists_eq_add_of_le h
  rw [Nat.add_assoc, Bytes.loadBytes_add, drop_left' (Bytes.length_loadBytes ..),
    Bytes.loadBytes_add, take_left' (Bytes.length_loadBytes ..)]

theorem contents_pieces (m : ℕ → UInt8) (iov : List IoVectors.Iovec) (skip size : ℕ) :
    contents m (IoVectors.pieces iov skip size) = iovecCopy (contents m iov) skip size := by
  induction iov generalizing skip size with
  | nil => rfl
  | cons v iov ih =>
    have hlen : (Bytes.loadBytes m v.base v.len).length = v.len := Bytes.length_loadBytes ..
    rw [IoVectors.pieces, contents, contents, map_cons, iovecCopy, hlen]
    split_ifs with hzero hskip hsize
    · rfl
    · exact ih _ _
    · exact congrArg (fun l => [l]) (loadBytes_part m v.base (by omega : skip + size ≤ v.len))
    · have hall : ((Bytes.loadBytes m v.base v.len).drop skip).take (v.len - skip) =
          (Bytes.loadBytes m v.base v.len).drop skip :=
          take_of_length_le (by rw [length_drop, hlen])
      exact congrArg₂ cons
        ((loadBytes_part m v.base (by omega : skip + (v.len - skip) ≤ v.len)).trans hall) (ih _ _)

/-- This is what `qemu_iovec_copy` does to the contents of the blocks. -/
theorem contents_qemuIovecCopy {dst src dst' : IoVectors.QemuIovec} {skip size : ℕ} (m : ℕ → UInt8)
    (h : IoVectors.qemuIovecCopy dst src skip size = some dst') :
    contents m dst'.iov = contents m dst.iov ++ iovecCopy (contents m src.iov) skip size := by
  rw [(IoVectors.qemuIovecCopy_eq h).1, ← contents_pieces]
  exact map_append

/-- The bytes that are copied. -/
theorem flatten_iovecCopy (src : List (List UInt8)) (skip size : ℕ) :
    (iovecCopy src skip size).flatten = (src.flatten.drop skip).take size := by
  induction src generalizing skip size with
  | nil => simp [iovecCopy]
  | cons iov src ih =>
    rw [iovecCopy, flatten_cons]
    split_ifs with hzero hskip hsize
    · rw [hzero]
      rfl
    · rw [ih, drop_append, drop_eq_nil_of_le hskip, nil_append]
    · have hle : size ≤ (iov.drop skip).length := by
        rw [length_drop]
        omega
      rw [drop_append, take_append_of_le_length hle]
      exact append_nil _
    · have hlen : (iov.drop skip).length = iov.length - skip := length_drop
      have hdrop : skip - iov.length = 0 := by omega
      have htake : (iov.drop skip).take size = iov.drop skip := take_of_length_le (by omega)
      rw [flatten_cons, ih, drop_zero, drop_append, hdrop, drop_zero, take_append, hlen, htake]

/-! ### Requests -/

/-- A `BlockRequest`. The callback is known by its `opaque` pointer, a number here. -/
structure BlockRequest where
  sector : ℕ
  nbSectors : ℤ
  qiov : List (List UInt8)
  callback : ℕ
  deriving DecidableEq, Repr

namespace BlockRequest

/-- The sector behind the last one. -/
def last (r : BlockRequest) : ℤ := r.sector + r.nbSectors

/-- The request is for the sector. -/
def Covers (r : BlockRequest) (s : ℕ) : Prop := r.sector ≤ s ∧ (s : ℤ) < r.last

instance (r : BlockRequest) (s : ℕ) : Decidable (r.Covers s) := inferInstanceAs (Decidable (_ ∧ _))

/-- What the request carries for a sector. -/
def data (r : BlockRequest) (s : ℕ) : List UInt8 :=
  (r.qiov.flatten.drop ((s - r.sector) * 512)).take 512

/-- The sectors of the request. -/
def sectors (r : BlockRequest) : List ℕ := (List.range r.nbSectors.toNat).map (r.sector + ·)

/-- The vector has the size of the request. -/
def Sized (r : BlockRequest) : Prop := (r.qiov.flatten.length : ℤ) = r.nbSectors * 512

instance (r : BlockRequest) : Decidable r.Sized := inferInstanceAs (Decidable (_ = _))

/-- The vector is at least as long as the request. -/
def Full (r : BlockRequest) : Prop := r.nbSectors * 512 ≤ (r.qiov.flatten.length : ℤ)

variable {r : BlockRequest} {s : ℕ}

theorem mem_sectors : s ∈ r.sectors ↔ r.Covers s := by
  rw [sectors, mem_map, Covers, last]
  constructor
  · rintro ⟨k, hk, rfl⟩
    rw [mem_range] at hk
    omega
  · rintro ⟨hle, hlt⟩
    exact ⟨s - r.sector, mem_range.mpr (by omega), by omega⟩

theorem Sized.full (h : r.Sized) : r.Full := h.ge

end BlockRequest

/-- `IOV_MAX`. -/
def iovMax : ℕ := 1024

/-- Two requests are merged: they touch or overlap, and the vector does not get too long. -/
def merges (acc r : BlockRequest) : Bool :=
  decide ((r.sector : ℤ) ≤ acc.last) && decide (acc.qiov.length + r.qiov.length + 1 ≤ iovMax)

/-- The sectors of a vector of `n` bytes, as an `int`. -/
def sectorsInt (n : ℕ) : ℤ := Int.bmod (n / 512 : ℕ) (2 ^ 32)

/-- The vector of two requests that are merged. -/
def mergedQiov (acc r : BlockRequest) : List (List UInt8) :=
  iovecConcat (iovecConcat [] acc.qiov ((r.sector - acc.sector) * 512)) r.qiov r.qiov.flatten.length

/-- The merged request; its size is stored in an `int`. -/
def mergeTwo (acc r : BlockRequest) : BlockRequest where
  sector := acc.sector
  nbSectors := sectorsInt (mergedQiov acc r).flatten.length
  qiov := mergedQiov acc r
  callback := acc.callback

/-- The loop of `multiwrite_merge`, for a driver without `bdrv_merge_requests`. -/
def mergeLoop : BlockRequest → List BlockRequest → List BlockRequest
  | acc, [] => [acc]
  | acc, r :: rest =>
    if merges acc r then mergeLoop (mergeTwo acc r) rest else acc :: mergeLoop r rest

/-- `multiwrite_merge`, of requests that are sorted. -/
def multiwriteMerge : List BlockRequest → List BlockRequest
  | [] => []
  | r :: rest => mergeLoop r rest

variable {acc r o : BlockRequest} {rest fin reqs sorted : List BlockRequest} {s : ℕ}

theorem flatten_mergedQiov (acc r : BlockRequest) :
    (mergedQiov acc r).flatten =
      acc.qiov.flatten.take ((r.sector - acc.sector) * 512) ++ r.qiov.flatten := by
  simp only [mergedQiov, iovecConcat, nil_append, flatten_append, flatten_iovecCopy,
    drop_zero, take_length]

section

variable (a : ℕ) (n : ℤ) (q : List (List UInt8)) (c : ℕ)

-- the fields are read off a constructor: comparing the two requests would evaluate the `int`
theorem BlockRequest.sector_mk :
    (BlockRequest.mk a n q c).sector = a := rfl

theorem BlockRequest.nbSectors_mk :
    (BlockRequest.mk a n q c).nbSectors = n := rfl

theorem BlockRequest.qiov_mk :
    (BlockRequest.mk a n q c).qiov = q := rfl

end

theorem sector_mergeTwo (acc r : BlockRequest) : (mergeTwo acc r).sector = acc.sector :=
  BlockRequest.sector_mk ..

theorem flatten_mergeTwo (acc r : BlockRequest) :
    (mergeTwo acc r).qiov.flatten =
      acc.qiov.flatten.take ((r.sector - acc.sector) * 512) ++ r.qiov.flatten := by
  rw [← flatten_mergedQiov]
  exact congrArg flatten (BlockRequest.qiov_mk ..)

theorem merges_le (h : merges acc r = true) : (r.sector : ℤ) ≤ acc.last := by
  rw [merges, Bool.and_eq_true, decide_eq_true_iff] at h
  exact h.1

/-- What is kept of the first request. -/
theorem length_cut (hacc : acc.Full) (hle : acc.sector ≤ r.sector) (hm : merges acc r = true) :
    (acc.qiov.flatten.take ((r.sector - acc.sector) * 512)).length =
      (r.sector - acc.sector) * 512 := by
  have hlast := merges_le hm
  rw [BlockRequest.last] at hlast
  rw [BlockRequest.Full] at hacc
  rw [length_take]
  omega

/-- The number of sectors is not rounded up. -/
theorem sectorsInt_le (n : ℕ) : sectorsInt n * 512 ≤ n := by
  have hle : ((n / 512 : ℕ) : ℤ).bmod (2 ^ 32) ≤ (n / 512 : ℕ) := by
    have hcases := Int.bmod_def (n / 512 : ℕ) (2 ^ 32)
    split_ifs at hcases <;> omega
  calc sectorsInt n * 512 ≤ (n / 512 : ℕ) * 512 := Int.mul_le_mul_of_nonneg_right hle (by decide)
    _ ≤ n := by omega

theorem full_mergeTwo (acc r : BlockRequest) : (mergeTwo acc r).Full := by
  rw [BlockRequest.Full, mergeTwo, BlockRequest.nbSectors_mk, BlockRequest.qiov_mk]
  exact sectorsInt_le _

/-- Sectors of a merged request come from one of the two, with their data: in front of the cut from
the first, behind it from the second. -/
theorem mergeTwo_data (hacc : acc.Full) (hr : r.Sized) (hle : acc.sector ≤ r.sector)
    (hm : merges acc r = true) (hs : (mergeTwo acc r).Covers s) :
    acc.Covers s ∧ (mergeTwo acc r).data s = acc.data s ∨
      r.Covers s ∧ (mergeTwo acc r).data s = r.data s := by
  have hlen := length_cut hacc hle hm
  have hlast := merges_le hm
  have hfull := full_mergeTwo acc r
  rw [BlockRequest.Full, flatten_mergeTwo, length_append, hlen] at hfull
  have hsector := sector_mergeTwo acc r
  rw [BlockRequest.Covers, BlockRequest.last, hsector] at hs
  rw [BlockRequest.Sized] at hr
  rw [BlockRequest.data, flatten_mergeTwo, hsector]
  by_cases hlt : s < r.sector
  · refine .inl ⟨⟨hs.1, by omega⟩, ?_⟩
    rw [drop_append_of_le_length (by rw [hlen]; omega), take_append_of_le_length (by
      rw [length_drop, hlen]; omega), drop_take, take_take, BlockRequest.data]
    congr 1
    omega
  · refine .inr ⟨⟨by omega, by rw [BlockRequest.last]; omega⟩, ?_⟩
    rw [drop_append, drop_eq_nil_of_le (by rw [hlen]; omega), nil_append, hlen, BlockRequest.data]
    congr 2
    omega

/-! ### What merging keeps -/

/-- Some request is for the sector. -/
def CoversAny (l : List BlockRequest) (s : ℕ) : Prop := ∃ r ∈ l, r.Covers s

theorem coversAny_cons : CoversAny (r :: rest) s ↔ r.Covers s ∨ CoversAny rest s := by
  simp [CoversAny]

/-- The accumulated request in front of requests that are sorted and have their sizes. -/
structure Behind (acc : BlockRequest) (rest : List BlockRequest) : Prop where
  full : acc.Full
  le : ∀ r ∈ rest, acc.sector ≤ r.sector
  sorted : rest.Pairwise fun a b => a.sector ≤ b.sector
  sized : ∀ r ∈ rest, r.Sized

namespace Behind

theorem tail (h : Behind acc (r :: rest)) : Behind r rest where
  full := (h.sized r (.head _)).full
  le := (pairwise_cons.mp h.sorted).1
  sorted := (pairwise_cons.mp h.sorted).2
  sized r' hr' := h.sized r' (.tail _ hr')

theorem merged (h : Behind acc (r :: rest)) : Behind (mergeTwo acc r) rest where
  full := full_mergeTwo acc r
  le r' hr' := (sector_mergeTwo acc r).le.trans (h.le r' (.tail _ hr'))
  sorted := h.tail.sorted
  sized := h.tail.sized

theorem data_merged (h : Behind acc (r :: rest)) (hm : merges acc r = true)
    (hs : (mergeTwo acc r).Covers s) :
    ∃ b ∈ acc :: r :: rest, b.Covers s ∧ (mergeTwo acc r).data s = b.data s := by
  rcases mergeTwo_data h.full (h.sized r (.head _)) (h.le r (.head _)) hm hs with
    hdata | hdata
  · exact ⟨acc, .head _, hdata⟩
  · exact ⟨r, .tail _ (.head _), hdata⟩

end Behind

/-- **What is written comes from the requests.** -/
theorem mergeLoop_data (h : Behind acc rest) (ho : o ∈ mergeLoop acc rest) (hs : o.Covers s) :
    ∃ r ∈ acc :: rest, r.Covers s ∧ o.data s = r.data s := by
  induction rest generalizing acc with
  | nil =>
    obtain rfl := mem_singleton.mp ho
    exact ⟨o, .head _, hs, rfl⟩
  | cons r rest ih =>
    rw [mergeLoop] at ho
    split_ifs at ho with hm
    · obtain ⟨b, hb, hcov, hdata⟩ := ih h.merged ho
      rcases mem_cons.mp hb with rfl | hb
      · rw [hdata]
        exact h.data_merged hm hcov
      · exact ⟨b, .tail _ (.tail _ hb), hcov, hdata⟩
    · rcases mem_cons.mp ho with rfl | ho
      · exact ⟨o, .head _, hs, rfl⟩
      · obtain ⟨b, hb, hcov, hdata⟩ := ih h.tail ho
        exact ⟨b, .tail _ hb, hcov, hdata⟩

/-! ### Runs of requests -/

/-- Requests that follow each other in a sorted batch: the last one, and those before it, from the
last to the first. -/
structure RequestRun where
  last : BlockRequest
  before : List BlockRequest

namespace RequestRun

/-- Where the first request starts. -/
def start (c : RequestRun) : ℕ := (c.before.getLast?.getD c.last).sector

/-- The pieces of requests, each copied up to where the one behind it starts. -/
def cutPieces : BlockRequest → List BlockRequest → ℕ
  | _, [] => 0
  | r, r' :: before =>
    cutPieces r' before + (iovecCopy r'.qiov 0 ((r.sector - r'.sector) * 512)).length

/-- The pieces of the last request. Empty ones are not copied. -/
def lastPieces (c : RequestRun) : ℕ :=
  if c.before.isEmpty then c.last.qiov.length else (c.last.qiov.filter (· ≠ [])).length

/-- A request goes on where the last one ends, or before, and there are not too many pieces. -/
def Joins (c : RequestRun) (r : BlockRequest) : Prop :=
  (r.sector : ℤ) ≤ c.last.last ∧
    cutPieces c.last c.before + c.lastPieces + r.qiov.length + 1 ≤ iovMax

instance (c : RequestRun) (r : BlockRequest) : Decidable (c.Joins r) :=
  inferInstanceAs (Decidable (_ ∧ _))

/-- The run with one more request. -/
def add (c : RequestRun) (r : BlockRequest) : RequestRun := ⟨r, c.last :: c.before⟩

/-- The sector is between the start of the first request and the end of the last one. -/
def Covers (c : RequestRun) (s : ℕ) : Prop := c.start ≤ s ∧ (s : ℤ) < c.last.last

/-- From the start to the end of any of its requests there are fewer sectors than an `int` can
count. -/
def Short (c : RequestRun) : Prop := ∀ r ∈ c.last :: c.before, r.last - c.start < 2 ^ 31

theorem last_add (c : RequestRun) (r : BlockRequest) : (c.add r).last = r := rfl

theorem cutPieces_add (c : RequestRun) (r : BlockRequest) :
    cutPieces (c.add r).last (c.add r).before =
    cutPieces c.last c.before +
      (iovecCopy c.last.qiov 0 ((r.sector - c.last.sector) * 512)).length := rfl

theorem lastPieces_add (c : RequestRun) (r : BlockRequest) :
    (c.add r).lastPieces = (r.qiov.filter (· ≠ [])).length := rfl

theorem start_add (c : RequestRun) (r : BlockRequest) : (c.add r).start = c.start := by
  rw [start, start, add, getLast?_cons, Option.getD_some]

end RequestRun

/-- The runs of a sorted batch, the first of which has begun. -/
def runsFrom (c : RequestRun) : List BlockRequest → List RequestRun
  | [] => [c]
  | r :: rest => if c.Joins r then runsFrom (c.add r) rest else c :: runsFrom ⟨r, []⟩ rest

/-- The runs of a sorted batch. -/
def requestRuns : List BlockRequest → List RequestRun
  | [] => []
  | r :: rest => runsFrom ⟨r, []⟩ rest

/-- The run that has begun only gets more requests. -/
theorem exists_runsFrom (c : RequestRun) (rest : List BlockRequest) :
    ∃ c' ∈ runsFrom c rest, c'.start = c.start ∧
      ∀ r ∈ c.last :: c.before, r ∈ c'.last :: c'.before := by
  induction rest generalizing c with
  | nil => exact ⟨c, .head _, rfl, fun _ hr => hr⟩
  | cons r rest ih =>
    rw [runsFrom]
    split_ifs
    · obtain ⟨c', hc', hstart, hmem⟩ := ih (c.add r)
      exact ⟨c', hc', hstart.trans (c.start_add r), fun r' hr' => hmem r' (.tail _ hr')⟩
    · exact ⟨c, .head _, rfl, fun _ hr => hr⟩

/-- A round of copying from the start of a piece. -/
theorem iovecCopy_cons (iov : List UInt8) (qiov : List (List UInt8)) (n : ℕ) :
    iovecCopy (iov :: qiov) 0 n =
      if iov = [] then iovecCopy qiov 0 n else if n = 0 then []
      else if n < iov.length then [iov.take n] else iov :: iovecCopy qiov 0 (n - iov.length) := by
  have hzero : iovecCopy qiov 0 0 = [] := by cases qiov <;> simp [iovecCopy]
  rw [iovecCopy, Nat.zero_sub, drop_zero, Nat.sub_zero]
  simp only [Nat.le_zero, length_eq_zero_iff]
  split_ifs with hn
  · rw [hn, hzero]
  all_goals rfl

/-- All of a vector. -/
theorem iovecCopy_all (qiov : List (List UInt8)) :
    iovecCopy qiov 0 qiov.flatten.length = qiov.filter (· ≠ []) := by
  induction qiov with
  | nil => rfl
  | cons iov qiov ih =>
    rw [iovecCopy_cons, flatten_cons, length_append]
    split_ifs with hempty hzero hsize
    · rw [filter_cons_of_neg (by simpa using hempty), hempty, length_nil, Nat.zero_add, ih]
    · exact absurd (length_eq_zero_iff.mp (by omega)) hempty
    · omega
    · rw [filter_cons_of_pos (by simpa using hempty), Nat.add_sub_cancel_left, ih]

/-- Empty pieces do not matter. -/
theorem iovecCopy_filter (qiov : List (List UInt8)) (n : ℕ) :
    iovecCopy (qiov.filter (· ≠ [])) 0 n = iovecCopy qiov 0 n := by
  induction qiov generalizing n with
  | nil => rfl
  | cons iov qiov ih =>
    rw [iovecCopy_cons]
    by_cases hempty : iov = []
    · rw [filter_cons_of_neg (by simpa using hempty), ih, if_pos hempty]
    · rw [filter_cons_of_pos (by simpa using hempty), iovecCopy_cons, if_neg hempty,
        if_neg hempty, ih]

theorem ne_nil_of_mem_iovecCopy {qiov : List (List UInt8)} {n : ℕ} {iov : List UInt8}
    (h : iov ∈ iovecCopy qiov 0 n) :
    iov ≠ [] := by
  induction qiov generalizing n with
  | nil => cases h
  | cons iov' qiov ih =>
    rw [iovecCopy_cons] at h
    split_ifs at h with hempty hzero hsize
    · exact ih h
    · cases h
    · rw [mem_singleton.mp h]
      exact fun htake => hempty ((take_eq_nil_iff.mp htake).resolve_left hzero)
    · rcases mem_cons.mp h with rfl | h
      · exact hempty
      · exact ih h

/-- Pieces that are not empty are copied as they are. -/
theorem iovecCopy_append {front : List (List UInt8)} (hfront : ∀ iov ∈ front, iov ≠ [])
    (tail : List (List UInt8)) (n : ℕ) :
    iovecCopy (front ++ tail) 0 (front.flatten.length + n) = front ++ iovecCopy tail 0 n := by
  induction front with
  | nil => rw [nil_append, nil_append, flatten_nil, length_nil, Nat.zero_add]
  | cons iov front ih =>
    have hne := hfront iov (.head _)
    have hpos := length_pos_iff.mpr hne
    rw [cons_append, flatten_cons, length_append, iovecCopy_cons, if_neg hne, if_neg (by omega),
      if_neg (by omega),
      Nat.add_assoc, Nat.add_sub_cancel_left, ih fun iov' h' =>
      hfront iov' (.tail _ h'), cons_append]

/-- An accumulated request stands for a run: behind a part without empty pieces, which reaches up to
the last request, it has the pieces of that request. -/
structure RequestRun.Merged (c : RequestRun) (acc : BlockRequest) : Prop where
  sector : acc.sector = c.start
  last : acc.last = c.last.last
  le : c.start ≤ c.last.sector
  sized : c.last.Sized
  vector : ∃ front tail, acc.qiov = front ++ tail ∧ (∀ iov ∈ front, iov ≠ []) ∧
    front.flatten.length = (c.last.sector - c.start) * 512 ∧
    front.length = RequestRun.cutPieces c.last c.before ∧
    (∀ n, iovecCopy tail 0 n = iovecCopy c.last.qiov 0 n) ∧ tail.length = c.lastPieces

namespace RequestRun.Merged

variable {c : RequestRun}

/-- A request alone. -/
theorem single (h : r.Sized) : RequestRun.Merged ⟨r, []⟩ r where
  sector := rfl
  last := rfl
  le := le_rfl
  sized := h
  vector := ⟨[], r.qiov, rfl, nofun, by simp [RequestRun.start], rfl, fun _ => rfl, rfl⟩

theorem covers_iff (h : c.Merged acc) (s : ℕ) : acc.Covers s ↔ c.Covers s := by
  rw [BlockRequest.Covers, RequestRun.Covers, h.sector, h.last]

theorem nbSectors_nonneg (h : c.Merged acc) : 0 ≤ acc.nbSectors := by
  have hlast := h.last
  have hsized := h.sized
  have hle := h.le
  rw [BlockRequest.last, BlockRequest.last, h.sector] at hlast
  rw [BlockRequest.Sized] at hsized
  omega

/-- The next request is merged if it joins the run. -/
theorem merges_iff (h : c.Merged acc) : merges acc r = true ↔ c.Joins r := by
  obtain ⟨front, tail, hqiov, -, -, hfront, -, htail⟩ := h.vector
  rw [merges, Bool.and_eq_true, decide_eq_true_iff, decide_eq_true_iff, h.last, hqiov,
    length_append, hfront, htail]
  rfl

/-- The merged request stands for the longer run. -/
theorem add (h : c.Merged acc) (hb : Behind acc (r :: rest)) (hj : c.Joins r)
    (hle : c.last.sector ≤ r.sector) (hshort : r.last - c.start < 2 ^ 31) :
    (c.add r).Merged (mergeTwo acc r) := by
  have hm := h.merges_iff.mpr hj
  have hr := hb.sized r (.head _)
  have hstart := h.le
  have hcut := length_cut hb.full (hb.le r (.head _)) hm
  rw [h.sector] at hcut
  have hspan : ((r.sector - c.start : ℕ) : ℤ) + r.nbSectors = r.last - c.start := by
    rw [BlockRequest.last]
    omega
  have hbytes : (((mergedQiov acc r).flatten.length / 512 : ℕ) : ℤ) = r.last - c.start := by
    rw [flatten_mergedQiov, length_append, h.sector, hcut, ← hspan]
    rw [BlockRequest.Sized] at hr
    omega
  have hnonneg : 0 ≤ r.last - c.start := hbytes ▸ Int.natCast_nonneg _
  have hint : (r.last - c.start).bmod (2 ^ 32) = r.last - c.start :=
    Int.bmod_eq_of_le (by omega) (by omega)
  have hnb : (mergeTwo acc r).nbSectors = r.last - c.start :=
    (BlockRequest.nbSectors_mk ..).trans ((congrArg (Int.bmod · (2 ^ 32)) hbytes).trans hint)
  have hsector : (mergeTwo acc r).sector = c.start := (sector_mergeTwo acc r).trans h.sector
  refine ⟨hsector.trans (c.start_add r).symm, ?_, ?_, by rw [c.last_add r]; exact hr, ?_⟩
  · rw [BlockRequest.last, hsector, hnb, c.last_add r]
    omega
  · rw [c.start_add r, c.last_add r]
    exact hstart.trans hle
  · obtain ⟨front, tail, hqiov, hne, hbefore, hpieces, hcopy, -⟩ := h.vector
    have hfront : iovecCopy acc.qiov 0 ((r.sector - acc.sector) * 512) =
        front ++ iovecCopy tail 0 ((r.sector - c.last.sector) * 512) := by
      have hsize : (r.sector - c.start) * 512 =
          front.flatten.length + (r.sector - c.last.sector) * 512 := by
        rw [hbefore, ← Nat.add_mul, Nat.add_comm, Nat.sub_add_sub_cancel hle hstart]
      rw [hqiov, h.sector, ← iovecCopy_append hne, hsize]
    refine ⟨front ++ iovecCopy tail 0 ((r.sector - c.last.sector) * 512), r.qiov.filter (· ≠ []),
      ?_, fun iov hiov => ?_, ?_, ?_, fun n => ?_, ?_⟩
    · rw [mergeTwo, BlockRequest.qiov_mk, mergedQiov, iovecConcat, iovecConcat, hfront, nil_append,
        iovecCopy_all]
    · exact (mem_append.mp hiov).elim (hne iov) ne_nil_of_mem_iovecCopy
    · rw [← hfront, flatten_iovecCopy, drop_zero, h.sector, hcut, c.start_add r, c.last_add r]
    · rw [length_append, hpieces, hcopy, c.cutPieces_add r]
    · rw [iovecCopy_filter, c.last_add r]
    · rw [c.lastPieces_add r]

end RequestRun.Merged

/-- **What is written** are the sectors of the runs, and no write is refused. -/
theorem coversAny_mergeLoop {c : RequestRun} (h : c.Merged acc) (hb : Behind acc rest)
    (hsorted : ∀ r ∈ rest, c.last.sector ≤ r.sector) (hshort : ∀ c' ∈ runsFrom c rest, c'.Short) :
    (∀ s, CoversAny (mergeLoop acc rest) s ↔ ∃ c' ∈ runsFrom c rest, c'.Covers s) ∧
      ∀ o ∈ mergeLoop acc rest, 0 ≤ o.nbSectors := by
  induction rest generalizing acc c with
  | nil => simpa [mergeLoop, runsFrom, CoversAny, h.nbSectors_nonneg] using h.covers_iff
  | cons r rest ih =>
    have hle := hsorted r (.head _)
    rw [runsFrom] at hshort ⊢
    rw [mergeLoop]
    by_cases hj : c.Joins r
    · rw [if_pos hj] at hshort ⊢
      rw [if_pos (h.merges_iff.mpr hj)]
      obtain ⟨c', hc', hstart, hmem⟩ := exists_runsFrom (c.add r) rest
      have hspan := hshort c' hc' r (hmem r (.head _))
      rw [hstart, c.start_add r] at hspan
      exact ih (h.add hb hj hle hspan) hb.merged hb.tail.le hshort
    · rw [if_neg hj] at hshort ⊢
      rw [if_neg (mt h.merges_iff.mp hj)]
      obtain ⟨hany, hrest⟩ := ih (.single (hb.sized r (.head _))) hb.tail hb.tail.le fun c' hc' =>
        hshort c' (.tail _ hc')
      refine ⟨fun s => ?_, fun o ho => ?_⟩
      · rw [coversAny_cons, hany, h.covers_iff, exists_mem_cons_iff]
      · rcases mem_cons.mp ho with rfl | ho
        · exact h.nbSectors_nonneg
        · exact hrest o ho

/-- A batch that is sorted: what `qsort` makes of a batch. -/
structure Sorted (reqs sorted : List BlockRequest) : Prop where
  perm : sorted.Perm reqs
  sorted : sorted.Pairwise fun a b => a.sector ≤ b.sector
  sized : ∀ r ∈ reqs, r.Sized

theorem Sorted.behind (h : Sorted reqs (r :: rest)) : Behind r rest where
  full := (h.sized r (h.perm.mem_iff.mp (.head _))).full
  le := (pairwise_cons.mp h.sorted).1
  sorted := (pairwise_cons.mp h.sorted).2
  sized r' hr' := h.sized r' (h.perm.mem_iff.mp (.tail _ hr'))

/-- What is written comes from the batch. -/
theorem Sorted.merge_data (h : Sorted reqs sorted) (ho : o ∈ multiwriteMerge sorted)
    (hs : o.Covers s) : ∃ r ∈ reqs, r.Covers s ∧ o.data s = r.data s := by
  cases sorted with
  | nil => cases ho
  | cons r rest =>
    obtain ⟨b, hb, hdata⟩ := mergeLoop_data h.behind ho hs
    exact ⟨b, h.perm.mem_iff.mp hb, hdata⟩

theorem Sorted.coversAny_merge (h : Sorted reqs sorted)
    (hshort : ∀ c ∈ requestRuns sorted, c.Short) :
    (∀ s, CoversAny (multiwriteMerge sorted) s ↔ ∃ c ∈ requestRuns sorted, c.Covers s) ∧
      ∀ o ∈ multiwriteMerge sorted, 0 ≤ o.nbSectors := by
  cases sorted with
  | nil => simp [multiwriteMerge, requestRuns, CoversAny]
  | cons r rest =>
    exact coversAny_mergeLoop (.single (h.sized r (h.perm.mem_iff.mp (.head _)))) h.behind
      h.behind.le hshort

/-! ### The batch -/

/-- A batch under way. A write that is flying has the sectors left that are not on the disk yet. -/
structure Batch where
  disk : ℕ → List UInt8
  waiting : List BlockRequest
  dummy : Bool
  numRequests : ℤ
  flying : List (BlockRequest × List ℕ)
  callbacks : List ℕ
  called : List ℕ

/-- What happens to a batch. -/
inductive BatchOp where
  /-- The loop of `bdrv_aio_multiwrite` submits the next write. -/
  | submit
  /-- A sector of a write reaches the disk. -/
  | land (w : BlockRequest × List ℕ) (s : ℕ)
  /-- A write whose sectors are all on the disk completes. -/
  | complete (r : BlockRequest)
  /-- The dummy request completes. -/
  | finish
  deriving Repr

namespace Batch

/-- `multiwrite_cb`: the callbacks are called by the last request. -/
def multiwriteCb (b : Batch) : Batch :=
  let b := { b with numRequests := b.numRequests - 1 }
  if b.numRequests = 0 then { b with called := b.called ++ b.callbacks } else b

/-- All writes are complete, and the submission has ended. -/
def Complete (b : Batch) : Prop := b.waiting = [] ∧ b.dummy = false ∧ b.flying = []

end Batch

/-- One step of a batch without I/O errors. -/
def batchStep (b : Batch) : BatchOp → Option Batch
  | .submit =>
    match b.waiting with
    | [] => none
    | r :: rest =>
      -- `bdrv_check_request` refuses a negative number of sectors
      if r.nbSectors < 0 then none
      else
        some { b with
          waiting := rest
          numRequests := b.numRequests + 1
          flying := (r, r.sectors) :: b.flying }
  | .land w s =>
    if w ∈ b.flying ∧ s ∈ w.2 then
      some { b with
        disk := Function.update b.disk s (w.1.data s)
        flying := (w.1, w.2.erase s) :: b.flying.erase w }
    else none
  | .complete r =>
    if (r, []) ∈ b.flying then
      some { b with flying := b.flying.erase (r, []) }.multiwriteCb
    else none
  | .finish =>
    if b.dummy ∧ b.waiting = [] then some { b with dummy := false }.multiwriteCb else none

/-- `bdrv_aio_multiwrite` when the requests are merged; an empty batch is done at once. -/
def bdrvAioMultiwrite (disk : ℕ → List UInt8) (reqs sorted : List BlockRequest) : Batch where
  disk := disk
  waiting := multiwriteMerge sorted
  dummy := !reqs.isEmpty
  numRequests := if reqs.isEmpty then 0 else 1
  flying := []
  callbacks := reqs.map (·.callback)
  called := []

/-! ### Callbacks -/

/-- What holds of the counts of a batch. -/
structure Batch.Counted (ids : List ℕ) (b : Batch) : Prop where
  callbacks : b.callbacks = ids
  waits : b.waiting ≠ [] → b.dummy = true
  numRequests : b.numRequests = (b.dummy.toNat + b.flying.length : ℕ)
  called : b.called = if b.dummy.toNat + b.flying.length = 0 then ids else []

variable {b b' : Batch} {disk : ℕ → List UInt8} {ids : List ℕ}

theorem Batch.Counted.called_eq_nil (h : b.Counted ids)
    (hpos : b.dummy.toNat + b.flying.length ≠ 0) : b.called = [] := by
  rw [h.called, if_neg hpos]

/-- The callback of one of the outstanding requests. -/
theorem Batch.Counted.multiwriteCb (hids : b.callbacks = ids)
    (hwaits : b.waiting ≠ [] → b.dummy = true)
    (hnum : b.numRequests = (b.dummy.toNat + b.flying.length + 1 : ℕ)) (hcalled : b.called = []) :
    b.multiwriteCb.Counted ids := by
  have hzero : b.numRequests - 1 = 0 ↔ b.dummy.toNat + b.flying.length = 0 := by omega
  rw [Batch.multiwriteCb]
  dsimp only
  by_cases h : b.dummy.toNat + b.flying.length = 0
  · rw [if_pos (hzero.mpr h)]
    refine ⟨hids, hwaits, ?_, ?_⟩
    · dsimp only
      omega
    · dsimp only
      rw [if_pos h, hcalled, nil_append, hids]
  · rw [if_neg (mt hzero.mp h)]
    refine ⟨hids, hwaits, ?_, ?_⟩
    · dsimp only
      omega
    · dsimp only
      rw [if_neg h, hcalled]

theorem counted_step {op : BatchOp} (h : b.Counted ids) (hstep : batchStep b op = some b') :
    b'.Counted ids := by
  have hnum := h.numRequests
  cases op with
  | submit =>
    cases hwait : b.waiting with
    | nil => simp [batchStep, hwait] at hstep
    | cons r rest =>
      have hdummy := h.waits (by simp [hwait])
      have hcalled := h.called_eq_nil (by simp [hdummy])
      simp only [batchStep, hwait] at hstep
      split_ifs at hstep
      cases hstep
      refine ⟨h.callbacks, fun _ => hdummy, ?_, ?_⟩
      · simp only [length_cons]
        omega
      · simp [hcalled]
  | land w s =>
    rw [batchStep] at hstep
    split_ifs at hstep with hw
    cases hstep
    have hlen : ((w.1, w.2.erase s) :: b.flying.erase w).length = b.flying.length := by
      have := length_pos_of_mem hw.1
      rw [length_cons, length_erase_of_mem hw.1]
      omega
    refine ⟨h.callbacks, h.waits, ?_, ?_⟩
    · dsimp only
      rw [hlen]
      exact hnum
    · dsimp only
      rw [hlen]
      exact h.called
  | complete r =>
    rw [batchStep] at hstep
    split_ifs at hstep with hr
    cases hstep
    have hpos := length_pos_of_mem hr
    refine .multiwriteCb h.callbacks h.waits ?_ (h.called_eq_nil (by omega))
    dsimp only
    rw [length_erase_of_mem hr]
    omega
  | finish =>
    rw [batchStep] at hstep
    split_ifs at hstep with hd
    cases hstep
    rw [hd.1] at hnum
    refine .multiwriteCb h.callbacks (fun hwait => absurd hd.2 hwait) ?_
      (h.called_eq_nil (by simp [hd.1]))
    dsimp only
    rw [hnum]
    simp only [Bool.toNat_true, Bool.toNat_false]
    omega

theorem counted_bdrvAioMultiwrite (h : Sorted reqs sorted) :
    (bdrvAioMultiwrite disk reqs sorted).Counted (reqs.map (·.callback)) := by
  cases reqs with
  | nil =>
    obtain rfl := perm_nil.mp h.perm
    exact ⟨rfl, fun hne => absurd rfl hne, rfl, rfl⟩
  | cons r rest => exact ⟨rfl, fun _ => rfl, rfl, rfl⟩

/-! ### Data -/

/-- The write still has to bring the sector to the disk. -/
def Batch.Pending (b : Batch) (o : BlockRequest) (s : ℕ) : Prop :=
  o ∈ b.waiting ∨ ∃ todo, (o, todo) ∈ b.flying ∧ s ∈ todo

/-- What holds of the disk: a sector is as it was before the batch, and all writes to it are
pending, or it has the data of one of the writes. -/
structure Batch.Written (outs : List BlockRequest) (disk : ℕ → List UInt8) (b : Batch) : Prop where
  waiting : ∀ o ∈ b.waiting, o ∈ outs
  flying : ∀ w ∈ b.flying, w.1 ∈ outs ∧ ∀ s ∈ w.2, w.1.Covers s
  sector : ∀ s, (b.disk s = disk s ∧ ∀ o ∈ outs, o.Covers s → b.Pending o s) ∨
    ∃ o ∈ outs, o.Covers s ∧ b.disk s = o.data s

variable {outs : List BlockRequest}

theorem Batch.Written.multiwriteCb (h : b.Written outs disk) :
    b.multiwriteCb.Written outs disk := by
  rw [Batch.multiwriteCb]
  dsimp only
  split_ifs
  · exact ⟨h.waiting, h.flying, h.sector⟩
  · exact ⟨h.waiting, h.flying, h.sector⟩

theorem written_step {op : BatchOp} (h : b.Written outs disk) (hstep : batchStep b op = some b') :
    b'.Written outs disk := by
  cases op with
  | submit =>
    cases hwait : b.waiting with
    | nil => simp [batchStep, hwait] at hstep
    | cons r rest =>
      simp only [batchStep, hwait] at hstep
      split_ifs at hstep
      cases hstep
      have hin : ∀ o ∈ r :: rest, o ∈ outs := fun o ho => h.waiting o (hwait ▸ ho)
      refine ⟨fun o ho => hin o (.tail _ ho), fun w hw => ?_, fun s => ?_⟩
      · rcases mem_cons.mp hw with rfl | hw
        · exact ⟨hin r (.head _), fun s hs => BlockRequest.mem_sectors.mp hs⟩
        · exact h.flying w hw
      · refine (h.sector s).imp (fun ⟨hdisk, hpend⟩ => ⟨hdisk, fun o ho hs => ?_⟩) id
        rcases hpend o ho hs with hw | ⟨todo, hfly, hs'⟩
        · rw [hwait] at hw
          rcases mem_cons.mp hw with rfl | hw
          · exact .inr ⟨o.sectors, .head _, BlockRequest.mem_sectors.mpr hs⟩
          · exact .inl hw
        · exact .inr ⟨todo, .tail _ hfly, hs'⟩
  | land w s₀ =>
    rw [batchStep] at hstep
    split_ifs at hstep with hw
    cases hstep
    obtain ⟨hout, hcov⟩ := h.flying w hw.1
    refine ⟨h.waiting, fun w' hw' => ?_, fun s => ?_⟩
    · rcases mem_cons.mp hw' with rfl | hw'
      · exact ⟨hout, fun s hs => hcov s (mem_of_mem_erase hs)⟩
      · exact h.flying w' (mem_of_mem_erase hw')
    · by_cases hs : s = s₀
      · subst hs
        exact .inr ⟨w.1, hout, hcov s hw.2, Function.update_self ..⟩
      · have hdisk : Function.update b.disk s₀ (w.1.data s₀) s = b.disk s :=
          Function.update_of_ne hs ..
        dsimp only
        rw [hdisk]
        refine (h.sector s).imp (fun ⟨hsame, hpend⟩ => ⟨hsame, fun o ho hos => ?_⟩) id
        refine (hpend o ho hos).imp id fun ⟨todo, hfly, htodo⟩ => ?_
        by_cases heq : (o, todo) = w
        · subst heq
          exact ⟨todo.erase s₀, .head _, (mem_erase_of_ne hs).mpr htodo⟩
        · exact ⟨todo, .tail _ ((mem_erase_of_ne heq).mpr hfly), htodo⟩
  | complete r =>
    rw [batchStep] at hstep
    split_ifs at hstep with hr
    cases hstep
    refine .multiwriteCb ⟨h.waiting, fun w hw => h.flying w (mem_of_mem_erase hw), fun s => ?_⟩
    refine (h.sector s).imp (fun ⟨hsame, hpend⟩ => ⟨hsame, fun o ho hos => ?_⟩) id
    refine (hpend o ho hos).imp id fun ⟨todo, hfly, htodo⟩ => ⟨todo, ?_, htodo⟩
    -- a write with a sector left is not the one that completes
    refine (mem_erase_of_ne fun heq => ?_).mpr hfly
    rw [(Prod.mk.inj heq).2] at htodo
    cases htodo
  | finish =>
    rw [batchStep] at hstep
    split_ifs at hstep with hd
    cases hstep
    exact .multiwriteCb ⟨h.waiting, h.flying, h.sector⟩

theorem written_bdrvAioMultiwrite (disk : ℕ → List UInt8) (reqs sorted : List BlockRequest) :
    (bdrvAioMultiwrite disk reqs sorted).Written (multiwriteMerge sorted) disk :=
  ⟨fun _ ho => ho, nofun, fun _ => .inl ⟨rfl, fun _ ho _ => .inl ho⟩⟩

/-! ### Progress -/

/-- What is left to do. -/
def Batch.left (b : Batch) : ℕ :=
  (b.waiting.map fun r => r.sectors.length + 2).sum + (b.flying.map fun w => w.2.length + 1).sum +
    b.dummy.toNat

@[simp]
theorem Batch.left_multiwriteCb (b : Batch) : b.multiwriteCb.left = b.left := by
  rw [Batch.multiwriteCb]
  dsimp only
  split_ifs <;> rfl

/-- None of the writes that are left is refused. -/
def Batch.Accepted (b : Batch) : Prop := ∀ r ∈ b.waiting, 0 ≤ r.nbSectors

theorem accepted_multiwriteCb : b.multiwriteCb.Accepted ↔ b.Accepted := by
  rw [Batch.Accepted, Batch.multiwriteCb]
  dsimp only
  split_ifs <;> rfl

/-- Something can be done in a batch that is not complete. -/
theorem exists_batchStep (hok : b.Accepted) (h : ¬b.Complete) :
    ∃ op b', batchStep b op = some b' ∧ b'.left < b.left ∧ b'.Accepted := by
  cases hwait : b.waiting with
  | cons r rest =>
    have hpos := hok r (hwait ▸ mem_cons_self)
    refine ⟨.submit, _, by simp only [batchStep, hwait]; rw [if_neg (not_lt.mpr hpos)], ?_,
      fun r' hr' => hok r' (hwait ▸ .tail _ hr')⟩
    simp only [Batch.left, hwait, map_cons, sum_cons]
    omega
  | nil =>
    cases hfly : b.flying with
    | cons w fly =>
      obtain ⟨r, todo⟩ := w
      cases todo with
      | nil =>
        have hmem : (r, []) ∈ b.flying := hfly ▸ mem_cons_self
        refine ⟨.complete r, _, if_pos hmem, ?_, accepted_multiwriteCb.mpr hok⟩
        rw [Batch.left_multiwriteCb]
        simp only [Batch.left, hfly, erase_cons_head, map_cons, sum_cons]
        omega
      | cons s todo =>
        have hmem : (r, s :: todo) ∈ b.flying := hfly ▸ mem_cons_self
        refine ⟨.land (r, s :: todo) s, _, if_pos ⟨hmem, .head _⟩, ?_, hok⟩
        simp only [Batch.left, hfly, erase_cons_head, map_cons, sum_cons, length_cons]
        omega
    | nil =>
      cases hdummy : b.dummy with
      | true =>
        refine ⟨.finish, _, if_pos ⟨hdummy, hwait⟩, ?_, accepted_multiwriteCb.mpr hok⟩
        rw [Batch.left_multiwriteCb]
        simp only [Batch.left, hdummy, Bool.toNat_true, Bool.toNat_false]
        omega
      | false => exact absurd ⟨hwait, hdummy, hfly⟩ h

/-- **Every batch can be brought to its end.** -/
theorem exists_run_complete (hok : b.Accepted) : ∃ ops b', run batchStep b ops = some b' ∧
    b'.Complete := by
  induction hn : b.left using Nat.strong_induction_on generalizing b with
  | _ n ih =>
    by_cases hdone : b.Complete
    · exact ⟨[], b, rfl, hdone⟩
    · obtain ⟨op, b', hstep, hlt, hok'⟩ := exists_batchStep hok hdone
      obtain ⟨ops, b'', hrun, hc⟩ := ih b'.left (hn ▸ hlt) hok' rfl
      refine ⟨op :: ops, b'', ?_, hc⟩
      rw [run_cons, hstep]
      exact hrun

/-! ### Main result -/

/-- The batch does what its requests ask for, whatever the order in which its writes are carried
out: the callbacks are called once each, when all writes are complete; then a sector has the data of
one of the requests for it, or is unchanged if there is none. -/
def Correct (reqs sorted : List BlockRequest) : Prop :=
  ∀ disk : ℕ → List UInt8, (∀ s, (disk s).length = 512) →
    ∀ ops b, run batchStep (bdrvAioMultiwrite disk reqs sorted) ops = some b →
      (∃ ops' b', run batchStep b ops' = some b' ∧ b'.Complete) ∧
      (¬b.Complete → b.called = []) ∧
      (b.Complete → b.called = reqs.map (·.callback) ∧
        ∀ s, (CoversAny reqs s → ∃ r ∈ reqs, r.Covers s ∧ b.disk s = r.data s) ∧
          (¬CoversAny reqs s → b.disk s = disk s))

/-- There is a sector content that is not among fewer than `256 ^ w` ones. -/
theorem exists_fresh {w : ℕ} (l : List (List UInt8)) (h : l.length < 256 ^ w) :
    ∃ c : List UInt8, c.length = w ∧ c ∉ l := by
  by_contra hall
  push Not at hall
  have hsub : (range (l.length + 1)).map (beBytes w) ⊆ l := by
    intro c hc
    obtain ⟨k, -, rfl⟩ := mem_map.mp hc
    exact hall _ (length_beBytes w k)
  have hnodup : ((range (l.length + 1)).map (beBytes w)).Nodup := by
    refine List.Nodup.map_on (fun i hi j hj heq => ?_) nodup_range
    rw [mem_range] at hi hj
    rw [← ofBe_beBytes_of_lt (hi.trans_le h), heq, ofBe_beBytes_of_lt (hj.trans_le h)]
  have hle := (subperm_of_subset hnodup hsub).length_le
  rw [length_map, length_range] at hle
  omega

theorem Batch.Counted.called_of_not_complete (h : b.Counted ids) (hnot : ¬b.Complete) :
    b.called = [] := by
  refine h.called_eq_nil fun hzero => hnot ⟨?_, ?_, length_eq_zero_iff.mp (by omega)⟩
  · by_contra hwait
    simp [h.waits hwait] at hzero
  · cases hd : b.dummy with
    | true => simp [hd] at hzero
    | false => rfl

theorem Batch.Counted.called_of_complete (h : b.Counted ids) (hdone : b.Complete) :
    b.called = ids := by
  rw [h.called, if_pos (by simp [hdone.2.1, hdone.2.2])]

/-- The disk when all is written. -/
theorem Batch.Written.of_complete (h : b.Written outs disk) (hdone : b.Complete) (s : ℕ) :
    (b.disk s = disk s ∧ ¬CoversAny outs s) ∨ ∃ o ∈ outs, o.Covers s ∧ b.disk s = o.data s := by
  refine (h.sector s).imp (fun ⟨hsame, hpend⟩ => ⟨hsame, fun ⟨o, ho, hs⟩ => ?_⟩) id
  rcases hpend o ho hs with hwait | ⟨todo, hfly, -⟩
  · rw [hdone.1] at hwait
    cases hwait
  · rw [hdone.2.2] at hfly
    cases hfly

/-- A write of three sectors. -/
def longWrite : BlockRequest := ⟨0, 3, [List.replicate 1536 1], 7⟩

/-- A write of the sector in the middle. -/
def innerWrite : BlockRequest := ⟨1, 1, [List.replicate 512 2], 8⟩

/-- A write of two sectors that ends behind the first one. -/
def nextWrite : BlockRequest := ⟨2, 2, [List.replicate 1024 3], 9⟩

/-- A disk of zeros. -/
def zeroDisk (_ : ℕ) : List UInt8 := List.replicate 512 0

theorem length_zeroDisk (s : ℕ) : (zeroDisk s).length = 512 := length_replicate

end VariabilityTestbed.Block

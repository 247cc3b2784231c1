import Mathlib.Data.UInt
import VariabilityTestbed.Block.Geometry

/-!
# Looking up a cluster

`qcow2_get_cluster_offset` looks up the entry for an offset of the guest in the L1 table and an L2
table, and counts how many sectors from there on can be taken together. Callers loop until they have
all sectors, and read as many sectors as they are told from the place they are told.

The tables come from the file, so they may hold anything. Entries are compared as they are stored,
with the flag for compressed data and without a thought for entries that have flags only. That goes
wrong in three ways: an entry that has `QCOW_OFLAG_COPIED` only counts for no sector at all; a
compressed entry may seem to continue in the next one; and behind the last normal offset there is a
compressed one. Besides, the index into the L1 table has 32 bits.
-/

namespace VariabilityTestbed.Block

/-! ### Entries -/

/-- A table of 64-bit entries. -/
abbrev Table := ℕ → UInt64

/-- `entry & ~mask`, where `mask` is `QCOW_OFLAG_COPIED` or 0. -/
def maskEntry (mask : Bool) (e : UInt64) : ℕ := if mask then e.toNat % 2 ^ 63 else e.toNat

/-- The flag `QCOW_OFLAG_COMPRESSED` of an entry without `QCOW_OFLAG_COPIED`. -/
def IsCompressed (e : ℕ) : Prop := 2 ^ 62 ≤ e

instance (e : ℕ) : Decidable (IsCompressed e) := inferInstanceAs (Decidable (_ ≤ _))

/-! ### The code -/

/-- How often `p` holds from `i` on, up to `n` times. -/
def countWhile (p : ℕ → Bool) : ℕ → ℕ → ℕ
  | 0, _ => 0
  | n + 1, i => if p i then countWhile p n (i + 1) + 1 else 0

variable (g : Geometry)

/-- The entry `i` continues the entry 0. -/
def follows (t : Table) (mask : Bool) (i : ℕ) : Bool :=
  (maskEntry mask (t 0) + i * g.clusterSize) % 2 ^ 64 == maskEntry mask (t i)

/-- `count_contiguous_clusters`. -/
def countContiguousClusters (n : ℕ) (t : Table) (start : ℕ) (mask : Bool) : ℕ :=
  if maskEntry mask (t 0) = 0 then 0 else countWhile (follows g t mask) n start

/-- `count_contiguous_free_clusters`. -/
def countContiguousFreeClusters (n : ℕ) (t : Table) : ℕ := countWhile (fun i => t i == 0) n 0

/-- The L1 table. -/
structure L1Table where
  size : UInt32
  entry : Table

/-- `*cluster_offset` and `*num`. -/
structure Extent where
  clusterOffset : ℕ
  num : ℤ
  deriving DecidableEq

/-- `l1_index`, which is an `unsigned int`. -/
def l1Index (offset : UInt64) : ℕ := offset.toNat / g.l1Bytes % 2 ^ 32

/-- The arguments of a lookup, and what `l2_load` finds in the cache or in the file, or its
error. -/
structure Lookup where
  g : Geometry
  l1 : L1Table
  l2Load : ℕ → Except ℤ Table
  offset : UInt64
  num : ℕ

namespace Lookup

variable (q : Lookup)

/-- `index_in_cluster`. -/
def index : ℕ := q.offset.toNat / 512 % q.g.clusterSectors

/-- The sectors from the offset to the end of the L1 entry. -/
def left : ℕ := (q.g.l1Bytes - q.offset.toNat % q.g.l1Bytes) / 512

/-- `nb_needed`, counted from the start of the cluster. -/
def needed : ℕ := min (q.num + q.index) (q.left + q.index)

/-- There is an L2 table for the offset. -/
def HasL2 : Prop := l1Index q.g q.offset < q.l1.size.toNat ∧ q.l1.entry (l1Index q.g q.offset) ≠ 0

instance : Decidable q.HasL2 := inferInstanceAs (Decidable (_ ∧ _))

/-- The L2 table. -/
def l2Table : Except ℤ Table := q.l2Load (maskEntry true (q.l1.entry (l1Index q.g q.offset)))

/-- The L2 table from the entry for the offset on. -/
def l2From (t : Table) : Table := fun i => t (q.offset.toNat / q.g.clusterSize % q.g.l2Size + i)

/-- The number of clusters that can be taken together. -/
def count (t : Table) : ℕ :=
  let n := q.g.sizeToClusters (q.needed * 512)
  if t 0 = 0 then countContiguousFreeClusters n t else countContiguousClusters q.g n t 0 true

/-- `qcow2_get_cluster_offset`, for a number of sectors that is an `int`. -/
def getClusterOffset : Except ℤ Extent :=
  if q.HasL2 then do
    let t ← q.l2Table
    let t := q.l2From t
    .ok ⟨maskEntry true (t 0), (min (q.count t * q.g.clusterSectors) q.needed : ℕ) - q.index⟩
  else .ok ⟨0, q.needed - q.index⟩

/-! ### What an answer is to be like -/

/-- The entry for a cluster of the guest, without `QCOW_OFLAG_COPIED`; 0 if it is not allocated. -/
def entryOf (cluster : ℕ) : ℕ :=
  let i := cluster / q.g.l2Size
  if i < q.l1.size.toNat ∧ q.l1.entry i ≠ 0 then
    match q.l2Load (maskEntry true (q.l1.entry i)) with
    | .ok t => maskEntry true (t (cluster % q.g.l2Size))
    | .error _ => 0
  else 0

/-- The cluster of the `k`-th sector from the offset on. -/
def clusterAt (k : ℕ) : ℕ := (q.offset.toNat / 512 + k) / q.g.clusterSectors

/-- **A correct answer.** It is about one to `num` sectors. Either none of them is allocated; or
each is found as many sectors behind the place as it is behind the start of the cluster; or the
place is that of compressed data, and the sectors are all in that cluster. -/
structure CorrectExtent (x : Extent) : Prop where
  pos : 1 ≤ x.num
  le : x.num ≤ q.num
  place : (x.clusterOffset = 0 ∧ ∀ k : ℕ, k < x.num → q.entryOf (q.clusterAt k) = 0) ∨
    (∀ k : ℕ, k < x.num →
      let e := q.entryOf (q.clusterAt k)
      e ≠ 0 ∧ ¬IsCompressed e ∧ e + (q.offset.toNat / 512 + k) % q.g.clusterSectors * 512 =
        x.clusterOffset + (q.index + k) * 512) ∨
    (IsCompressed x.clusterOffset ∧ q.entryOf (q.clusterAt 0) = x.clusterOffset ∧
      ∀ k : ℕ, k < x.num → q.clusterAt k = q.clusterAt 0)

/-- What the answer needs. The sector at the offset must end before the L1 entry does, and if there
is an entry for the offset, then the index of its L1 entry has 32 bits; it does not have
`QCOW_OFLAG_COPIED` only; if it is compressed, then the request ends in its cluster or the next
entry does not continue it; and if it is not, then no entry that continues it is compressed. -/
structure Countable : Prop where
  sector : 0 < q.left
  entry : ∀ t, q.HasL2 → q.l2Table = .ok t → q.l2From t 0 ≠ 0 →
    q.offset.toNat / q.g.l1Bytes < 2 ^ 32 ∧ maskEntry true (q.l2From t 0) ≠ 0 ∧
    (IsCompressed (maskEntry true (q.l2From t 0)) →
      q.needed ≤ q.g.clusterSectors ∨ follows q.g (q.l2From t) true 1 = false) ∧
    (¬IsCompressed (maskEntry true (q.l2From t 0)) →
      ∀ i < q.count (q.l2From t), ¬IsCompressed (maskEntry true (q.l2From t i)))

end Lookup

/-! ### Counting -/

theorem countWhile_spec {p : ℕ → Bool} {n i j : ℕ} (hj : j < countWhile p n i) :
    p (i + j) = true := by
  fun_induction countWhile p n i generalizing j with
  | case1 => omega
  | case2 n i hp ih =>
    cases j with
    | zero => exact hp
    | succ j =>
      have := ih (j := j) (by omega)
      rwa [show i + (j + 1) = i + 1 + j by omega]
  | case3 => omega

theorem countWhile_le (p : ℕ → Bool) (n i : ℕ) : countWhile p n i ≤ n := by
  fun_induction countWhile p n i <;> omega

/-- What holds at the start is counted. -/
theorem le_countWhile {p : ℕ → Bool} {m n i : ℕ} (hn : m ≤ n) (hp : ∀ j < m, p (i + j) = true) :
    m ≤ countWhile p n i := by
  fun_induction countWhile p n i generalizing m with
  | case1 => exact hn
  | case2 n i h ih =>
    have := ih (m := m - 1) (by omega) fun j hj => by
      have := hp (j + 1) (by omega)
      rwa [show i + 1 + j = i + (j + 1) by omega]
    omega
  | case3 n i h =>
    by_contra hm
    exact h (hp 0 (by omega))

theorem maskEntry_lt (e : UInt64) : maskEntry true e < 2 ^ 63 := Nat.mod_lt _ (by decide)

/-- An entry continues itself. -/
theorem follows_zero (t : Table) : follows g t true 0 = true := by
  have := maskEntry_lt (t 0)
  rw [follows, beq_iff_eq, Nat.zero_mul, Nat.add_zero, Nat.mod_eq_of_lt (by omega)]

variable {g} in
/-- The clusters that sectors from the start of a cluster need. -/
theorem lt_sizeToClusters_iff {j m : ℕ} :
    j < g.sizeToClusters (m * 512) ↔ j * g.clusterSectors < m := by
  have hpos := g.clusterSectors_pos
  have hlt : j < g.sizeToClusters (m * 512) ↔ j + 1 ≤ g.sizeToClusters (m * 512) := Iff.rfl
  rw [hlt, Geometry.sizeToClusters, Nat.le_div_iff_mul_le g.clusterSize_pos,
    g.clusterSize_eq_mul_clusterSectors,
    show (j + 1) * (512 * g.clusterSectors) =
      512 * (j * g.clusterSectors) + 512 * g.clusterSectors by ring]
  omega

namespace Lookup

variable {q : Lookup}

/-! ### The place of a sector -/

theorem index_lt (q : Lookup) : q.index < q.g.clusterSectors := Nat.mod_lt _ q.g.clusterSectors_pos

theorem clusterAt_eq (k : ℕ) :
    q.clusterAt k = q.offset.toNat / q.g.clusterSize + (q.index + k) / q.g.clusterSectors := by
  have hdiv := Nat.div_add_mod (q.offset.toNat / 512) q.g.clusterSectors
  rw [clusterAt, index, q.g.clusterSize_eq_mul_clusterSectors, ← Nat.div_div_eq_div_mul]
  conv_lhs => rw [← hdiv, Nat.add_assoc, Nat.mul_add_div q.g.clusterSectors_pos]

/-- Sectors stay in the cluster as long as they are behind its start by less than its sectors. -/
theorem clusterAt_eq_zero_iff {k : ℕ} :
    q.clusterAt k = q.clusterAt 0 ↔ q.index + k < q.g.clusterSectors := by
  rw [clusterAt_eq, clusterAt_eq, Nat.add_zero, Nat.div_eq_of_lt q.index_lt,
    Nat.add_left_cancel_iff, Nat.div_eq_zero_iff_lt q.g.clusterSectors_pos]

/-- The sectors up to the end of the L1 entry belong to it. -/
theorem clusterAt_div_l2Size {k : ℕ} (hk : k < q.left) :
    q.clusterAt k / q.g.l2Size = q.offset.toNat / q.g.l1Bytes := by
  have hl1 : q.g.l1Bytes = 512 * (q.g.clusterSectors * q.g.l2Size) := by
    rw [Geometry.l1Bytes, q.g.clusterSize_eq_mul_clusterSectors]
    ring
  rw [left, hl1, Nat.mod_mul] at hk
  rw [clusterAt, Nat.div_div_eq_div_mul, hl1, ← Nat.div_div_eq_div_mul q.offset.toNat]
  have hpos : 0 < q.g.clusterSectors * q.g.l2Size :=
    Nat.mul_pos q.g.clusterSectors_pos q.g.l2Size_pos
  have hdiv := Nat.div_add_mod (q.offset.toNat / 512) (q.g.clusterSectors * q.g.l2Size)
  set a := q.g.clusterSectors * q.g.l2Size
  have hzero : (q.offset.toNat / 512 % a + k) / a = 0 := Nat.div_eq_of_lt (by omega)
  conv_lhs => rw [← hdiv, Nat.add_assoc, Nat.mul_add_div hpos, hzero, Nat.add_zero]

theorem clusterAt_mod_l2Size {k : ℕ} (hk : k < q.left) : q.clusterAt k % q.g.l2Size =
    q.offset.toNat / q.g.clusterSize % q.g.l2Size + (q.index + k) / q.g.clusterSectors := by
  have hleft := Nat.div_add_mod (q.clusterAt k) q.g.l2Size
  have hright := Nat.div_add_mod (q.offset.toNat / q.g.clusterSize) q.g.l2Size
  rw [Nat.div_div_eq_div_mul, Nat.mul_comm q.g.clusterSize, ← Geometry.l1Bytes] at hright
  rw [clusterAt_div_l2Size hk, clusterAt_eq k] at hleft
  rw [clusterAt_eq k]
  omega

/-- Without an L2 table, or with an index of more than 32 bits, nothing is allocated. -/
theorem entryOf_eq_zero (h : ¬q.HasL2 ∨ 2 ^ 32 ≤ q.offset.toNat / q.g.l1Bytes) {k : ℕ}
    (hk : k < q.left) :
    q.entryOf (q.clusterAt k) = 0 := by
  rw [entryOf]
  refine if_neg ?_
  rw [clusterAt_div_l2Size hk]
  rintro ⟨hlt, hne⟩
  have hmod : l1Index q.g q.offset = q.offset.toNat / q.g.l1Bytes :=
    Nat.mod_eq_of_lt (hlt.trans q.l1.size.toNat_lt)
  rcases h with h | h
  · exact h ⟨hmod ▸ hlt, hmod ▸ hne⟩
  · have := q.l1.size.toNat_lt
    omega

/-- The entries of the L2 table are those of the sectors. -/
theorem entryOf_eq (h : q.HasL2) (hw : q.offset.toNat / q.g.l1Bytes < 2 ^ 32) {t : Table}
    (ht : q.l2Table = .ok t) {k : ℕ} (hk : k < q.left) :
    q.entryOf (q.clusterAt k) = maskEntry true
      (q.l2From t ((q.index + k) / q.g.clusterSectors)) := by
  rw [HasL2, l1Index, Nat.mod_eq_of_lt hw] at h
  rw [l2Table, l1Index, Nat.mod_eq_of_lt hw] at ht
  rw [entryOf, clusterAt_div_l2Size hk, if_pos h, ht, l2From, clusterAt_mod_l2Size hk]

/-! ### The answers -/

/-- The answer from an L2 table. -/
def answer (q : Lookup) (t : Table) : Extent :=
  ⟨maskEntry true (t 0), (min (q.count t * q.g.clusterSectors) q.needed : ℕ) - q.index⟩

/-- What the answer is. -/
theorem getClusterOffset_eq_ok {x : Extent} (h : q.getClusterOffset = .ok x) :
    (¬q.HasL2 ∧ x = ⟨0, min q.num q.left⟩) ∨ ∃ t, q.HasL2 ∧ q.l2Table = .ok t ∧
    x = q.answer (q.l2From t) := by
  rw [getClusterOffset] at h
  split at h
  case isTrue hl =>
    cases ht : q.l2Table with
    | error e => rw [ht] at h; cases h
    | ok t =>
      rw [ht] at h
      cases h
      exact .inr ⟨t, hl, rfl, rfl⟩
  case isFalse hl =>
    cases h
    refine .inl ⟨hl, ?_⟩
    rw [needed, Extent.mk.injEq]
    omega

/-- The sectors of an answer. -/
theorem lt_answer_iff {t : Table} {k : ℕ} : (k : ℤ) < (q.answer t).num ↔
    k < q.num ∧ k < q.left ∧ (q.index + k) / q.g.clusterSectors < q.count t := by
  rw [Nat.div_lt_iff_lt_mul q.g.clusterSectors_pos, answer, needed]
  dsimp only
  omega

theorem answer_num_le (t : Table) : (q.answer t).num ≤ q.num := by
  rw [answer, needed]
  dsimp only
  omega

/-- The counted entries of an entry that is 0 are all 0. -/
theorem entry_of_lt_count {t : Table} (h0 : t 0 = 0) {j : ℕ} (hj : j < q.count t) : t j = 0 := by
  rw [count, if_pos h0] at hj
  simpa using countWhile_spec hj

/-- The counted entries of an entry continue it. -/
theorem follows_of_lt_count {t : Table} (h0 : t 0 ≠ 0) {j : ℕ} (hj : j < q.count t) :
    follows q.g t true j = true := by
  rw [count, if_neg h0, countContiguousClusters] at hj
  split at hj
  case isTrue => omega
  case isFalse => simpa using countWhile_spec hj

/-- Counted entries are those of the request. -/
theorem lt_needed_of_lt_count {t : Table} {j : ℕ} (hj : j < q.count t) :
    j * q.g.clusterSectors < q.needed := by
  rw [← lt_sizeToClusters_iff]
  refine hj.trans_le ?_
  unfold count countContiguousClusters countContiguousFreeClusters
  dsimp only
  split
  · exact countWhile_le _ _ _
  · split
    · exact Nat.zero_le _
    · exact countWhile_le _ _ _

/-- Entries that continue the first one are counted. -/
theorem le_count {t : Table} {m : ℕ} (h0 : maskEntry true (t 0) ≠ 0)
    (hm : ∀ j < m, follows q.g t true j = true)
    (hneeded : (m - 1) * q.g.clusterSectors < q.needed) : m ≤ q.count t := by
  have hraw : t 0 ≠ 0 := fun h => h0 (by rw [h]; rfl)
  have hn := lt_sizeToClusters_iff.2 hneeded
  rw [count, if_neg hraw, countContiguousClusters, if_neg h0]
  exact le_countWhile (by omega) fun j hj => by simpa using hm j hj

/-- An answer needs room for a sector, and a cluster that is counted. -/
theorem pos_iff {t : Table} (hnum : 1 ≤ q.num) :
    1 ≤ (q.answer t).num ↔ 0 < q.left ∧ 0 < q.count t := by
  have := lt_answer_iff (q := q) (t := t) (k := 0)
  rw [Nat.add_zero, Nat.div_eq_of_lt q.index_lt] at this
  omega

theorem count_pos {t : Table} (hnum : 1 ≤ q.num) (hleft : 0 < q.left)
    (h0 : maskEntry true (t 0) ≠ 0) :
    0 < q.count t := by
  refine le_count (m := 1) h0 (fun j hj => ?_) (by rw [needed]; omega)
  obtain rfl : j = 0 := by omega
  exact follows_zero q.g _

section L2

variable {t : Table} (hl : q.HasL2) (hnum : 1 ≤ q.num) (ht : q.l2Table = .ok t)
include hl hnum ht

theorem correct_of_free (h0 : q.l2From t 0 = 0) : q.CorrectExtent (q.answer (q.l2From t)) ↔
    0 < q.left := by
  refine ⟨fun h => ((pos_iff hnum).1 h.pos).1, fun hleft => ?_⟩
  have hcount : 0 < q.count (q.l2From t) := by
    rw [count, if_pos h0]
    refine le_countWhile (m := 1) (lt_sizeToClusters_iff.2 (by rw [needed]; omega)) fun j hj => ?_
    obtain rfl : j = 0 := by omega
    simp [h0]
  refine ⟨(pos_iff hnum).2 ⟨hleft, hcount⟩, answer_num_le _,
    .inl ⟨by rw [answer, h0]; rfl, fun k hk => ?_⟩⟩
  obtain ⟨-, hk, hc⟩ := lt_answer_iff.1 hk
  rcases lt_or_ge (q.offset.toNat / q.g.l1Bytes) (2 ^ 32) with hw | hw
  · rw [entryOf_eq hl hw ht hk, entry_of_lt_count h0 hc]
    rfl
  · exact entryOf_eq_zero (.inr hw) hk

omit hl ht in
/-- An answer for an entry needs that the index of the L1 entry has 32 bits and that the entry has
more than a flag. -/
theorem bounds_of_correct (h0 : q.l2From t 0 ≠ 0) (h : q.CorrectExtent (q.answer (q.l2From t))) :
    q.offset.toNat / q.g.l1Bytes < 2 ^ 32 ∧ maskEntry true (q.l2From t 0) ≠ 0 := by
  obtain ⟨hleft, hc⟩ := (pos_iff hnum).1 h.pos
  have hne : maskEntry true (q.l2From t 0) ≠ 0 := by
    intro he
    rw [count, if_neg h0, countContiguousClusters, if_pos he] at hc
    omega
  refine ⟨?_, hne⟩
  by_contra hw
  have hzero := entryOf_eq_zero (.inr (not_lt.1 hw)) hleft
  rcases h.place with ⟨hx, -⟩ | hx | ⟨-, hx, -⟩
  · exact hne hx
  · exact (hx 0 h.pos).1 hzero
  · exact hne (hx.symm.trans hzero)

section

variable (hw : q.offset.toNat / q.g.l1Bytes < 2 ^ 32)
include hw

omit hnum in
theorem entryOf_first (hleft : 0 < q.left) :
    q.entryOf (q.clusterAt 0) = maskEntry true (q.l2From t 0) := by
  rw [entryOf_eq hl hw ht hleft, Nat.add_zero, Nat.div_eq_of_lt q.index_lt]

theorem correct_of_compressed (hcomp : IsCompressed (maskEntry true (q.l2From t 0))) :
    q.CorrectExtent (q.answer (q.l2From t)) ↔
      0 < q.left ∧ (q.needed ≤ q.g.clusterSectors ∨ follows q.g (q.l2From t) true 1 = false) := by
  have hindex := q.index_lt
  have hne : maskEntry true (q.l2From t 0) ≠ 0 := by
    rw [IsCompressed] at hcomp
    omega
  have hraw : q.l2From t 0 ≠ 0 := fun h => hne (by rw [h]; rfl)
  constructor
  · rintro ⟨hpos, -, hplace⟩
    obtain ⟨hleft, hc⟩ := (pos_iff hnum).1 hpos
    refine ⟨hleft, ?_⟩
    by_contra hboth
    obtain ⟨hneeded, hnext⟩ := not_or.1 hboth
    have htwo : 2 ≤ q.count (q.l2From t) := by
      refine le_count hne (fun j hj => ?_) (by omega)
      obtain rfl | rfl : j = 0 ∨ j = 1 := by omega
      · exact follows_zero q.g _
      · exact Bool.eq_true_of_not_eq_false hnext
    rcases hplace with ⟨hx, -⟩ | hx | ⟨-, -, hx⟩
    · exact hne hx
    · exact (hx 0 hpos).2.1 (by rw [entryOf_first hl ht hw hleft]; exact hcomp)
    · -- the first sector of the next cluster is still in the answer
      have hin := clusterAt_eq_zero_iff.1 (hx (q.g.clusterSectors - q.index) (lt_answer_iff.2 (by
        rw [needed] at hneeded
        rw [Nat.add_sub_of_le hindex.le, Nat.div_self q.g.clusterSectors_pos]
        omega)))
      omega
  · rintro ⟨hleft, hend⟩
    refine ⟨(pos_iff hnum).2 ⟨hleft, count_pos hnum hleft hne⟩, answer_num_le _,
      .inr (.inr ⟨hcomp, entryOf_first hl ht hw hleft, fun k hk => clusterAt_eq_zero_iff.2 ?_⟩)⟩
    obtain ⟨hk, hkl, hc⟩ := lt_answer_iff.1 hk
    rcases hend with hneeded | hnext
    · rw [needed] at hneeded
      omega
    · have hle : q.count (q.l2From t) ≤ 1 := by
        by_contra hgt
        rw [follows_of_lt_count hraw (not_le.1 hgt)] at hnext
        cases hnext
      exact (Nat.div_eq_zero_iff_lt q.g.clusterSectors_pos).1 (Nat.lt_one_iff.1 (hc.trans_le hle))

theorem correct_of_normal (hne : maskEntry true (q.l2From t 0) ≠ 0)
    (hcomp : ¬IsCompressed (maskEntry true (q.l2From t 0))) :
    q.CorrectExtent (q.answer (q.l2From t)) ↔
      0 < q.left ∧ ∀ i < q.count (q.l2From t), ¬IsCompressed (maskEntry true (q.l2From t i)) := by
  have hindex := q.index_lt
  have hraw : q.l2From t 0 ≠ 0 := fun h => hne (by rw [h]; rfl)
  constructor
  · rintro ⟨hpos, -, hplace⟩
    obtain ⟨hleft, hc⟩ := (pos_iff hnum).1 hpos
    refine ⟨hleft, fun i hi => ?_⟩
    rcases hplace with ⟨hx, -⟩ | hx | ⟨hx, -⟩
    · exact absurd hx hne
    · -- some sector of the answer is in the `i`-th cluster
      obtain ⟨k, hk, hki⟩ : ∃ k : ℕ, (k : ℤ) < (q.answer (q.l2From t)).num ∧
        (q.index + k) / q.g.clusterSectors = i := by
        have hneeded := lt_needed_of_lt_count hi
        rw [needed] at hneeded
        rcases Nat.eq_zero_or_pos i with rfl | hi0
        · exact ⟨0, hpos, by rw [Nat.add_zero, Nat.div_eq_of_lt hindex]⟩
        · have hle := Nat.le_mul_of_pos_left q.g.clusterSectors hi0
          have hdiv : (q.index + (i * q.g.clusterSectors - q.index)) / q.g.clusterSectors = i := by
            rw [Nat.add_sub_of_le (by omega), Nat.mul_div_cancel _ q.g.clusterSectors_pos]
          exact ⟨_, lt_answer_iff.2 ⟨by omega, by omega, hdiv.trans_lt hi⟩, hdiv⟩
      have hentry := (hx k hk).2.1
      rwa [entryOf_eq hl hw ht (lt_answer_iff.1 hk).2.1, hki] at hentry
    · exact absurd hx hcomp
  · rintro ⟨hleft, hall⟩
    refine ⟨(pos_iff hnum).2 ⟨hleft, count_pos hnum hleft hne⟩, answer_num_le _,
      .inr (.inl fun k hk => ?_)⟩
    obtain ⟨-, hkl, hc⟩ := lt_answer_iff.1 hk
    have hfollows := follows_of_lt_count hraw hc
    have hnormal := hall _ hc
    have hmod : (q.offset.toNat / 512 + k) % q.g.clusterSectors =
        (q.index + k) % q.g.clusterSectors := by
      rw [index, Nat.mod_add_mod]
    have hdiv := Nat.div_add_mod (q.index + k) q.g.clusterSectors
    have hjlt := Nat.mod_lt (q.clusterAt k) q.g.l2Size_pos
    rw [clusterAt_mod_l2Size hkl] at hjlt
    dsimp only [answer]
    rw [entryOf_eq hl hw ht hkl, hmod]
    set j := (q.index + k) / q.g.clusterSectors
    have hsize : j * q.g.clusterSize < 2 ^ 39 := calc
      j * q.g.clusterSize < q.g.l2Size * q.g.clusterSize :=
        Nat.mul_lt_mul_of_pos_right (by omega) q.g.clusterSize_pos
      _ ≤ 2 ^ 39 := q.g.l1Bytes_le
    have hlt := maskEntry_lt (q.l2From t 0)
    rw [follows, beq_iff_eq, Nat.mod_eq_of_lt (by omega)] at hfollows
    refine ⟨by omega, hnormal, ?_⟩
    rw [← hfollows, q.g.clusterSize_eq_mul_clusterSectors, show j * (512 * q.g.clusterSectors) =
      512 * (q.g.clusterSectors * j) by ring]
    omega

end

end L2

end Lookup

/-- **Looking up a cluster.** The answer is correct exactly if the tables and the request are such
that entries can be counted. -/
theorem extent_correct_iff (q : Lookup) (hnum : 1 ≤ q.num) (x : Extent)
    (h : q.getClusterOffset = .ok x) :
    q.CorrectExtent x ↔ q.Countable := by
  rcases Lookup.getClusterOffset_eq_ok h with ⟨hl, rfl⟩ | ⟨t, hl, ht, rfl⟩
  · refine ⟨fun hx => ⟨by have := hx.pos; dsimp only at this; omega, fun t hl' => absurd hl' hl⟩,
      fun hcount => ?_⟩
    have := hcount.sector
    refine ⟨?_, ?_, .inl ⟨rfl, fun k hk => Lookup.entryOf_eq_zero (.inl hl) ?_⟩⟩ <;>
      dsimp only at * <;> omega
  · have hunique {t' : Table} (ht' : q.l2Table = .ok t') : t' = t := by
      rw [ht] at ht'
      cases ht'
      rfl
    by_cases h0 : q.l2From t 0 = 0
    · rw [Lookup.correct_of_free hl hnum ht h0]
      refine ⟨fun hleft => ⟨hleft, fun t' _ ht' hne => ?_⟩, fun hcount => hcount.sector⟩
      rw [hunique ht'] at hne
      exact absurd h0 hne
    constructor
    · intro hx
      obtain ⟨hw, hne⟩ := Lookup.bounds_of_correct hnum h0 hx
      refine ⟨((Lookup.pos_iff hnum).1 hx.pos).1, fun t' _ ht' _ => ?_⟩
      rw [hunique ht']
      exact ⟨hw, hne, fun hcomp => ((Lookup.correct_of_compressed hl hnum ht hw hcomp).1 hx).2,
        fun hcomp => ((Lookup.correct_of_normal hl hnum ht hw hne hcomp).1 hx).2⟩
    · intro hcount
      obtain ⟨hw, hne, hcompressed, hnormal⟩ := hcount.entry t hl ht h0
      by_cases hcomp : IsCompressed (maskEntry true (q.l2From t 0))
      · exact (Lookup.correct_of_compressed hl hnum ht hw hcomp).2 ⟨hcount.sector,
          hcompressed hcomp⟩
      · exact (Lookup.correct_of_normal hl hnum ht hw hne hcomp).2 ⟨hcount.sector, hnormal hcomp⟩

/-! ### Tables for which it is not -/

/-- Clusters of one sector. -/
def sectorClusters : Geometry := ⟨9, by decide, by decide⟩

/-- A lookup at the start of an image with one L2 table. -/
def lookupAtStart (t : Table) (num : ℕ) : Lookup :=
  ⟨sectorClusters, ⟨1, fun _ => 0x400⟩, fun _ => .ok t, 0, num⟩

/-- With these entries both sectors are found. -/
theorem extent_correct_two_sectors :
    let q := lookupAtStart (fun i => 0x800 + 512 * i.toUInt64) 2
    q.getClusterOffset = .ok ⟨0x800, 2⟩ ∧ (q.CorrectExtent ⟨0x800, 2⟩ ↔ q.Countable) :=
  ⟨by rfl, extent_correct_iff _ (by decide) _ (by rfl)⟩

/-- An entry with `QCOW_OFLAG_COPIED` only gives no sectors, and two compressed entries give the
sectors of both. -/
theorem extent_not_correct :
    let copied := lookupAtStart (fun _ => 0x8000000000000000) 1
    let compressed := lookupAtStart (fun i => 0x4000000000000800 + 512 * i.toUInt64) 2
    copied.getClusterOffset = .ok ⟨0, 0⟩ ∧ ¬copied.CorrectExtent ⟨0, 0⟩ ∧
      compressed.getClusterOffset = .ok ⟨0x4000000000000800, 2⟩ ∧
      ¬compressed.CorrectExtent ⟨0x4000000000000800, 2⟩ := by
  refine ⟨by rfl, fun h => absurd h.pos (by decide), by rfl, fun h => ?_⟩
  rcases h.place with ⟨hx, -⟩ | hx | ⟨-, -, hx⟩
  · cases hx
  · exact (hx 0 (by decide)).2.1 (by decide)
  · exact absurd (hx 1 (by decide)) (by decide)

end VariabilityTestbed.Block

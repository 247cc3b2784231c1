import Mathlib.Data.UInt
import VariabilityTestbed.Block.Geometry
import VariabilityTestbed.Lib.Climbing

/-!
# Growing the refcount table

When the refcount table has no entry for a new refcount block, `alloc_refcount_block` places a
larger table behind everything that is in use, and in front of it blocks for the refcounts of the
table and of themselves. How large these are depends on each other, so the sizes are computed again
until they do not change.

The loop takes the number of entries of the table for its number of bytes, and so reserves an eighth
of the blocks that a large table needs, and one. The refcounts then go past the end of `new_blocks`.
Besides, the sizes have 32 bits.
-/

namespace VariabilityTestbed.Block

open Climbing

/-! ### The code -/

/-- The loop of `next_refcount_table_size`. -/
def growClusters : ℕ → ℕ → ℕ → ℕ
  | 0, _, clusters => clusters
  | n + 1, minClusters, clusters =>
    if clusters < minClusters then growClusters n minClusters ((clusters * 3 + 1) / 2) else clusters

/-- A call that grows the table: `refcount_table_size`, `free_cluster_index`, and the cluster that
needs a block. -/
structure Growth where
  g : Geometry
  tableSize : UInt32
  freeClusterIndex : ℕ
  clusterIndex : ℕ

namespace Growth

variable (p : Growth)

/-- The clusters of the next table. Every round of the loop adds one at least. -/
def nextClusters (minSize : ℕ) : ℕ :=
  let minClusters := minSize / p.g.l2Size + 1
  growClusters minClusters minClusters (max 1 (p.tableSize.toNat / p.g.l2Size))

/-- `next_refcount_table_size`. -/
def nextRefcountTableSize (minSize : ℕ) : ℕ := p.nextClusters minSize * p.g.l2Size % 2 ^ 32

/-- `blocks_used`. -/
def blocksUsed : ℕ := (p.freeClusterIndex + p.g.blockClusters - 1) / p.g.blockClusters

/-- `blocks_clusters`. -/
def blocksClusters (size : ℕ) : ℕ :=
  1 + (p.g.sizeToClusters size + p.g.blockClusters - 1) / p.g.blockClusters

/-- The number of blocks that a round of the loop asks for. -/
def blocksNeeded (size : ℕ) : ℕ :=
  p.blocksUsed + (p.g.sizeToClusters size + p.blocksClusters size + p.g.blockClusters - 1) /
    p.g.blockClusters

/-- A round of the loop. -/
def sizingStep (size : ℕ) : ℕ := p.nextRefcountTableSize (p.blocksNeeded size % 2 ^ 32)

/-- `table_size` after the loop, if it ends after so many rounds. -/
def sizing (rounds : ℕ) : Option ℕ :=
  climb p.sizingStep rounds (p.nextRefcountTableSize ((p.blocksUsed + 1) % 2 ^ 32))

/-- `refcount_table_index`, an `unsigned int`. -/
def tableIndex : ℕ := p.clusterIndex / p.g.blockClusters % 2 ^ 32

/-- **What is reserved is enough.** The loop ends; the blocks have refcounts for themselves and the
table; the table has entries for the blocks, and for the block that is added; and the old table has
no entry for the clusters of the blocks and the table, which are behind those in use. -/
def Reserves : Prop :=
  ∃ rounds size, p.sizing rounds = some size ∧
    p.g.sizeToClusters (size * 8) + p.blocksClusters size ≤
    p.blocksClusters size * p.g.blockClusters ∧
    p.blocksUsed + p.blocksClusters size ≤ size ∧ p.tableIndex < size ∧
    ∀ cluster, p.blocksUsed * p.g.blockClusters ≤ cluster →
      cluster < p.blocksUsed * p.g.blockClusters +
      (p.blocksClusters size + p.g.sizeToClusters (size * 8)) →
      p.freeClusterIndex ≤ cluster ∧ p.tableSize.toNat ≤ cluster / p.g.blockClusters

/-! ### Without a limit to numbers -/

/-- A round of the loop. -/
def exactStep (size : ℕ) : ℕ := p.nextClusters (p.blocksNeeded size) * p.g.l2Size

/-- The size at the start. -/
def exactStart : ℕ := p.nextClusters (p.blocksUsed + 1) * p.g.l2Size

/-- A size that is large enough. -/
def enough : ℕ :=
  p.nextClusters (2 * p.blocksUsed + p.tableSize.toNat + p.g.l2Size + 8) * p.g.l2Size

/-- The size at the end. -/
def exactSize : ℕ := (climb p.exactStep (p.enough + 1) p.exactStart).getD 0

end Growth

/-! ### The sizes of tables -/

theorem le_growClusters (n m r : ℕ) : r ≤ growClusters n m r := by
  fun_induction growClusters <;> omega

theorem growClusters_mono {n n' m m' : ℕ} (hn : n ≤ n') (hm : m ≤ m') (r : ℕ) :
    growClusters n m r ≤ growClusters n' m' r := by
  induction n generalizing n' r with
  | zero => exact le_growClusters n' m' r
  | succ n ih =>
    obtain ⟨k, rfl⟩ : ∃ k, n' = k + 1 := ⟨n' - 1, by omega⟩
    rw [growClusters]
    split
    case isTrue h =>
      rw [growClusters, if_pos (by omega)]
      exact ih (by omega) _
    case isFalse => exact le_growClusters (k + 1) m' r

/-- The loop ends. -/
theorem min_le_growClusters {n m r : ℕ} (hr : 0 < r) (hn : m ≤ r + n) : m ≤ growClusters n m r := by
  fun_induction growClusters <;> omega

/-- The loop stops at the first number that is large enough. -/
theorem growClusters_eq (n m r : ℕ) :
    growClusters n m r = r ∨ ∃ q < m, growClusters n m r = (q * 3 + 1) / 2 := by
  fun_induction growClusters with
  | case1 => exact .inl rfl
  | case2 n m r h ih =>
    rcases ih with heq | hq
    · exact .inr ⟨r, h, heq⟩
    · exact .inr hq
  | case3 => exact .inl rfl

/-- A quotient that is rounded up, for a smaller divisor. -/
theorem div_up_le {a b k : ℕ} (hk : 0 < k) (hkb : k ≤ b) : (a + b - 1) / b ≤ a / k + 1 := calc
  (a + b - 1) / b ≤ (a + b) / b := Nat.div_le_div_right (by omega)
  _ = a / b + 1 := Nat.add_div_right a (by omega)
  _ ≤ a / k + 1 := Nat.add_le_add_right (Nat.div_le_div_left hkb hk) 1

namespace Growth

variable (p : Growth)

theorem nextClusters_mono : Monotone p.nextClusters := by
  intro m m' hm
  have := Nat.div_le_div_right (c := p.g.l2Size) hm
  exact growClusters_mono (by omega) (by omega) _

/-- The next table has room for the entries, and for one more. -/
theorem lt_nextClusters_mul (m : ℕ) : m < p.nextClusters m * p.g.l2Size := by
  have hle : m / p.g.l2Size + 1 ≤ p.nextClusters m := min_le_growClusters (by omega) (by omega)
  exact (Nat.div_lt_iff_lt_mul p.g.l2Size_pos).1 hle

/-- The next table is as large as the old one, or at most half larger than it has to be. -/
theorem nextClusters_mul_le (m : ℕ) :
    p.nextClusters m * p.g.l2Size ≤ max p.g.l2Size p.tableSize.toNat ∨
      2 * (p.nextClusters m * p.g.l2Size) ≤ 3 * m + p.g.l2Size := by
  rcases growClusters_eq (m / p.g.l2Size + 1) (m / p.g.l2Size + 1)
    (max 1 (p.tableSize.toNat / p.g.l2Size))
    with h | ⟨q, hq, h⟩
  · left
    rw [nextClusters, h]
    have hold := Nat.div_mul_le_self p.tableSize.toNat p.g.l2Size
    rcases max_choice 1 (p.tableSize.toNat / p.g.l2Size) with hmax | hmax <;> rw [hmax] <;> omega
  · right
    have hmul : q * p.g.l2Size ≤ m :=
      (Nat.mul_le_mul_right _ (by omega)).trans (Nat.div_mul_le_self m p.g.l2Size)
    have hle : 2 * ((q * 3 + 1) / 2) ≤ q * 3 + 1 := Nat.mul_div_le _ _
    rw [nextClusters, h, ← Nat.mul_assoc]
    calc 2 * ((q * 3 + 1) / 2) * p.g.l2Size ≤ (q * 3 + 1) * p.g.l2Size := Nat.mul_le_mul_right _ hle
      _ = 3 * (q * p.g.l2Size) + p.g.l2Size := by ring
      _ ≤ 3 * m + p.g.l2Size := by omega

/-! ### The loop -/

theorem exactStep_mono : Monotone p.exactStep := by
  intro size size' h
  have htable : p.g.sizeToClusters size ≤ p.g.sizeToClusters size' :=
    Nat.div_le_div_right (by omega)
  have hblocks : p.blocksClusters size ≤ p.blocksClusters size' :=
    Nat.add_le_add_left (Nat.div_le_div_right (by omega)) 1
  exact Nat.mul_le_mul_right _
    (p.nextClusters_mono (Nat.add_le_add_left (Nat.div_le_div_right (by omega)) _))

/-- A round asks for all blocks but one that it counts, and for one at least. -/
theorem le_blocksNeeded (size : ℕ) :
    p.blocksUsed + p.blocksClusters size ≤ p.blocksNeeded size + 1 ∧
    p.blocksUsed + 1 ≤ p.blocksNeeded size := by
  have hle : (p.g.sizeToClusters size + p.g.blockClusters - 1) / p.g.blockClusters ≤
      (p.g.sizeToClusters size + p.blocksClusters size + p.g.blockClusters - 1) /
      p.g.blockClusters :=
    Nat.div_le_div_right (by omega)
  have hone : 1 ≤ (p.g.sizeToClusters size + p.blocksClusters size + p.g.blockClusters - 1) /
      p.g.blockClusters := by
    have : 1 ≤ p.blocksClusters size := Nat.le_add_right 1 _
    rw [Nat.one_le_div_iff p.g.blockClusters_pos]
    omega
  rw [blocksNeeded, blocksClusters] at *
  omega

/-- The blocks are few. -/
theorem blocksNeeded_le (size : ℕ) : p.blocksNeeded size ≤ p.blocksUsed + size / 2 ^ 15 + 2 := by
  have hsize : 512 ≤ p.g.clusterSize := by
    have := p.g.clusterSectors_pos
    rw [p.g.clusterSize_eq_mul_clusterSectors]
    omega
  have hblock : 256 ≤ p.g.blockClusters := by
    have := p.g.clusterSize_eq_mul_blockClusters
    omega
  have htable : p.g.sizeToClusters size ≤ size / 512 + 1 := by
    rw [Geometry.sizeToClusters, ← Nat.add_sub_assoc (by omega)]
    exact div_up_le (by decide) hsize
  have hblocks : p.blocksClusters size ≤ p.g.sizeToClusters size / 256 + 2 := by
    have := div_up_le (a := p.g.sizeToClusters size) (by decide) hblock
    rw [blocksClusters]
    omega
  have hneeded :=
    div_up_le (a := p.g.sizeToClusters size + p.blocksClusters size) (by decide) hblock
  rw [blocksNeeded]
  omega

theorem exactStart_le_exactStep (size : ℕ) : p.exactStart ≤ p.exactStep size :=
  Nat.mul_le_mul_right _ (p.nextClusters_mono (p.le_blocksNeeded size).2)

/-- The loop does not go beyond a size that is large enough. -/
theorem exactStep_enough : p.exactStep p.enough ≤ p.enough := by
  refine Nat.mul_le_mul_right _ (p.nextClusters_mono ((p.blocksNeeded_le p.enough).trans ?_))
  have h := p.nextClusters_mul_le (2 * p.blocksUsed + p.tableSize.toNat + p.g.l2Size + 8)
  rw [← enough] at h
  omega

/-- What the loop comes to. -/
theorem climb_exactSize : climb p.exactStep (p.enough + 1) p.exactStart = some p.exactSize := by
  obtain ⟨y, hy, -⟩ :=
    exists_climb p.exactStep_mono (p.exactStart_le_exactStep _) p.exactStep_enough
    ((p.exactStart_le_exactStep _).trans p.exactStep_enough)
  rw [exactSize, climb_mono (Nat.succ_le_succ (Nat.sub_le _ _)) hy]
  rfl

theorem exactStep_exactSize : p.exactStep p.exactSize = p.exactSize := climb_fixed p.climb_exactSize

variable {p} {size : ℕ}

/-- It is the least that a round does not raise. -/
theorem exactSize_le (h : p.exactStep size ≤ size) : p.exactSize ≤ size := by
  obtain ⟨y, hy, -, hle⟩ := exists_climb p.exactStep_mono (p.exactStart_le_exactStep _) h
    ((p.exactStart_le_exactStep _).trans h)
  rwa [climb_unique p.climb_exactSize hy]

/-! ### Sizes of 32 bits -/

/-- The code computes the sizes if they have 32 bits. -/
theorem sizing_eq (h : p.exactSize < 2 ^ 32) (rounds : ℕ) :
    p.sizing rounds = climb p.exactStep rounds p.exactStart := by
  have hstep {size : ℕ} (hsize : size ≤ p.exactSize) : p.exactStep size ≤ p.exactSize :=
    (p.exactStep_mono hsize).trans p.exactStep_exactSize.le
  have hstart : p.exactStart ≤ p.exactSize :=
    (p.exactStart_le_exactStep _).trans p.exactStep_exactSize.le
  -- what has 32 bits when it is multiplied has them before
  have hnext {m : ℕ} (hm : p.nextClusters m * p.g.l2Size ≤ p.exactSize) :
      p.nextRefcountTableSize (m % 2 ^ 32) = p.nextClusters m * p.g.l2Size := by
    rw [nextRefcountTableSize, Nat.mod_eq_of_lt (a := m)
      ((p.lt_nextClusters_mul m).trans (hm.trans_lt h))]
    exact Nat.mod_eq_of_lt (hm.trans_lt h)
  rw [sizing, hnext hstart]
  exact climb_congr (fun size hsize => hnext (hstep hsize)) (fun size => hstep) hstart

/-- If sizes lose bits, then the table has no entries for the blocks. -/
theorem exactStep_eq_of_room (hbehind : p.tableSize.toNat ≤ p.blocksUsed)
    (hfix : p.sizingStep size = size) (hroom : p.blocksUsed + p.blocksClusters size ≤ size) :
    p.exactStep size = size := by
  have hl2 : p.g.l2Size ≤ 2 ^ 18 := Nat.pow_le_pow_right (by decide) (by have := p.g.le_max; omega)
  have hold := p.tableSize.toNat_lt
  have hone : 1 ≤ p.blocksClusters size := Nat.le_add_right 1 _
  have hlt : size < 2 ^ 32 := hfix ▸ Nat.mod_lt _ (Nat.two_pow_pos 32)
  have hneeded := p.blocksNeeded_le size
  have hmod := Nat.mod_le (p.nextClusters (p.blocksNeeded size % 2 ^ 32) * p.g.l2Size) (2 ^ 32)
  rw [← nextRefcountTableSize, ← sizingStep, hfix] at hmod
  have hnext := p.nextClusters_mul_le (p.blocksNeeded size % 2 ^ 32)
  have hargument : p.blocksNeeded size < 2 ^ 32 := by
    by_contra hge
    omega
  rw [sizingStep, nextRefcountTableSize, Nat.mod_eq_of_lt hargument, ← exactStep] at hfix
  rw [Nat.mod_eq_of_lt hargument, ← exactStep] at hnext
  rwa [Nat.mod_eq_of_lt (by omega)] at hfix

/-! ### What is reserved -/

/-- The blocks hold the refcounts of the table and of themselves if there are two of them, and that
many clusters. -/
theorem blocks_hold_iff {clusters : ℕ} (hpos : 0 < clusters) :
    clusters + p.blocksClusters (clusters * p.g.l2Size) ≤ p.blocksClusters (clusters * p.g.l2Size) *
      p.g.blockClusters ↔
      clusters + 2 ≤ p.g.clusterSize := by
  have hcs := p.g.clusterSize_eq_mul_l2Size
  have hblocks := p.g.clusterSize_eq_mul_blockClusters
  have hblockpos := p.g.blockClusters_pos
  have htable : p.g.sizeToClusters (clusters * p.g.l2Size) = (clusters + 7) / 8 := by
    rw [Geometry.sizeToClusters, hcs, ← Nat.add_sub_assoc (by omega), Nat.mul_comm 8,
      ← Nat.div_div_eq_div_mul]
    congr 1
    rw [Nat.div_eq_iff p.g.l2Size_pos, Nat.add_mul]
    omega
  have hbounds := Nat.div_add_mod ((clusters + 7) / 8 + p.g.blockClusters - 1) p.g.blockClusters
  have hmod := Nat.mod_lt ((clusters + 7) / 8 + p.g.blockClusters - 1) hblockpos
  rw [blocksClusters, htable]
  set q := ((clusters + 7) / 8 + p.g.blockClusters - 1) / p.g.blockClusters
  have hone : q ≤ 1 ↔ (clusters + 7) / 8 ≤ p.g.blockClusters := by
    rw [Nat.div_le_iff_le_mul hblockpos]
    omega
  have hq : 1 ≤ q := by
    rw [Nat.one_le_div_iff hblockpos]
    omega
  rw [Nat.add_mul, Nat.one_mul, Nat.mul_comm q]
  rcases Nat.eq_or_lt_of_le hq with h1 | h1
  · rw [← h1]
    omega
  · have hmany := mt hone.2 (Nat.not_le.2 h1)
    constructor <;> intro h <;> omega

theorem le_blocksUsed_mul (p : Growth) : p.freeClusterIndex ≤ p.blocksUsed * p.g.blockClusters := by
  have hpos := p.g.blockClusters_pos
  have hdiv := Nat.div_add_mod (p.freeClusterIndex + p.g.blockClusters - 1) p.g.blockClusters
  have hmod := Nat.mod_lt (p.freeClusterIndex + p.g.blockClusters - 1) hpos
  rw [blocksUsed, Nat.mul_comm]
  omega

/-- The clusters of a table. -/
theorem sizeToClusters_mul_eight (g : Geometry) (clusters : ℕ) :
    g.sizeToClusters (clusters * g.l2Size * 8) = clusters := by
  have hpos := g.clusterSize_pos
  rw [Geometry.sizeToClusters, show clusters * g.l2Size * 8 = g.clusterSize * clusters by
    rw [g.clusterSize_eq_mul_l2Size]; ring, Nat.mul_add_div hpos,
    Nat.div_eq_of_lt (by omega), Nat.add_zero]

/-- The table has an entry for all blocks that the last round asks for, and for one more. -/
theorem blocksNeeded_lt (p : Growth) : p.blocksNeeded p.exactSize < p.exactSize := by
  have h := p.lt_nextClusters_mul (p.blocksNeeded p.exactSize)
  rwa [← exactStep, exactStep_exactSize] at h

/-- For a cluster that was taken from before `free_cluster_index`, the blocks in use are behind the
old table, and the new one has an entry for the block. -/
theorem before_free (h : p.clusterIndex < p.freeClusterIndex)
    (hgrow : p.tableSize.toNat ≤ p.tableIndex) :
    p.tableSize.toNat ≤ p.blocksUsed ∧ p.tableIndex < p.exactSize := by
  have hlt : p.tableIndex < p.blocksUsed := by
    refine (Nat.mod_le _ _).trans_lt ?_
    rw [Nat.div_lt_iff_lt_mul p.g.blockClusters_pos]
    exact h.trans_le p.le_blocksUsed_mul
  have hentries := p.blocksNeeded_lt
  have hneeded := (p.le_blocksNeeded p.exactSize).2
  omega

/-- What is reserved is enough. -/
theorem reserves_iff :
    p.Reserves ↔ p.tableSize.toNat ≤ p.blocksUsed ∧ p.tableIndex < p.exactSize ∧
    p.exactSize < 2 ^ 32 ∧
      p.exactSize / p.g.l2Size + 2 ≤ p.g.clusterSize := by
  have hpos := p.g.blockClusters_pos
  -- the size is a number of clusters
  obtain ⟨clusters, hclusters⟩ : ∃ clusters, p.exactSize = clusters * p.g.l2Size :=
    ⟨_, p.exactStep_exactSize.symm⟩
  have hentries := p.blocksNeeded_lt
  have hclusterspos : 0 < clusters := Nat.pos_of_ne_zero fun h => by simp [hclusters, h] at hentries
  have hhold := p.blocks_hold_iff hclusterspos
  constructor
  · rintro ⟨rounds, size, hsizing, hfits, hroom, hindex, hmeta⟩
    have hbehind : p.tableSize.toNat ≤ p.blocksUsed := by
      have hone : 1 ≤ p.blocksClusters size := Nat.le_add_right 1 _
      have := (hmeta (p.blocksUsed * p.g.blockClusters) le_rfl (by omega)).2
      rwa [Nat.mul_div_cancel _ hpos] at this
    have hfix := Growth.exactStep_eq_of_room hbehind (climb_fixed hsizing) hroom
    have hlt : size < 2 ^ 32 := climb_fixed hsizing ▸ Nat.mod_lt _ (Nat.two_pow_pos 32)
    have hexact : p.exactSize < 2 ^ 32 := (Growth.exactSize_le hfix.le).trans_lt hlt
    rw [Growth.sizing_eq hexact] at hsizing
    obtain rfl := climb_unique hsizing p.climb_exactSize
    refine ⟨hbehind, hindex, hexact, ?_⟩
    rw [hclusters, Growth.sizeToClusters_mul_eight] at hfits
    rw [hclusters, Nat.mul_div_cancel _ p.g.l2Size_pos]
    exact hhold.1 hfits
  · rintro ⟨hbehind, hindex, hexact, hfits⟩
    have hroom := (p.le_blocksNeeded p.exactSize).1
    refine ⟨_, _, (Growth.sizing_eq hexact _).trans p.climb_exactSize, ?_, by omega, hindex, ?_⟩
    · rw [hclusters, Nat.mul_div_cancel _ p.g.l2Size_pos] at hfits
      rw [hclusters, Growth.sizeToClusters_mul_eight]
      exact hhold.2 hfits
    · intro cluster hcluster _
      exact ⟨p.le_blocksUsed_mul.trans hcluster,
        hbehind.trans ((Nat.le_div_iff_mul_le hpos).2 hcluster)⟩

end Growth

/-- **Growing the refcount table.** What is reserved is enough exactly if the blocks in use are
behind the old table, the new one has an entry for the block that is added, its size has 32 bits,
and it has at most `cluster_size - 2` clusters. A caller whose cluster is in front of
`free_cluster_index` sees to the first two. -/
theorem growth_reserves_iff (p : Growth) :
    (p.Reserves ↔ p.tableSize.toNat ≤ p.blocksUsed ∧ p.tableIndex < p.exactSize ∧
      p.exactSize < 2 ^ 32 ∧
      p.exactSize / p.g.l2Size + 2 ≤ p.g.clusterSize) ∧
    (p.clusterIndex < p.freeClusterIndex → p.tableSize.toNat ≤ p.tableIndex →
      (p.Reserves ↔ p.exactSize < 2 ^ 32 ∧ p.exactSize / p.g.l2Size + 2 ≤ p.g.clusterSize)) := by
  refine ⟨p.reserves_iff, fun hfree hgrow => ?_⟩
  obtain ⟨hused, hindex⟩ := p.before_free hfree hgrow
  rw [p.reserves_iff, and_iff_right hused, and_iff_right hindex]

/-- The first image to grow its table beyond 510 clusters of 512 bytes, when the file has about 4
GB. -/
def firstLargeTable : Growth := ⟨⟨9, le_rfl, Nat.le_of_ble_eq_true rfl⟩, 30272, 7749634, 7749632⟩

/-- The loop ends at 710 clusters and two blocks, which have room for 512 refcounts. -/
theorem growth_reserves_too_little :
    firstLargeTable.sizing 2 = some 45440 ∧ ¬firstLargeTable.Reserves := by
  have hsizing : firstLargeTable.sizing 2 = some 45440 := by decide +kernel
  refine ⟨hsizing, ?_⟩
  rintro ⟨rounds, size, hsize, hfits, -⟩
  obtain rfl := climb_unique hsizing hsize
  exact absurd hfits (by decide +kernel)

end VariabilityTestbed.Block

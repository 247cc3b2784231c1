import Mathlib.Tactic.Ring

/-!
# The geometry of a qcow2 image

All sizes follow from `cluster_bits`. An L2 table, a refcount block and a part of the refcount table
are one cluster each, of 8-byte entries or of 2-byte refcounts.
-/

namespace VariabilityTestbed.Block

/-- `cluster_bits`, between `MIN_CLUSTER_BITS` and `MAX_CLUSTER_BITS`. -/
structure Geometry where
  clusterBits : ℕ
  min_le : 9 ≤ clusterBits
  le_max : clusterBits ≤ 21
  deriving DecidableEq

namespace Geometry

variable (g : Geometry)

/-- `cluster_size`. -/
def clusterSize : ℕ := 2 ^ g.clusterBits

/-- `cluster_sectors`. -/
def clusterSectors : ℕ := 2 ^ (g.clusterBits - 9)

/-- `l2_size`: the number of 8-byte entries in a cluster. -/
def l2Size : ℕ := 2 ^ (g.clusterBits - 3)

/-- `refcount_block_clusters`: the number of refcounts in a cluster. -/
def blockClusters : ℕ := 2 ^ (g.clusterBits - 1)

/-- `size_to_clusters`. -/
def sizeToClusters (size : ℕ) : ℕ := (size + (g.clusterSize - 1)) / g.clusterSize

/-- `1 << (l2_bits + cluster_bits)`: the bytes that an entry of the L1 table stands for. -/
def l1Bytes : ℕ := g.l2Size * g.clusterSize

theorem clusterSectors_pos : 0 < g.clusterSectors := Nat.two_pow_pos _

theorem clusterSize_pos : 0 < g.clusterSize := Nat.two_pow_pos _

theorem l2Size_pos : 0 < g.l2Size := Nat.two_pow_pos _

theorem blockClusters_pos : 0 < g.blockClusters := Nat.two_pow_pos _

theorem clusterSize_eq_mul_clusterSectors : g.clusterSize = 512 * g.clusterSectors := by
  have hmin := g.min_le
  rw [clusterSize, clusterSectors, show (512 : ℕ) = 2 ^ 9 from rfl, ← pow_add]
  congr 1
  omega

theorem clusterSize_eq_mul_l2Size : g.clusterSize = 8 * g.l2Size := by
  have hmin := g.min_le
  rw [clusterSize, l2Size, show (8 : ℕ) = 2 ^ 3 from rfl, ← pow_add]
  congr 1
  omega

theorem clusterSize_eq_mul_blockClusters : g.clusterSize = 2 * g.blockClusters := by
  have hmin := g.min_le
  rw [clusterSize, blockClusters, ← pow_succ']
  congr 1
  omega

theorem l1Bytes_le : g.l1Bytes ≤ 2 ^ 39 := by
  have hmax := g.le_max
  rw [l1Bytes, l2Size, clusterSize, ← pow_add]
  exact Nat.pow_le_pow_right (by decide) (by omega)

theorem l1Bytes_dvd : g.l1Bytes ∣ 2 ^ 64 := by
  have hmax := g.le_max
  rw [l1Bytes, l2Size, clusterSize, ← pow_add]
  exact Nat.pow_dvd_pow 2 (by omega)

end Geometry

end VariabilityTestbed.Block

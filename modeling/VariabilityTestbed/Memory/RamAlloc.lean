import Mathlib.Algebra.Order.Group.Nat
import Mathlib.Data.Finset.Max
import Mathlib.Data.List.Find
import VariabilityTestbed.Memory.Ram

/-!
# Allocating RAM

`qemu_ram_alloc_from_ptr` looks for the smallest gap behind a block that a new block fits into,
makes the table of dirty flags as long as the blocks need it, and marks the pages of the new block
as dirty. `qemu_ram_free` takes a block off the list, and `qemu_get_ram_ptr` moves the block that it
finds to the front.

If no gap is large enough, `find_ram_offset` returns `0`. This does not happen: the table of dirty
flags has a byte for each page up to the end of the last block, and an allocation aborts when there
is no memory for the table. So no block ends behind `ramMax`, and there is a gap behind the last
block (`findRamOffset_spec`).

Addresses are numbers below `2 ^ 64`, and sums and differences of them are taken modulo `2 ^ 64`, as
the code takes them.
-/

namespace VariabilityTestbed.Memory

open List Option

/-! ### The code -/

/-- A `RAMBlock`, with its name. -/
structure NamedBlock extends RamBlock where
  idstr : List UInt8
  deriving DecidableEq, Repr

/-- `ram_list`. -/
structure RamState where
  blocks : List NamedBlock
  physDirty : List UInt8
  deriving DecidableEq, Repr

/-- `ULONG_MAX`. -/
def ulongMax : ℕ := 2 ^ 64 - 1

/-- `a - b`, without a sign. -/
def ulongSub (a b : ℕ) : ℕ := (a + (2 ^ 64 - b)) % 2 ^ 64

/-- `block->offset + block->length`. -/
def RamBlock.stop (b : RamBlock) : ℕ := (b.offset + b.length) % 2 ^ 64

/-- The inner loop of `find_ram_offset`. -/
def nextOffset (blocks : List NamedBlock) (stop : ℕ) : ℕ :=
  blocks.foldl (fun next b => if stop ≤ b.offset then min next b.offset else next) ulongMax

/-- `next - end`. -/
def gapBehind (blocks : List NamedBlock) (b : NamedBlock) : ℕ :=
  ulongSub (nextOffset blocks b.stop) b.stop

/-- The outer loop of `find_ram_offset`, with `offset` and `mingap`. -/
def findLoop (blocks : List NamedBlock) (size : ℕ) : List NamedBlock → ℕ × ℕ → ℕ × ℕ
  | [], best => best
  | b :: l, best =>
    findLoop blocks size l
      (if size ≤ gapBehind blocks b ∧ gapBehind blocks b < best.2 then (b.stop, gapBehind blocks b)
        else best)

/-- `find_ram_offset`. -/
def findRamOffset (blocks : List NamedBlock) (size : ℕ) : ℕ :=
  if blocks = [] then 0 else (findLoop blocks size blocks (0, ulongMax)).1

/-- `last_ram_offset`. -/
def lastRamOffset (blocks : List NamedBlock) : ℕ :=
  blocks.foldl (fun last b => max last b.stop) 0

/-- `TARGET_PAGE_ALIGN`. -/
def ramPageAlign (size : ℕ) : ℕ :=
  (size + (targetPageSize - 1)) % 2 ^ 64 / targetPageSize * targetPageSize

/-- The name of a block: the path of the device, if there is one, and a name, in 255 bytes. -/
def idStr (path : Option (List UInt8)) (name : List UInt8) : List UInt8 :=
  match path with
  | some path => ((path ++ [0x2f]).take 255 ++ name).take 255
  | none => name.take 255

/-- No host has more memory than this for `malloc`: user space on x86-64 has `2 ^ 47` bytes. -/
def mallocMax : ℕ := 2 ^ 52

/-- `qemu_realloc`, which aborts without memory. Bytes behind the old end can be anything. -/
def realloc (tab : List UInt8) (n : ℕ) (junk : ℕ → UInt8) : Option (List UInt8) :=
  if n ≤ mallocMax then some ((List.range n).map fun i => (tab[i]?).getD (junk i)) else none

/-- `memset` of a part of a table. -/
def memset (tab : List UInt8) (start n : ℕ) (v : UInt8) : Option (List UInt8) :=
  if start + n ≤ tab.length then
    some (tab.mapIdx fun i b => if start ≤ i ∧ i < start + n then v else b)
  else none

/-- `addr - block->offset < block->length`. -/
def RamBlock.holds (b : RamBlock) (addr : ℕ) : Bool := ulongSub addr b.offset < b.length

/-- `host - block->host < block->length`, for a block that is mapped. -/
def RamBlock.holdsHost (b : RamBlock) (ptr : ℕ) : Bool :=
  b.host ≠ 0 ∧ ulongSub ptr b.host < b.length

namespace RamState

/-- `qemu_ram_alloc_from_ptr`, and `qemu_ram_alloc`, for which `host` is what `qemu_vmalloc`
returns. It aborts if there is a block with the same name, or no memory for the table. -/
def qemuRamAlloc (s : RamState) (path : Option (List UInt8)) (name : List UInt8) (size host : ℕ)
    (junk : ℕ → UInt8) : Option (RamState × ℕ) :=
  let size := ramPageAlign size
  let idstr := idStr path name
  if s.blocks.any fun b => b.idstr = idstr then none
  else
    let offset := findRamOffset s.blocks size
    let blocks := ⟨⟨offset, size, host⟩, idstr⟩ :: s.blocks
    (realloc s.physDirty (lastRamOffset blocks / targetPageSize) junk).bind fun tab =>
      (memset tab (offset / targetPageSize) (size / targetPageSize) 0xff).map fun tab =>
        (⟨blocks, tab⟩, offset)

/-- `qemu_ram_free_from_ptr` and `qemu_ram_free`. The latter gives the memory of the host back,
too. -/
def qemuRamFree (s : RamState) (addr : ℕ) : RamState :=
  { s with blocks := s.blocks.eraseP fun b => addr = b.offset }

/-- `qemu_get_ram_ptr`, which aborts for an address that is in no block. -/
def qemuGetRamPtr (s : RamState) (addr : ℕ) : Option (RamState × ℕ) :=
  (s.blocks.find? fun b => b.holds addr).map fun b =>
    ({ s with blocks := b :: s.blocks.erase b }, (b.host + ulongSub addr b.offset) % 2 ^ 64)

/-- `qemu_ram_addr_from_host`. -/
def qemuRamAddrFromHost (s : RamState) (ptr : ℕ) : Option ℕ :=
  (s.blocks.find? fun b => b.holdsHost ptr).map fun b =>
    (b.offset + ulongSub ptr b.host) % 2 ^ 64

end RamState

/-- What happens to the list. Pages of the table can be marked and cleaned at any time. -/
inductive RamOp where
  | qemuRamAlloc (path : Option (List UInt8)) (name : List UInt8) (size host : ℕ)
    (junk : ℕ → UInt8)
  | qemuRamFree (addr : ℕ)
  | qemuGetRamPtr (addr : ℕ)
  | setDirty (page : ℕ) (flags : UInt8)

/-- One operation. A pointer to memory of the host is not `NULL`. -/
def ramStep (s : RamState) : RamOp → Option RamState
  | .qemuRamAlloc path name size host junk =>
    if 0 < host ∧ host < 2 ^ 64 then (s.qemuRamAlloc path name size host junk).map (·.1) else none
  | .qemuRamFree addr => some (s.qemuRamFree addr)
  | .qemuGetRamPtr addr => (s.qemuGetRamPtr addr).map (·.1)
  | .setDirty page flags => some { s with physDirty := s.physDirty.set page flags }

/-- Program start. -/
def initRamState : RamState := ⟨[], []⟩

/-! ### Gaps -/

section Gaps

variable {blocks l : List NamedBlock} {b c : NamedBlock} {stop size total : ℕ}

theorem ulongSub_of_le {x y : ℕ} (hle : y ≤ x) (hlt : x < 2 ^ 64) : ulongSub x y = x - y := by
  rw [ulongSub]
  omega

/-- The two blocks do not overlap. -/
def Apart (b c : NamedBlock) : Prop :=
  b.offset + b.length ≤ c.offset ∨ c.offset + c.length ≤ b.offset

theorem nextOffset_spec (blocks : List NamedBlock) (stop : ℕ) :
    nextOffset blocks stop ≤ ulongMax ∧
      (∀ b ∈ blocks, stop ≤ b.offset → nextOffset blocks stop ≤ b.offset) ∧
      (nextOffset blocks stop = ulongMax ∨
        ∃ b ∈ blocks, stop ≤ b.offset ∧ nextOffset blocks stop = b.offset) := by
  have hfold : ∀ (l : List NamedBlock) (next : ℕ),
      let r := l.foldl (fun next b => if stop ≤ b.offset then min next b.offset else next) next
      r ≤ next ∧ (∀ b ∈ l, stop ≤ b.offset → r ≤ b.offset) ∧
        (r = next ∨ ∃ b ∈ l, stop ≤ b.offset ∧ r = b.offset) := by
    intro l
    induction l with
    | nil => exact fun next => ⟨Nat.le_refl _, nofun, .inl rfl⟩
    | cons b l ih =>
      intro next
      simp only [foldl_cons, forall_mem_cons, exists_mem_cons_iff]
      by_cases hb : stop ≤ b.offset
      · obtain ⟨hle, hall, hcases⟩ := ih (min next b.offset)
        rw [if_pos hb]
        refine ⟨hle.trans (Nat.min_le_left ..), ⟨fun _ => hle.trans (Nat.min_le_right ..), hall⟩,
          ?_⟩
        rcases hcases with heq | hmem
        · rcases Nat.le_total next b.offset with hn | hn
          · exact .inl (heq.trans (Nat.min_eq_left hn))
          · exact .inr (.inl ⟨hb, heq.trans (Nat.min_eq_right hn)⟩)
        · exact .inr (.inr hmem)
      · obtain ⟨hle, hall, hcases⟩ := ih next
        rw [if_neg hb]
        exact ⟨hle, ⟨fun h => absurd h hb, hall⟩, hcases.imp_right .inr⟩
  exact hfold blocks ulongMax

/-- What the outer loop finds: the best candidate, or what it had before if there is none. -/
theorem findLoop_spec (blocks : List NamedBlock) (size : ℕ) (l : List NamedBlock) (best : ℕ × ℕ) :
    (findLoop blocks size l best = best ∧
      ∀ b ∈ l, size ≤ gapBehind blocks b → best.2 ≤ gapBehind blocks b) ∨
    ∃ b ∈ l, size ≤ gapBehind blocks b ∧
      findLoop blocks size l best = (b.stop, gapBehind blocks b) := by
  induction l generalizing best with
  | nil => exact .inl ⟨rfl, nofun⟩
  | cons b l ih =>
    rw [findLoop]
    split
    next h =>
      refine .inr ?_
      rcases ih (b.stop, gapBehind blocks b) with ⟨heq, -⟩ | ⟨c, hc, hsize, heq⟩
      · exact ⟨b, .head _, h.1, heq⟩
      · exact ⟨c, .tail _ hc, hsize, heq⟩
    next h =>
      rcases ih best with ⟨heq, hnone⟩ | ⟨c, hc, hsize, heq⟩
      · refine .inl ⟨heq, fun c hc hsize => ?_⟩
        rcases mem_cons.mp hc with rfl | hc
        · exact Nat.not_lt.mp fun hlt => h ⟨hsize, hlt⟩
        · exact hnone c hc hsize
      · exact .inr ⟨c, .tail _ hc, hsize, heq⟩

theorem lastRamOffset_le_iff {x : ℕ} : lastRamOffset blocks ≤ x ↔ ∀ b ∈ blocks, b.stop ≤ x := by
  have hfold : ∀ (l : List NamedBlock) (last : ℕ),
      l.foldl (fun last b => max last b.stop) last ≤ x ↔ last ≤ x ∧ ∀ b ∈ l, b.stop ≤ x := by
    intro l
    induction l with
    | nil => simp
    | cons c l ih =>
      intro last
      rw [foldl_cons, ih, Nat.max_le, forall_mem_cons, and_assoc]
  rw [lastRamOffset, hfold]
  exact and_iff_right (Nat.zero_le x)

end Gaps

/-! ### What every operation keeps -/

/-- The end of the pages that `malloc` has room for flags of. -/
def ramMax : ℕ := mallocMax * targetPageSize

/-- Blocks are made of pages and do not overlap, none of them ends behind `ramMax`, and there are
dirty flags for all their pages. -/
structure RamInv (s : RamState) : Prop where
  aligned : ∀ b ∈ s.blocks,
    b.offset % targetPageSize = 0 ∧ b.length % targetPageSize = 0 ∧ 0 < b.length
  bounded : ∀ b ∈ s.blocks, b.offset + b.length ≤ ramMax
  apart : s.blocks.Pairwise Apart
  table : ∀ b ∈ s.blocks, (b.offset + b.length) / targetPageSize ≤ s.physDirty.length
  host : ∀ b ∈ s.blocks, 0 < b.host ∧ b.host < 2 ^ 64

section Inv

variable {s s' : RamState} {size addr offset : ℕ} {b c : NamedBlock}

theorem apart_comm : Apart b c ↔ Apart c b := or_comm

theorem RamInv.apart_of_ne (h : RamInv s) (hb : b ∈ s.blocks) (hc : c ∈ s.blocks)
    (hne : b ≠ c) : Apart b c := by
  have : Std.Symm Apart := ⟨fun _ _ => apart_comm.mp⟩
  exact h.apart.forall hb hc hne

theorem RamInv.stop_eq (h : RamInv s) (hb : b ∈ s.blocks) : b.stop = b.offset + b.length :=
  Nat.mod_eq_of_lt ((h.bounded b hb).trans_lt (by decide))

/-- There is a gap behind the last block. -/
theorem RamInv.exists_last_gap (h : RamInv s) (hsize : size ≤ 2 ^ 63) (hne : s.blocks ≠ []) :
    ∃ b ∈ s.blocks, size ≤ gapBehind s.blocks b ∧ gapBehind s.blocks b < ulongMax := by
  obtain ⟨b, hb, hmax⟩ := s.blocks.toFinset.exists_max_image (fun b => b.offset + b.length)
    (toFinset_nonempty_iff _ |>.mpr hne)
  simp only [List.mem_toFinset] at hb hmax
  have hstop := h.stop_eq hb
  have hle : b.offset + b.length ≤ 2 ^ 62 := h.bounded b hb
  have hpos := (h.aligned b hb).2.2
  have hnext : nextOffset s.blocks b.stop = ulongMax := by
    rcases (nextOffset_spec s.blocks b.stop).2.2 with heq | ⟨c, hc, hge, -⟩
    · exact heq
    · have := hmax c hc
      have := (h.aligned c hc).2.2
      omega
  refine ⟨b, hb, ?_⟩
  rw [gapBehind, hnext, hstop, ulongSub_of_le (by unfold ulongMax; omega) (by decide)]
  unfold ulongMax
  omega

/-- **`find_ram_offset`** returns the start of a gap that is large enough. -/
theorem RamInv.findRamOffset_spec (h : RamInv s) (hsize : size ≤ 2 ^ 63) :
    findRamOffset s.blocks size % targetPageSize = 0 ∧ findRamOffset s.blocks size ≤ ramMax ∧
      ∀ b ∈ s.blocks, findRamOffset s.blocks size + size ≤ b.offset ∨
        b.offset + b.length ≤ findRamOffset s.blocks size := by
  rw [findRamOffset]
  split
  next hnil =>
    rw [hnil]
    exact ⟨rfl, Nat.zero_le _, nofun⟩
  next hne =>
    rcases findLoop_spec s.blocks size s.blocks (0, ulongMax) with ⟨-, hnone⟩ | ⟨b, hb, hgap, heq⟩
    · obtain ⟨b, hb, hfits, hlt⟩ := h.exists_last_gap hsize hne
      exact absurd (hnone b hb hfits) (Nat.not_le.mpr hlt)
    · rw [heq]
      have hstop := h.stop_eq hb
      have hle : b.offset + b.length ≤ 2 ^ 62 := h.bounded b hb
      obtain ⟨hoff, hlen, -⟩ := h.aligned b hb
      obtain ⟨hmax, hnext, hcases⟩ := nextOffset_spec s.blocks b.stop
      -- the gap does not wrap
      have hge : b.stop ≤ nextOffset s.blocks b.stop := by
        rcases hcases with heq | ⟨c, -, hge, heq⟩
        · rw [heq, hstop]
          unfold ulongMax
          omega
        · rw [heq]
          exact hge
      rw [gapBehind, ulongSub_of_le hge (by unfold ulongMax at hmax; omega)] at hgap
      refine ⟨?_, hstop ▸ h.bounded b hb, fun c hc => ?_⟩
      · show b.stop % targetPageSize = 0
        rw [hstop]
        unfold targetPageSize at *
        omega
      · by_cases hbehind : b.stop ≤ c.offset
        · have := hnext c hc hbehind
          exact .inl (by omega)
        · refine .inr ?_
          by_cases hbc : b = c
          · subst hbc
            exact Nat.le_of_eq hstop.symm
          · rcases h.apart_of_ne hb hc hbc with hap | hap
            · omega
            · exact hap.trans (by omega)

/-! ### Allocation -/

/-- The length of a block that is asked for with a size. -/
def roundUp (size : ℕ) : ℕ := (size + (targetPageSize - 1)) / targetPageSize * targetPageSize

theorem roundUp_spec (hpos : 0 < size) (hsize : size < 2 ^ 63) :
    ramPageAlign size = roundUp size ∧ roundUp size % targetPageSize = 0 ∧ 0 < roundUp size ∧
      roundUp size ≤ 2 ^ 63 := by
  rw [ramPageAlign, roundUp, Nat.mod_eq_of_lt]
  all_goals
    unfold targetPageSize
    omega

/-- The page is one of those of the block. -/
def NamedBlock.HasPage (b : NamedBlock) (p : ℕ) : Prop := b.Contains (p * targetPageSize)

theorem RamInv.lt_of_hasPage (h : RamInv s) (hb : b ∈ s.blocks) {p : ℕ} (hp : b.HasPage p) :
    p < s.physDirty.length := by
  have htable := h.table b hb
  obtain ⟨hoff, hlen, -⟩ := h.aligned b hb
  obtain ⟨-, hlt⟩ := hp
  unfold targetPageSize at *
  omega

theorem realloc_eq (tab : List UInt8) {n : ℕ} (junk : ℕ → UInt8) (h : n ≤ mallocMax) :
    ∃ tab', realloc tab n junk = some tab' ∧ tab'.length = n ∧
      ∀ i < n, i < tab.length → tab'[i]? = tab[i]? :=
  ⟨_, if_pos h, by simp, fun i hi hold => by simp [hi, hold]⟩

theorem memset_eq {tab : List UInt8} {start n : ℕ} (v : UInt8) (h : start + n ≤ tab.length) :
    ∃ tab', memset tab start n v = some tab' ∧ tab'.length = tab.length ∧
      (∀ i, start ≤ i → i < start + n → tab'[i]? = some v) ∧
      ∀ i, ¬ (start ≤ i ∧ i < start + n) → tab'[i]? = tab[i]? := by
  refine ⟨_, if_pos h, length_mapIdx, fun i hle hlt => ?_, fun i hout => ?_⟩
  · rw [getElem?_mapIdx, getElem?_eq_getElem (by omega), map_some, if_pos ⟨hle, hlt⟩]
  · rw [getElem?_mapIdx]
    cases tab[i]? with
    | none => rfl
    | some b => rw [map_some, if_neg hout]

/-- What an allocation does to the list and the table. -/
structure AllocatedBlock (s s' : RamState) (b : NamedBlock) : Prop where
  blocks : s'.blocks = b :: s.blocks
  fresh : ∀ p, b.HasPage p → s'.physDirty[p]? = some 0xff
  others : ∀ c ∈ s.blocks, ∀ p, c.HasPage p → s'.physDirty[p]? = s.physDirty[p]?

/-- **`qemu_ram_alloc_from_ptr`** returns for a new name if there is memory for the flags of the new
block. The block is apart from the others, its pages are dirty, and the pages of the others are as
before. -/
theorem RamInv.qemuRamAlloc (h : RamInv s) {path : Option (List UInt8)} {name : List UInt8}
    {host : ℕ} (junk : ℕ → UInt8) (hpos : 0 < size) (hsize : size < 2 ^ 63)
    (hhost : 0 < host ∧ host < 2 ^ 64) (hname : ∀ b ∈ s.blocks, b.idstr ≠ idStr path name)
    (hroom : findRamOffset s.blocks (roundUp size) + roundUp size ≤ ramMax) :
    ∃ s' offset, s.qemuRamAlloc path name size host junk = some (s', offset) ∧ RamInv s' ∧
      AllocatedBlock s s' ⟨⟨offset, roundUp size, host⟩, idStr path name⟩ := by
  obtain ⟨halign, hmod, hlen, hle⟩ := roundUp_spec hpos hsize
  obtain ⟨hoff, -, hapart⟩ := h.findRamOffset_spec hle
  have hany : (s.blocks.any fun b => b.idstr = idStr path name) = false := by
    simpa using hname
  rw [RamState.qemuRamAlloc]
  simp only [halign, hany, Bool.false_eq_true, if_false]
  set offset := findRamOffset s.blocks (roundUp size)
  set new : NamedBlock := ⟨⟨offset, roundUp size, host⟩, idStr path name⟩
  have hbounded : ∀ b ∈ new :: s.blocks, b.offset + b.length ≤ ramMax :=
    forall_mem_cons.mpr ⟨hroom, h.bounded⟩
  have hstop : ∀ b ∈ new :: s.blocks, b.stop = b.offset + b.length := fun b hb =>
    Nat.mod_eq_of_lt ((hbounded b hb).trans_lt (by decide))
  have hlast : ∀ b ∈ new :: s.blocks, b.offset + b.length ≤ lastRamOffset (new :: s.blocks) :=
    fun b hb => hstop b hb ▸ lastRamOffset_le_iff.mp le_rfl b hb
  have hmax : lastRamOffset (new :: s.blocks) ≤ ramMax :=
    lastRamOffset_le_iff.mpr fun b hb => (hstop b hb).trans_le (hbounded b hb)
  set last := lastRamOffset (new :: s.blocks)
  obtain ⟨hnew, hold⟩ := forall_mem_cons.mp hlast
  obtain ⟨tab, hrealloc, htab, hkept⟩ := realloc_eq s.physDirty junk
    (Nat.div_le_of_le_mul (Nat.mul_comm .. ▸ hmax : last ≤ targetPageSize * mallocMax))
  have hfit : offset / targetPageSize + roundUp size / targetPageSize ≤ tab.length := by
    rw [htab]
    change offset + roundUp size ≤ last at hnew
    unfold targetPageSize at *
    omega
  obtain ⟨tab', hset, htab', hff, hsame⟩ := memset_eq 0xff hfit
  rw [hrealloc, bind_some, hset]
  refine ⟨_, _, rfl, ⟨?_, hbounded, pairwise_cons.mpr ⟨hapart, h.apart⟩, fun b hb => ?_, ?_⟩, rfl,
    fun p hp => ?_, fun c hc p hp => ?_⟩
  · exact forall_mem_cons.mpr ⟨⟨hoff, hmod, hlen⟩, h.aligned⟩
  · rw [htab', htab]
    exact Nat.div_le_div_right (hlast b hb)
  · exact forall_mem_cons.mpr ⟨hhost, h.host⟩
  · obtain ⟨hge, hlt⟩ := hp
    change offset ≤ p * targetPageSize at hge
    change p * targetPageSize < offset + roundUp size at hlt
    refine hff p ?_ ?_
    all_goals
      unfold targetPageSize at *
      omega
  · have hin := h.lt_of_hasPage hc hp
    obtain ⟨hge, hlt⟩ := hp
    obtain ⟨hoffc, hlenc, -⟩ := h.aligned c hc
    have hend := hold c hc
    rw [hsame p, hkept p _ hin]
    · unfold targetPageSize at *
      omega
    · rcases hapart c hc with hap | hap
      all_goals
        unfold targetPageSize at *
        omega

/-! ### Lookup -/

/-- The block of an address. -/
theorem RamInv.holds_iff (h : RamInv s) (hb : b ∈ s.blocks) (haddr : addr < 2 ^ 64) :
    b.holds addr = true ↔ b.Contains addr := by
  have hle : b.offset + b.length ≤ 2 ^ 62 := h.bounded b hb
  rw [RamBlock.holds, decide_eq_true_eq, RamBlock.Contains, ulongSub]
  omega

/-- A lookup only changes the order of the blocks. -/
theorem RamState.perm_of_qemuGetRamPtr {ptr : ℕ} (h : s.qemuGetRamPtr addr = some (s', ptr)) :
    s'.blocks.Perm s.blocks ∧ s'.physDirty = s.physDirty := by
  obtain ⟨b, hfind, heq⟩ := map_eq_some_iff.mp h
  cases heq
  exact ⟨(perm_cons_erase (mem_of_find?_eq_some hfind)).symm, rfl⟩

section

variable (h : RamInv s)
include h

/-- Fewer blocks in another order need no more. -/
theorem RamInv.subset (hmem : ∀ b ∈ s'.blocks, b ∈ s.blocks) (hapart : s'.blocks.Pairwise Apart)
    (htable : s'.physDirty.length = s.physDirty.length) :
    RamInv s' :=
  ⟨fun b hb => h.aligned b (hmem b hb), fun b hb => h.bounded b (hmem b hb), hapart,
    fun b hb => htable ▸ h.table b (hmem b hb), fun b hb => h.host b (hmem b hb)⟩

/-- **Back and forth.** After `qemu_get_ram_ptr` the block is the first on the list, so its pointers
are looked for there first. -/
theorem RamInv.qemuRamAddrFromHost (hb : b ∈ s.blocks) (haddr : b.Contains addr) :
    ∃ s' ptr, s.qemuGetRamPtr addr = some (s', ptr) ∧ s'.qemuRamAddrFromHost ptr = some addr := by
  have hlt : addr < 2 ^ 64 := haddr.2.trans ((h.bounded b hb).trans_lt (by decide))
  obtain ⟨c, hfind⟩ : ∃ c, (s.blocks.find? fun b => b.holds addr) = some c := by
    rw [← isSome_iff_exists, find?_isSome]
    exact ⟨b, hb, (h.holds_iff hb (by omega)).mpr haddr⟩
  have hc := mem_of_find?_eq_some hfind
  have hle : c.offset + c.length ≤ 2 ^ 62 := h.bounded c hc
  have hholds := find?_some hfind
  obtain ⟨hge, hin⟩ := (h.holds_iff hc (by omega)).mp hholds
  obtain ⟨hhost, hhost'⟩ := h.host c hc
  rw [RamState.qemuGetRamPtr, hfind]
  refine ⟨_, _, rfl, ?_⟩
  have hsub : ulongSub addr c.offset = addr - c.offset := ulongSub_of_le hge (by omega)
  have hback : ulongSub ((c.host + (addr - c.offset)) % 2 ^ 64) c.host = addr - c.offset := by
    rw [ulongSub]
    omega
  rw [hsub, RamState.qemuRamAddrFromHost, find?_cons_of_pos, map_some, hback]
  · refine congrArg some ?_
    omega
  · rw [RamBlock.holdsHost, hback, decide_eq_true_eq]
    omega

theorem RamInv.qemuRamFree (addr : ℕ) : RamInv (s.qemuRamFree addr) :=
  h.subset (fun _ => mem_of_mem_eraseP) (h.apart.sublist eraseP_sublist) rfl

/-- The blocks that the other modules have: those of a list with their memory apart. What a lookup
returns does not depend on the order that lookups leave the list in. -/
theorem RamInv.exists_ramList (hend : ∀ b ∈ s.blocks, b.host + b.length ≤ 2 ^ 64)
    (hhost : s.blocks.Pairwise fun b c =>
      b.host + b.length ≤ c.host ∨ c.host + c.length ≤ b.host) :
    ∃ r : RamList, r.blocks = s.blocks.map (·.toRamBlock) ∧
      ∀ addr < 2 ^ 64, (s.qemuGetRamPtr addr).map (·.2) = r.qemuGetRamPtr addr := by
  refine ⟨⟨s.blocks.map (·.toRamBlock), ?_, ?_, ?_⟩, rfl, fun addr haddr => ?_⟩
  · simp only [List.forall_mem_map]
    exact fun b hb => ⟨(h.aligned b hb).1, (h.aligned b hb).2.1⟩
  · rw [pairwise_map]
    exact h.apart
  · rw [pairwise_map]
    exact hhost
  · have hfind : (s.blocks.find? fun b => b.holds addr) =
        s.blocks.find? fun b => decide (b.Contains addr) := by
      refine find?_congr fun b hb => ?_
      rw [Bool.eq_iff_iff, h.holds_iff hb haddr, decide_eq_true_eq]
    rw [RamList.qemuGetRamPtr, RamList.block, find?_map, Option.map_map,
      RamState.qemuGetRamPtr, Option.map_map, hfind]
    refine Option.map_congr fun b hb => ?_
    have hmem := mem_of_find?_eq_some hb
    have hin : b.Contains addr := by simpa using find?_some hb
    have hle := hend b hmem
    obtain ⟨hge, hlt⟩ := hin
    simp only [Function.comp_apply, ulongSub_of_le hge haddr]
    omega

end

/-! ### Every state that can be reached -/

/-- The number of bytes that an operation asks for. -/
def RamOp.bytes : RamOp → ℕ
  | .qemuRamAlloc _ _ size _ _ => size
  | _ => 0

/-- The sizes that are asked for are positive. -/
def RamOp.Positive : RamOp → Prop
  | .qemuRamAlloc _ _ size _ _ => 0 < size
  | _ => True

/-- An allocation that returns had a new name and memory. -/
theorem RamInv.of_qemuRamAlloc (hinv : RamInv s) {path : Option (List UInt8)} {name : List UInt8}
    {host : ℕ} {junk : ℕ → UInt8} (hpos : 0 < size) (hsize : size < 2 ^ 63)
    (h : s.qemuRamAlloc path name size host junk = some (s', offset)) :
    (∀ b ∈ s.blocks, b.idstr ≠ idStr path name) ∧
      findRamOffset s.blocks (roundUp size) + roundUp size ≤ ramMax := by
  obtain ⟨halign, hmod, -, hle⟩ := roundUp_spec hpos hsize
  obtain ⟨hoff, hmax, -⟩ := hinv.findRamOffset_spec hle
  rw [RamState.qemuRamAlloc] at h
  dsimp only at h
  split at h
  · cases h
  next hany =>
    obtain ⟨tab, hrealloc, -⟩ := bind_eq_some_iff.mp h
    refine ⟨by simpa using hany, ?_⟩
    rw [realloc, halign] at hrealloc
    split at hrealloc
    next hmem =>
      have hstop := (Nat.div_le_div_right (lastRamOffset_le_iff.mp le_rfl _ (.head _))).trans hmem
      unfold RamBlock.stop ramMax mallocMax targetPageSize at *
      dsimp only at hstop
      omega
    next => cases hrealloc

theorem RamInv.step (h : RamInv s) {op : RamOp} (hpos : op.Positive) (hsize : op.bytes < 2 ^ 63)
    (hstep : ramStep s op = some s') : RamInv s' := by
  cases op with
  | qemuRamAlloc path name size host junk =>
    rw [ramStep] at hstep
    split at hstep
    next hhost =>
      obtain ⟨⟨s₁, offset⟩, halloc, rfl⟩ := map_eq_some_iff.mp hstep
      obtain ⟨hname, hroom⟩ := h.of_qemuRamAlloc hpos hsize halloc
      obtain ⟨s₂, offset', halloc', hinv, -⟩ := h.qemuRamAlloc junk hpos hsize hhost hname hroom
      obtain ⟨rfl, -⟩ := Prod.mk.inj (some.inj (halloc.symm.trans halloc'))
      exact hinv
    next => cases hstep
  | qemuRamFree addr =>
    cases hstep
    exact h.qemuRamFree addr
  | qemuGetRamPtr addr =>
    obtain ⟨⟨s₁, ptr⟩, hget, rfl⟩ := map_eq_some_iff.mp hstep
    obtain ⟨hperm, htable⟩ := RamState.perm_of_qemuGetRamPtr hget
    refine h.subset (fun b => hperm.mem_iff.mp) ?_ (congrArg List.length htable)
    exact hperm.symm.pairwise h.apart fun hbc => apart_comm.mp hbc
  | setDirty page flags =>
    cases hstep
    exact h.subset (fun _ => id) h.apart length_set

theorem ramInv_of_run {ops : List RamOp} (h : Runs.run ramStep initRamState ops = some s)
    (hpos : ∀ op ∈ ops, op.Positive) (hsize : (ops.map RamOp.bytes).sum < 2 ^ 63) : RamInv s := by
  revert hpos hsize
  refine Runs.run_induction (P := fun ops s => (∀ op ∈ ops, RamOp.Positive op) →
    (ops.map RamOp.bytes).sum < 2 ^ 63 → RamInv s) ?_ ?_ h
  · exact fun _ _ => ⟨nofun, nofun, List.Pairwise.nil, nofun, nofun⟩
  · intro p op s s' _ ih hstep hpos hsize
    rw [map_append, sum_append, map_singleton, sum_singleton] at hsize
    have hinv := ih (fun op hop => hpos op (mem_append_left _ hop)) (by omega)
    exact hinv.step (hpos op (mem_append_right _ (.head _))) (by omega) hstep

/-- **RAM blocks do not overlap.** Let the sizes that are asked for be positive and add up to less
than `2 ^ 63`. Then in every state that can be reached the blocks are made of pages and do not
overlap, there are dirty flags for all their pages, and looking up the pointer of an address and the
address of this pointer gives the address. One more allocation with a new name marks the pages of
the new block as dirty and leaves the others as they are, unless there is no memory for the flags of
the new block. -/
theorem ram_blocks_apart {ops : List RamOp} (h : Runs.run ramStep initRamState ops = some s)
    (hpos : ∀ op ∈ ops, op.Positive) (hsize : (ops.map RamOp.bytes).sum < 2 ^ 63) :
    (∀ b ∈ s.blocks, b.offset % targetPageSize = 0 ∧ b.length % targetPageSize = 0) ∧
      s.blocks.Pairwise Apart ∧
      (∀ b ∈ s.blocks, ∀ p, b.HasPage p → p < s.physDirty.length) ∧
      (∀ b ∈ s.blocks, ∀ addr, b.Contains addr →
        ∃ s' ptr, s.qemuGetRamPtr addr = some (s', ptr) ∧ s'.qemuRamAddrFromHost ptr = some addr) ∧
      ∀ path name size host junk, 0 < size → size < 2 ^ 63 → 0 < host ∧ host < 2 ^ 64 →
        (∀ b ∈ s.blocks, b.idstr ≠ idStr path name) →
        (∃ s' offset, s.qemuRamAlloc path name size host junk = some (s', offset) ∧
          AllocatedBlock s s' ⟨⟨offset, roundUp size, host⟩, idStr path name⟩) ∨
        ramMax < findRamOffset s.blocks (roundUp size) + roundUp size ∧
          s.qemuRamAlloc path name size host junk = none := by
  have hinv := ramInv_of_run h hpos hsize
  refine ⟨fun b hb => ?_, hinv.apart, fun b hb p => hinv.lt_of_hasPage hb,
    fun b hb addr => hinv.qemuRamAddrFromHost hb,
    fun path name size host junk hpos hsize hhost hname => ?_⟩
  · obtain ⟨hoff, hlen, -⟩ := hinv.aligned b hb
    exact ⟨hoff, hlen⟩
  by_cases hroom : findRamOffset s.blocks (roundUp size) + roundUp size ≤ ramMax
  · obtain ⟨s', offset, halloc, -, hnew⟩ := hinv.qemuRamAlloc junk hpos hsize hhost hname hroom
    exact .inl ⟨s', offset, halloc, hnew⟩
  · refine .inr ⟨Nat.lt_of_not_le hroom, eq_none_iff_forall_ne_some.mpr fun r halloc => hroom ?_⟩
    exact (hinv.of_qemuRamAlloc hpos hsize halloc).2

end Inv

/-- The bytes of a name. -/
def letter (n : ℕ) : List UInt8 := [UInt8.ofNat (97 + n)]

/-- Three blocks, the first of which is freed. The second stays where it is, the third is put behind
it, and the address of its first byte is found back. -/
theorem ram_blocks_apart_after_free :
    ∃ s, Runs.run ramStep initRamState
        [.qemuRamAlloc none (letter 0) 1 4096 fun _ => 0,
          .qemuRamAlloc none (letter 1) 1025 8192 fun _ => 0, .qemuRamFree 0,
          .qemuRamAlloc none (letter 2) 1 16384 fun _ => 0] = some s ∧
      s.blocks = [⟨⟨3072, 1024, 16384⟩, letter 2⟩, ⟨⟨1024, 2048, 8192⟩, letter 1⟩] ∧
      s.physDirty.length = 4 ∧ s.blocks.Pairwise Apart ∧
      ∃ s' ptr, s.qemuGetRamPtr 3072 = some (s', ptr) ∧ s'.qemuRamAddrFromHost ptr = some 3072 := by
  refine Runs.exists_of_map (fun s => (s.blocks, s.physDirty.length))
    ([⟨⟨3072, 1024, 16384⟩, letter 2⟩, ⟨⟨1024, 2048, 8192⟩, letter 1⟩], 4) (by decide +kernel)
    fun s hs heq => ?_
  obtain ⟨hblocks, hlen⟩ := Prod.mk.inj heq
  obtain ⟨-, hapart, -, hback, -⟩ := ram_blocks_apart hs (by simp [RamOp.Positive]) (by decide)
  refine ⟨hblocks, hlen, hapart, hback ⟨⟨3072, 1024, 16384⟩, letter 2⟩ ?_ 3072 ?_⟩
  · rw [hblocks]
    exact .head _
  · decide

end VariabilityTestbed.Memory

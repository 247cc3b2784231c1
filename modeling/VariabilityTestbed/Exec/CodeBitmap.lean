import VariabilityTestbed.Exec.TbRange
import VariabilityTestbed.Lib.BitTables

/-!
# The bitmap of the code on a page

A page that is written often gets a bitmap, `code_bitmap`, with a bit for each of its bytes:
`build_page_bitmap` sets the bits of the bytes that some block of the page was translated from. From
then on `tb_invalidate_phys_page_fast` looks at the bits of the bytes that are written, and calls
`tb_invalidate_phys_page_range` only if one of them is set.

A bitmap is not kept up to date. Instead it is thrown away by every function that changes the list
of its page: `tb_alloc_page`, `tb_phys_invalidate` and `tb_flush`. So a bitmap that is there is the
one that `build_page_bitmap` would make of the current list, in every state that can be reached
(`Inv.step`), and the test on a few of its bits is the test whether code is overwritten.

The lists are those of `TbTable`; here the fields `code_bitmap` and `code_write_count` of the pages
stand beside them. A page without a descriptor is one with no list, no bitmap and no writes: what
the functions do with it comes to nothing.
-/

namespace VariabilityTestbed.Exec

open BitTables Chains Function Memory Translate List Option

/-! ### The code -/

/-- The loop of `set_bits`, over `k` bytes from byte `i` on. -/
def fillBytes : ℕ → List UInt8 → ℕ → Option (List UInt8)
  | 0, tab, _ => some tab
  | k + 1, tab, i => (setByte tab i fun _ => 0xff).bind fun tab => fillBytes k tab (i + 1)

/-- `set_bits`. A write behind the end of the table is `none`. -/
def setBits (tab : List UInt8) (start len : ℕ) : Option (List UInt8) :=
  let stop := start + len
  let mask : UInt8 := 0xff <<< UInt8.ofNat (start % 8)
  if start / 8 = stop / 8 then
    if start < stop then
      setByte tab (start / 8) (· ||| (mask &&& ~~~(0xff <<< UInt8.ofNat (stop % 8))))
    else some tab
  else do
    let tab ← setByte tab (start / 8) (· ||| mask)
    let tab ← fillBytes (stop / 8 - (start / 8 + 1)) tab (start / 8 + 1)
    if stop / 8 * 8 < stop then
      setByte tab (stop / 8) (· ||| ~~~(0xff <<< UInt8.ofNat (stop % 8)))
    else some tab

namespace TbTable

/-- The loop of `build_page_bitmap`. -/
def buildLoop (s : TbTable) : ℕ → List UInt8 → Option PageNode → Option (List UInt8)
  | 0, _, _ => none
  | _ + 1, tab, none => some tab
  | fuel + 1, tab, some x =>
    let t := s.tbs x.1
    (setBits tab (t.bitmapStart x.2) (t.bitmapEnd x.2 - t.bitmapStart x.2)).bind fun tab =>
      s.buildLoop fuel tab (s.pageCell (.next x))

/-- `build_page_bitmap`. -/
def buildPageBitmap (s : TbTable) (page : ℕ) : Option (List UInt8) :=
  s.buildLoop s.bound (List.replicate (targetPageSize / 8) 0) (s.pageCell (.first page))

end TbTable

/-- The fields of a `PageDesc`, apart from its list. -/
structure PageDesc where
  codeBitmap : Option (List UInt8)
  codeWriteCount : UInt32

/-- The blocks with their lists, and what there is for each page besides. -/
structure CodePages where
  table : TbTable
  pages : ℕ → PageDesc

namespace CodePages

/-- `SMC_BITMAP_USE_THRESHOLD`. -/
def smcBitmapUseThreshold : UInt32 := 10

/-- What `invalidate_page_bitmap` leaves. -/
def noBitmap : PageDesc := ⟨none, 0⟩

/-- `invalidate_page_bitmap`. -/
def invalidatePageBitmap (s : CodePages) (page : ℕ) : CodePages :=
  { s with pages := update s.pages page noBitmap }

/-- `invalidate_page_bitmap` for the pages of a block, in `tb_alloc_page` for each of them and in
`tb_phys_invalidate`. -/
def invalidatePageBitmaps (s : CodePages) (pageAddr : Fin 2 → Option ℕ) : CodePages :=
  { s with
    pages := fun page => if ∃ n, pageAddr n = some page then noBitmap else s.pages page }

/-- `tb_flush`: `page_flush_tb` goes over all pages. -/
def tbFlush (z : CacheSize) (s : CodePages) : Option CodePages :=
  (s.table.tbFlush z).map fun t => ⟨t, fun _ => noBitmap⟩

/-- The pages after the allocation in `tb_gen_code`. -/
def allocPages (z : CacheSize) (s : CodePages) (pc : UInt32) : ℕ → PageDesc :=
  if (s.table.tbAlloc z pc).isSome then s.pages else fun _ => noBitmap

/-- `tb_gen_code`. -/
def tbGenCode (z : CacheSize) (map : CodeMap) (s : CodePages) (pc csBase : UInt32) (flags : UInt64)
    (translation : Option (Translation pc)) : Option (CodePages × Option ℕ) :=
  match map (virtPage pc) with
  | none => some (s, none)
  | some _ => do
    let (t, r) ← s.table.tbGenCode z map pc csBase flags translation
    let s : CodePages := ⟨t, s.allocPages z pc⟩
    match r with
    | none => some (s, none)
    | some tb => some (s.invalidatePageBitmaps (t.tbs tb).pageAddr, some tb)

/-- `tb_find_slow`. -/
def tbFindSlow (z : CacheSize) (map : CodeMap) (s : CodePages) (cpu : ℕ) (pc csBase : UInt32)
    (flags : UInt64) (translation : Option (Translation pc)) : Option (CodePages × Option ℕ) :=
  match map (virtPage pc) with
  | none => some (s, none)
  | some physPage1 => do
    let h := tbPhysHashFunc (TbTable.physPc physPage1 pc)
    let ptb1 ← seek s.table.hashCell .next
      (fun tb => s.table.isWanted map pc csBase flags physPage1 tb != some false) s.table.bound
      (.head h)
    match s.table.hashCell ptb1 with
    | some tb =>
      if s.table.isWanted map pc csBase flags physPage1 tb = none then some (s, none)
      else
        some ({ s with table := (s.table.moveToFront ptb1 h tb).setJmpCache cpu pc tb }, some tb)
    | none =>
      let (s, r) ← s.tbGenCode z map pc csBase flags translation
      match r with
      | none => some (s, none)
      | some tb =>
        some ({ s with table := (s.table.moveToFront ptb1 h tb).setJmpCache cpu pc tb }, some tb)

/-- `tb_find_fast`. -/
def tbFindFast (z : CacheSize) (map : CodeMap) (s : CodePages) (cpu : ℕ) (pc csBase : UInt32)
    (flags : UInt64) (translation : Option (Translation pc)) : Option (CodePages × Option ℕ) :=
  match s.table.jmpCache cpu (tbJmpCacheHashFunc pc) with
  | none => s.tbFindSlow z map cpu pc csBase flags translation
  | some tb =>
    let t := s.table.tbs tb
    if t.pc ≠ pc ∨ t.csBase ≠ csBase ∨ t.flags ≠ flags then
      s.tbFindSlow z map cpu pc csBase flags translation
    else some (s, some tb)

/-- `tb_phys_invalidate(tb, -1)`. -/
def tbPhysInvalidate (s : CodePages) (tb : ℕ) : Option CodePages :=
  (s.table.tbPhysInvalidate tb).map fun t =>
    { s with table := t }.invalidatePageBitmaps (s.table.tbs tb).pageAddr

/-- The loop of `tb_invalidate_phys_page_range`. -/
def invalidateLoop (start stop : ℕ) : ℕ → CodePages → Option ℕ → Option PageNode → Option CodePages
  | 0, _, _, _ => none
  | _ + 1, s, _, none => some s
  | fuel + 1, s, currentTb, some x =>
    let tbNext := s.table.pageCell (.next x)
    if s.table.overlaps start stop x then do
      let s ← s.tbPhysInvalidate x.1
      let t ← s.table.cpuInterrupt currentTb
      invalidateLoop start stop fuel { s with table := t } none tbNext
    else invalidateLoop start stop fuel s currentTb tbNext

/-- The start of `tb_invalidate_phys_page_range`: a page that is written often gets a bitmap. -/
def countWrite (s : CodePages) (page : ℕ) (isCpuWriteAccess : Bool) : Option CodePages :=
  match (s.pages page).codeBitmap with
  | some _ => some s
  | none =>
    let count := (s.pages page).codeWriteCount + 1
    if smcBitmapUseThreshold ≤ count ∧ isCpuWriteAccess then
      (s.table.buildPageBitmap page).map fun b =>
        { s with pages := update s.pages page ⟨some b, count⟩ }
    else some { s with pages := update s.pages page ⟨none, count⟩ }

/-- `tb_invalidate_phys_page_range`. -/
def tbInvalidatePhysPageRange (s : CodePages) (currentTb : Option ℕ) (start stop : ℕ)
    (isCpuWriteAccess : Bool) : Option CodePages := do
  let page := start / targetPageSize
  let s ← s.countWrite page isCpuWriteAccess
  let s ← invalidateLoop start stop s.table.bound s currentTb (s.table.pageCell (.first page))
  if s.table.pageCell (.first page) = none then some (s.invalidatePageBitmap page) else some s

/-- The test on the bitmap in `tb_invalidate_phys_page_fast`. -/
def codeHit (b : List UInt8) (offset len : ℕ) : Option Bool :=
  (b[offset / 8]?).map fun byte => (byte.toNat >>> (offset % 8)) &&& (2 ^ len - 1) != 0

/-- Whether `tb_invalidate_phys_page_fast` calls `tb_invalidate_phys_page_range`. -/
def callsRange (s : CodePages) (start len : ℕ) : Option Bool :=
  match (s.pages (start / targetPageSize)).codeBitmap with
  | none => some true
  | some b => codeHit b (start % targetPageSize) len

/-- `tb_invalidate_phys_page_fast`. -/
def tbInvalidatePhysPageFast (s : CodePages) (currentTb : Option ℕ) (start len : ℕ) :
    Option CodePages := do
  if ← s.callsRange start len then
    s.tbInvalidatePhysPageRange currentTb start (start + len) true
  else some s

end CodePages

/-- What happens to blocks and pages. -/
inductive CodeOp where
  | tbGenCode (map : CodeMap) (pc csBase : UInt32) (flags : UInt64)
    (translation : Option (Translation pc))
  | tbFindSlow (map : CodeMap) (cpu : ℕ) (pc csBase : UInt32) (flags : UInt64)
    (translation : Option (Translation pc))
  | tbFindFast (map : CodeMap) (cpu : ℕ) (pc csBase : UInt32) (flags : UInt64)
    (translation : Option (Translation pc))
  | tbPhysInvalidate (tb : ℕ)
  | tbInvalidatePhysPageRange (currentTb : Option ℕ) (start stop : ℕ) (isCpuWriteAccess : Bool)
  | tbInvalidatePhysPageFast (currentTb : Option ℕ) (start len : ℕ)
  | tbFlush
  | tbFree (tb : ℕ)
  | tlbFlush (cpu : ℕ)
  | tlbFlushJmpCache (cpu : ℕ) (addr : UInt32)
  | tbAddJump (tb : ℕ) (n : Fin 2) (tbNext : ℕ)
  | tbResetJumpRecursive (tb : ℕ)

/-- One operation. The last five leave the pages alone. -/
def codeStep (z : CacheSize) (s : CodePages) : CodeOp → Option CodePages
  | .tbGenCode map pc csBase flags tr => (s.tbGenCode z map pc csBase flags tr).map (·.1)
  | .tbFindSlow map cpu pc csBase flags tr => (s.tbFindSlow z map cpu pc csBase flags tr).map (·.1)
  | .tbFindFast map cpu pc csBase flags tr => (s.tbFindFast z map cpu pc csBase flags tr).map (·.1)
  | .tbPhysInvalidate tb => s.tbPhysInvalidate tb
  | .tbInvalidatePhysPageRange currentTb start stop isCpuWriteAccess =>
    s.tbInvalidatePhysPageRange currentTb start stop isCpuWriteAccess
  | .tbInvalidatePhysPageFast currentTb start len => s.tbInvalidatePhysPageFast currentTb start len
  | .tbFlush => s.tbFlush z
  | .tbFree tb => (tbStep z s.table (.tbFree tb)).map (⟨·, s.pages⟩)
  | .tlbFlush cpu => (tbStep z s.table (.tlbFlush cpu)).map (⟨·, s.pages⟩)
  | .tlbFlushJmpCache cpu addr =>
    (tbStep z s.table (.tlbFlushJmpCache cpu addr)).map (⟨·, s.pages⟩)
  | .tbAddJump tb n tbNext => (tbStep z s.table (.tbAddJump tb n tbNext)).map (⟨·, s.pages⟩)
  | .tbResetJumpRecursive tb =>
    (tbStep z s.table (.tbResetJumpRecursive tb)).map (⟨·, s.pages⟩)

/-- Program start, from any contents of the array of blocks. -/
def initCodePages (tbs : ℕ → TbFields) (hashNext : ℕ → Option ℕ)
    (pageNext : PageNode → Option PageNode) (jumps : JmpState) : CodePages :=
  ⟨initTbTable tbs hashNext pageNext jumps, fun _ => CodePages.noBitmap⟩

/-! ### Setting bits -/

theorem exists_fillBytes {k i : ℕ} {tab : List UInt8} (h : i + k ≤ tab.length) :
    ∃ tab', fillBytes k tab i = some tab' ∧ Adds tab tab' fun j => i ≤ j / 8 ∧ j / 8 < i + k := by
  induction k generalizing i tab with
  | zero => exact ⟨tab, rfl, (Adds.refl tab).congr fun j => iff_of_false id (by omega)⟩
  | succ k ih =>
    obtain ⟨tab₁, hset, hadds⟩ := exists_setByte_all (by omega : i < tab.length)
    obtain ⟨tab₂, hfill, hadds'⟩ := ih (i := i + 1) (by rw [hadds.length_eq]; omega)
    refine ⟨tab₂, ?_, (hadds.trans hadds').congr fun j => by omega⟩
    rw [fillBytes, hset, bind_some, hfill]

/-- **`set_bits`** sets the bits of a range. -/
theorem exists_setBits {tab : List UInt8} {start len : ℕ} (h : start + len ≤ 8 * tab.length) :
    ∃ tab', setBits tab start len = some tab' ∧
      Adds tab tab' fun j => start ≤ j ∧ j < start + len := by
  have hmod : ∀ j, j % 8 < 8 := fun j => Nat.mod_lt j (by decide)
  rw [setBits]
  split_ifs with hbyte hlt hlast
  · -- the first and the last bit are in one byte
    obtain ⟨tab', hset, hadds⟩ := exists_setByte_or (by omega : start / 8 < tab.length)
      ((0xff <<< UInt8.ofNat (start % 8)) &&& ~~~(0xff <<< UInt8.ofNat ((start + len) % 8)))
    refine ⟨tab', hset, hadds.congr fun j => ?_⟩
    rw [UInt8.toNat_and, Nat.testBit_and, testBit_from (hmod _) (hmod _),
      testBit_below (hmod _) (hmod _), Bool.and_eq_true, decide_eq_true_eq, decide_eq_true_eq]
    omega
  · exact ⟨tab, rfl, (Adds.refl tab).congr fun j => iff_of_false id (by omega)⟩
  all_goals
    obtain ⟨tab₁, hset₁, hadds₁⟩ := exists_setByte_or (by omega : start / 8 < tab.length)
      (0xff <<< UInt8.ofNat (start % 8))
    have hlen₁ := hadds₁.length_eq
    have hfit : start / 8 + 1 + ((start + len) / 8 - (start / 8 + 1)) ≤ tab₁.length := by omega
    obtain ⟨tab₂, hfill, hadds₂⟩ := exists_fillBytes hfit
    have hadds := (hadds₁.trans hadds₂).congr (Q := fun j => start ≤ j ∧ j < (start + len) / 8 * 8)
      fun j => by
        rw [testBit_from (hmod _) (hmod _), decide_eq_true_eq]
        omega
    simp only [hset₁, hfill, bind_eq_bind, bind_some]
  · obtain ⟨tab₃, hset₃, hadds₃⟩ := exists_setByte_or
      (by have := hadds.length_eq; omega : (start + len) / 8 < tab₂.length)
      (~~~(0xff <<< UInt8.ofNat ((start + len) % 8)))
    refine ⟨tab₃, hset₃, (hadds.trans hadds₃).congr fun j => ?_⟩
    rw [testBit_below (hmod _) (hmod _), decide_eq_true_eq]
    omega
  · exact ⟨tab₂, rfl, hadds.congr fun j => by omega⟩

/-! ### Exact bitmaps -/

section Exact

variable {t : TbFields} {n : Fin 2}

theorem TbFields.bitmapStart_le (t : TbFields) (n : Fin 2) : t.bitmapStart n ≤ targetPageSize := by
  rw [bitmapStart]
  split
  · exact Nat.le_of_lt (Nat.mod_lt _ (by decide))
  · exact Nat.zero_le _

/-- Byte `j` of a page is code of the block. -/
def TbFields.Marks (t : TbFields) (page j : ℕ) : Prop :=
  ∃ n, t.pageAddr n = some page ∧ t.bitmapStart n ≤ j ∧ j < t.bitmapEnd n

namespace TbTable

variable {s s' : TbTable} {hashLists : ℕ → List ℕ} {pageLists : ℕ → List PageNode} {page : ℕ}
variable {b b' : List UInt8}

/-- The live blocks of a page. -/
def fieldsOn (s : TbTable) (page : ℕ) : Set TbFields :=
  {t | ∃ i ∈ s.live, s.tbs i = t ∧ ∃ n, t.pageAddr n = some page}

/-- The bits of the bitmap are those of the code on the page. -/
def BitmapExact (s : TbTable) (page : ℕ) (b : List UInt8) : Prop :=
  b.length = targetPageSize / 8 ∧ ∀ j, bit b j = true ↔ ∃ t ∈ s.fieldsOn page, t.Marks page j

theorem BitmapExact.unique (h : s.BitmapExact page b) (h' : s.BitmapExact page b') : b = b' := by
  refine ext_bit (h.1.trans h'.1.symm) fun j => ?_
  rw [Bool.eq_iff_iff, h.2, h'.2]

/-- What the walk of `build_page_bitmap` along a list sets. -/
theorem exists_buildLoop {l : List PageNode} {k : PageCell} {fuel : ℕ} {tab : List UInt8}
    (hchain : Chain s.pageCell .next k l) (hfuel : l.length < fuel)
    (hlen : tab.length = targetPageSize / 8) :
    ∃ tab', s.buildLoop fuel tab (s.pageCell k) = some tab' ∧ Adds tab tab' fun j =>
      ∃ x ∈ l, (s.tbs x.1).bitmapStart x.2 ≤ j ∧ j < (s.tbs x.1).bitmapEnd x.2 := by
  induction l generalizing k fuel tab with
  | nil =>
    obtain ⟨m, rfl⟩ := Nat.exists_eq_add_one.mpr hfuel
    refine ⟨tab, ?_, (Adds.refl tab).congr fun j => by simp⟩
    rw [chain_nil.mp hchain, buildLoop]
  | cons x l ih =>
    obtain ⟨m, rfl⟩ := Nat.exists_eq_add_one.mpr (Nat.zero_lt_of_lt hfuel)
    obtain ⟨hk, hl⟩ := Chains.chain_cons.mp hchain
    have hstart := (s.tbs x.1).bitmapStart_le x.2
    have hend := (s.tbs x.1).bitmapEnd_le x.2
    have hfit : (s.tbs x.1).bitmapStart x.2 +
        ((s.tbs x.1).bitmapEnd x.2 - (s.tbs x.1).bitmapStart x.2) ≤ 8 * tab.length := by
      rw [hlen]
      unfold targetPageSize at *
      omega
    obtain ⟨tab₁, hset, hadds⟩ := exists_setBits hfit
    obtain ⟨tab₂, hloop, hadds'⟩ :=
      ih hl (Nat.lt_of_succ_lt_succ hfuel) (hadds.length_eq.trans hlen)
    refine ⟨tab₂, ?_, (hadds.trans hadds').congr fun j => ?_⟩
    · rw [hk, buildLoop]
      simp only [hset, bind_some, hloop]
    · rw [exists_mem_cons_iff]
      refine or_congr_left ?_
      omega

/-- **`build_page_bitmap`** makes an exact bitmap. -/
theorem Indexed.exists_buildPageBitmap (hs : Indexed s hashLists pageLists) (page : ℕ) :
    ∃ b, s.buildPageBitmap page = some b ∧ s.BitmapExact page b := by
  obtain ⟨b, hbuild, hadds⟩ := exists_buildLoop (hs.page.chain page) (hs.pageLists_length page)
    (length_replicate (n := targetPageSize / 8) (a := (0 : UInt8)))
  refine ⟨b, hbuild, hadds.length_eq.trans length_replicate, fun j => ?_⟩
  rw [hadds.bit_iff, bit_replicate_zero]
  constructor
  · rintro (hfalse | ⟨x, hx, hj⟩)
    · cases hfalse
    · obtain ⟨hlive, hkey⟩ := hs.mem_pageLists.mp hx
      exact ⟨s.tbs x.1, ⟨x.1, hlive, rfl, x.2, hkey⟩, x.2, hkey, hj⟩
  · rintro ⟨_, ⟨i, hlive, rfl, -⟩, n, hn, hj⟩
    exact .inr ⟨(i, n), hs.mem_pageLists.mpr ⟨hlive, hn⟩, hj⟩

end TbTable

/-- The test on the bitmap: one of a few bits of a byte is set. -/
theorem exists_codeHit {b : List UInt8} {offset len : ℕ} (hlt : offset / 8 < b.length)
    (hfit : offset % 8 + len ≤ 8) :
    ∃ r, CodePages.codeHit b offset len = some r ∧
      (r = true ↔ ∃ j, offset ≤ j ∧ j < offset + len ∧ bit b j = true) := by
  refine ⟨_, by rw [CodePages.codeHit, getElem?_eq_getElem hlt, map_some], ?_⟩
  have hbit : ∀ k, (b[offset / 8].toNat >>> (offset % 8) &&& (2 ^ len - 1)).testBit k = true ↔
      k < len ∧ bit b (offset + k) = true := by
    intro k
    rw [Nat.testBit_and, Nat.testBit_shiftRight, Nat.testBit_two_pow_sub_one, Bool.and_eq_true,
      decide_eq_true_eq, and_comm]
    refine and_congr_right fun hk => ?_
    have hdiv : (offset + k) / 8 = offset / 8 := by omega
    have hmod : (offset + k) % 8 = offset % 8 + k := by omega
    rw [bit, hdiv, hmod, getElem?_eq_getElem hlt, getD_some]
  rw [bne_iff_ne]
  constructor
  · intro hne
    by_contra hnone
    refine hne (Nat.eq_of_testBit_eq fun k => ?_)
    rw [Nat.zero_testBit, Bool.eq_false_iff]
    intro hk
    obtain ⟨hlen, hset⟩ := (hbit k).mp hk
    exact hnone ⟨offset + k, Nat.le_add_right _ _, by omega, hset⟩
  · rintro ⟨j, hle, hj, hset⟩ hzero
    have hk := (hbit (j - offset)).mpr ⟨by omega, by rwa [Nat.add_sub_cancel' hle]⟩
    rw [hzero, Nat.zero_testBit] at hk
    cases hk

/-- The bits of a block on a page are the addresses of its code. -/
theorem TbFields.Sound.marks_iff_intersects {t : TbFields} (ht : t.Sound) {start len : ℕ}
    (hfit : start % targetPageSize + len ≤ targetPageSize) :
    (∃ j, start % targetPageSize ≤ j ∧ j < start % targetPageSize + len ∧
      t.Marks (start / targetPageSize) j) ↔ t.Intersects start (start + len) := by
  have hpage := Nat.div_add_mod' start targetPageSize
  rw [ht.intersects_iff]
  constructor
  · rintro ⟨j, hj, hj', n, hn, hfrom, hto⟩
    exact ⟨n, _, hn, j, hfrom, hto, by omega, by omega⟩
  · rintro ⟨n, p, hn, j, hfrom, hto, hstart, hstop⟩
    have hle := t.bitmapEnd_le n
    obtain rfl : p = start / targetPageSize := by
      unfold targetPageSize at *
      omega
    exact ⟨j, by omega, by omega, n, hn, hfrom, hto⟩

end Exact

/-! ### What changes the blocks of a page -/

namespace TbTable

variable {s s' s'' : TbTable} {hashLists : ℕ → List ℕ} {pageLists : ℕ → List PageNode} {t page : ℕ}
variable {z : CacheSize} {map : CodeMap} {pc csBase : UInt32} {flags : UInt64}

/-- Nothing happens to the blocks other than `t`. -/
structure Aside (s s' : TbTable) (t : ℕ) : Prop where
  tbs : ∀ u, u ≠ t → s'.tbs u = s.tbs u
  live : ∀ u, u ≠ t → (u ∈ s'.live ↔ u ∈ s.live)

theorem Aside.trans (h : Aside s s' t) (h' : Aside s' s'' t) : Aside s s'' t :=
  ⟨fun u hu => (h'.tbs u hu).trans (h.tbs u hu), fun u hu => (h'.live u hu).trans (h.live u hu)⟩

theorem aside_of_update {fields : TbFields} (htbs : s'.tbs = update s.tbs t fields)
    (hlive : s'.live = s.live) : Aside s s' t :=
  ⟨fun u hu => by rw [htbs, update_of_ne hu], fun u _ => by rw [hlive]⟩

theorem aside_tbLinkPage (s : TbTable) (t page : ℕ) (pc : UInt32) (physPage2 : Option ℕ)
    (hasJump : Fin 2 → Bool) : Aside s (s.tbLinkPage t (physPc page pc) physPage2 hasJump) t := by
  refine ⟨fun u hu => ?_, fun u hu => ?_⟩
  · rw [tbLinkPage_tbs, update_of_ne hu]
  · rw [tbLinkPage_live, Finset.mem_insert, or_iff_right hu]

theorem Invalidated.aside (h : Invalidated s t s') : Aside s s' t := by
  refine ⟨fun u _ => by rw [h.tbs], fun u hu => ?_⟩
  rw [h.live, Finset.mem_erase, and_iff_right hu]

/-- A page that the one block is not on, before and after, keeps its blocks. -/
theorem Aside.fieldsOn_eq (h : Aside s s' t)
    (hbefore : t ∈ s.live → ∀ n, (s.tbs t).pageAddr n ≠ some page)
    (hafter : t ∈ s'.live → ∀ n, (s'.tbs t).pageAddr n ≠ some page) :
    s'.fieldsOn page = s.fieldsOn page := by
  ext fields
  constructor
  · rintro ⟨u, hu, rfl, n, hn⟩
    have hne : u ≠ t := by
      rintro rfl
      exact hafter hu n hn
    exact ⟨u, (h.live u hne).mp hu, (h.tbs u hne).symm, n, hn⟩
  · rintro ⟨u, hu, rfl, n, hn⟩
    have hne : u ≠ t := by
      rintro rfl
      exact hbefore hu n hn
    exact ⟨u, (h.live u hne).mpr hu, h.tbs u hne, n, hn⟩

theorem fieldsOn_congr (htbs : s'.tbs = s.tbs) (hlive : s'.live = s.live) (page : ℕ) :
    s'.fieldsOn page = s.fieldsOn page := by
  rw [fieldsOn, htbs, hlive]
  rfl

/-- What `tb_gen_code` writes to if it need not flush: one block, which becomes live if it is
returned. -/
theorem Indexed.aside_tbGenCode (hs : Indexed s hashLists pageLists)
    {translation : Option (Translation pc)} {r : Option ℕ}
    (h : s.tbGenCode z map pc csBase flags translation = some (s', r))
    (halloc : (s.tbAlloc z pc).isSome) :
    ∃ t ∉ s.live, Aside s s' t ∧ ∀ u ∈ s'.live, u ∉ s.live → r = some t := by
  rcases tbGenCode_cases h with ⟨rfl, rfl⟩ | ⟨page, s₁, t, fields, ptr, -, hs₁, -, -, -, h⟩
  · exact ⟨s'.nbTbs, fun hmem => Nat.lt_irrefl _ (hs.allocated _ hmem), ⟨fun _ _ => rfl,
      fun _ _ => Iff.rfl⟩, fun u hu hnot => absurd hu hnot⟩
  obtain ⟨x, hx⟩ := isSome_iff_exists.mp halloc
  rw [TbTable.allocTb, hx] at hs₁
  obtain rfl : x = (s₁, t) := some.inj hs₁
  obtain ⟨-, hall, hlive₁⟩ := hs.tbAlloc hx
  have ht : t ∉ s.live := hlive₁ ▸ hall.notLive
  have haside₁ : Aside s s₁ t := by
    rw [TbTable.tbAlloc] at hx
    split at hx
    · cases hx
    cases hx
    exact aside_of_update rfl rfl
  have haside : Aside s { s₁.setTb t fields with codeGenPtr := ptr } t :=
    haside₁.trans (aside_of_update rfl rfl)
  rcases h with ⟨rfl, rfl⟩ | ⟨physPage2, hasJump, rfl, rfl, -⟩
  · exact ⟨t, ht, haside, fun u hu hnot => absurd (hlive₁ ▸ hu) hnot⟩
  · exact ⟨t, ht, haside.trans (aside_tbLinkPage ..), fun _ _ _ => rfl⟩

end TbTable

/-! ### Every state that can be reached -/

namespace CodePages

open TbTable

variable {s s' : CodePages} {t page : ℕ} {z : CacheSize} {map : CodeMap} {pc csBase : UInt32}
variable {flags : UInt64} {cpu : ℕ}

/-- The lists are exact, and so is every bitmap. -/
structure Inv (s : CodePages) : Prop where
  indexed : s.table.AllIndexed
  exact : ∀ page b, (s.pages page).codeBitmap = some b → s.table.BitmapExact page b

/-- A bitmap may go, and it may stay where the blocks stay. -/
theorem Inv.congr (hs : Inv s) (hindexed : s'.table.AllIndexed)
    (hkeep : ∀ page b, (s'.pages page).codeBitmap = some b →
      (s.pages page).codeBitmap = some b ∧ s'.table.fieldsOn page = s.table.fieldsOn page) :
    Inv s' := by
  refine ⟨hindexed, fun page b hb => ?_⟩
  obtain ⟨hb, hsame⟩ := hkeep page b hb
  rw [BitmapExact, hsame]
  exact hs.exact page b hb

theorem Inv.withTable (hs : Inv s) {table : TbTable} (hindexed : table.AllIndexed)
    (htbs : table.tbs = s.table.tbs) (hlive : table.live = s.table.live) :
    Inv { s with table := table } :=
  hs.congr hindexed fun page _ hb => ⟨hb, fieldsOn_congr htbs hlive page⟩

theorem inv_noBitmap {table : TbTable} (hindexed : table.AllIndexed) :
    Inv ⟨table, fun _ => noBitmap⟩ := ⟨hindexed, nofun⟩

theorem codeBitmap_invalidatePageBitmaps {pageAddr : Fin 2 → Option ℕ} {b : List UInt8}
    (h : ((s.invalidatePageBitmaps pageAddr).pages page).codeBitmap = some b) :
    (∀ n, pageAddr n ≠ some page) ∧ (s.pages page).codeBitmap = some b := by
  rw [invalidatePageBitmaps] at h
  dsimp only at h
  split at h
  · cases h
  next hnone => exact ⟨fun n hn => hnone ⟨n, hn⟩, h⟩

theorem Inv.invalidatePageBitmap (hs : Inv s) (page : ℕ) : Inv (s.invalidatePageBitmap page) := by
  refine hs.congr hs.indexed fun q b hb => ⟨?_, rfl⟩
  change (update s.pages page noBitmap q).codeBitmap = some b at hb
  by_cases hq : q = page
  · subst hq
    rw [update_self] at hb
    cases hb
  · rwa [update_of_ne hq] at hb

/-- **`tb_phys_invalidate`.** -/
theorem Inv.tbPhysInvalidate (hs : Inv s) (h : s.tbPhysInvalidate t = some s') : Inv s' := by
  obtain ⟨table, hrun, rfl⟩ := map_eq_some_iff.mp h
  obtain ⟨hashLists, pageLists, hindexed⟩ := hs.indexed
  obtain ⟨-, hinv, hindexed'⟩ := hindexed.of_tbPhysInvalidate hrun
  refine hs.congr ⟨_, _, hindexed'⟩ fun page b hb => ?_
  obtain ⟨hpage, hb⟩ := codeBitmap_invalidatePageBitmaps hb
  refine ⟨hb, hinv.aside.fieldsOn_eq (fun _ => hpage) fun _ => ?_⟩
  show ∀ n, (table.tbs t).pageAddr n ≠ some page
  rw [hinv.tbs]
  exact hpage

section

variable {translation : Option (Translation pc)} {r : Option ℕ} (hs : Inv s)
include hs

/-- **`tb_gen_code`.** -/
theorem Inv.tbGenCode (h : s.tbGenCode z map pc csBase flags translation = some (s', r)) :
    Inv s' ∧ s.table.tbGenCode z map pc csBase flags translation = some (s'.table, r) := by
  rw [CodePages.tbGenCode] at h
  split at h
  next hmap =>
    cases h
    refine ⟨hs, ?_⟩
    rw [TbTable.tbGenCode, hmap]
  next =>
    obtain ⟨⟨table, r'⟩, hgen, h⟩ := bind_eq_some_iff.mp h
    obtain ⟨hashLists, pageLists, hindexed⟩ := hs.indexed
    have hindexed' : table.AllIndexed := (hindexed.tbGenCode hgen).1
    dsimp only at h
    -- the bitmaps that are there were there before and are not those of the block
    have hkeep : ∀ page b, (s.allocPages z pc page).codeBitmap = some b →
        (∀ t, r' = some t → ∀ n, (table.tbs t).pageAddr n ≠ some page) →
        (s.pages page).codeBitmap = some b ∧ table.fieldsOn page = s.table.fieldsOn page := by
      intro page b hb hpage
      rw [allocPages] at hb
      split at hb
      next halloc =>
        obtain ⟨t, ht, haside, hnew⟩ := hindexed.aside_tbGenCode hgen halloc
        exact ⟨hb, haside.fieldsOn_eq (fun hlive => absurd hlive ht) fun hlive =>
          hpage t (hnew t hlive ht)⟩
      next => cases hb
    cases r' with
    | none =>
      cases h
      exact ⟨hs.congr hindexed' fun page b hb => hkeep page b hb (by intro t ht; cases ht), hgen⟩
    | some tb =>
      cases h
      refine ⟨hs.congr hindexed' fun page b hb => ?_, hgen⟩
      obtain ⟨hpage, hb⟩ := codeBitmap_invalidatePageBitmaps hb
      refine hkeep page b hb fun t ht => ?_
      cases ht
      exact hpage

/-- **`tb_find_slow`.** -/
theorem Inv.tbFindSlow (h : s.tbFindSlow z map cpu pc csBase flags translation = some (s', r)) :
    Inv s' := by
  -- the lists are as in the table alone, and that is exact
  have hindexed : ∀ {table r}, s.table.tbFindSlow z map cpu pc csBase flags translation =
      some (table, r) → table.AllIndexed := by
    intro table r hfind
    obtain ⟨hashLists, pageLists, hindexed⟩ := hs.indexed
    exact (hindexed.tbFindSlow hfind).1
  rw [CodePages.tbFindSlow] at h
  rw [TbTable.tbFindSlow] at hindexed
  cases hmap : map (virtPage pc) with
  | none =>
    rw [hmap] at h
    cases h
    exact hs
  | some physPage1 =>
    rw [hmap] at h hindexed
    obtain ⟨ptb1, hseek, h⟩ := bind_eq_some_iff.mp h
    simp only [hseek, bind_eq_bind, bind_some] at hindexed
    split at h
    next tb htb =>
      simp only [htb] at hindexed
      split at h
      next =>
        cases h
        exact hs
      next hwanted =>
        cases h
        rw [if_neg hwanted] at hindexed
        exact hs.withTable (hindexed rfl) (moveToFront_tbs ..) (moveToFront_live ..)
    next htb =>
      obtain ⟨⟨s₁, r₁⟩, hgen, h⟩ := bind_eq_some_iff.mp h
      obtain ⟨hs₁, htable⟩ := hs.tbGenCode hgen
      simp only [htb, htable, bind_some] at hindexed
      cases r₁ with
      | none =>
        cases h
        exact hs₁
      | some tb =>
        cases h
        exact hs₁.withTable (hindexed rfl) (moveToFront_tbs ..) (moveToFront_live ..)

theorem Inv.tbFindFast (h : s.tbFindFast z map cpu pc csBase flags translation = some (s', r)) :
    Inv s' := by
  rw [CodePages.tbFindFast] at h
  split at h
  · exact hs.tbFindSlow h
  · dsimp only at h
    split at h
    · exact hs.tbFindSlow h
    · obtain ⟨rfl, -⟩ := Prod.mk.injEq .. ▸ some.inj h
      exact hs

end

theorem Inv.invalidateLoop (hs : Inv s) {start stop fuel : ℕ} {currentTb : Option ℕ}
    {x : Option PageNode} (h : invalidateLoop start stop fuel s currentTb x = some s') :
    Inv s' := by
  induction fuel generalizing s currentTb x with
  | zero => cases h
  | succ fuel ih =>
    cases x with
    | none =>
      cases h
      exact hs
    | some x =>
      rw [CodePages.invalidateLoop] at h
      split at h
      · obtain ⟨s₁, hrun, h⟩ := bind_eq_some_iff.mp h
        obtain ⟨table, hint, h⟩ := bind_eq_some_iff.mp h
        have hs₁ := hs.tbPhysInvalidate hrun
        obtain ⟨hashLists, pageLists, hindexed⟩ := hs₁.indexed
        obtain ⟨hindexed', htbs, -, hlive⟩ := hindexed.cpuInterrupt hint
        exact ih (hs₁.withTable ⟨_, _, hindexed'⟩ htbs hlive) h
      · exact ih hs h

theorem Inv.countWrite (hs : Inv s) {isCpuWriteAccess : Bool}
    (h : s.countWrite page isCpuWriteAccess = some s') : Inv s' := by
  obtain ⟨hashLists, pageLists, hindexed⟩ := hs.indexed
  rw [CodePages.countWrite] at h
  split at h
  · cases h
    exact hs
  dsimp only at h
  split at h
  · obtain ⟨b, hbuild, rfl⟩ := map_eq_some_iff.mp h
    refine ⟨hs.indexed, fun q b' hb' => ?_⟩
    by_cases hq : q = page
    · subst hq
      simp only [update_self, some.injEq] at hb'
      subst hb'
      obtain ⟨b', hbuild', hexact⟩ := hindexed.exists_buildPageBitmap q
      obtain rfl : b' = b := some.inj (hbuild'.symm.trans hbuild)
      exact hexact
    · simp only [update_of_ne hq] at hb'
      exact hs.exact q b' hb'
  · cases h
    refine hs.congr hs.indexed fun q b hb => ⟨?_, rfl⟩
    by_cases hq : q = page
    · subst hq
      simp only [update_self, reduceCtorEq] at hb
    · simpa only [update_of_ne hq] using hb

theorem Inv.tbInvalidatePhysPageRange (hs : Inv s) {currentTb : Option ℕ} {start stop : ℕ}
    {isCpuWriteAccess : Bool}
    (h : s.tbInvalidatePhysPageRange currentTb start stop isCpuWriteAccess = some s') : Inv s' := by
  obtain ⟨s₁, hcount, h⟩ := bind_eq_some_iff.mp h
  obtain ⟨s₂, hloop, h⟩ := bind_eq_some_iff.mp h
  have hs₂ := (hs.countWrite hcount).invalidateLoop hloop
  split at h
  · cases h
    exact hs₂.invalidatePageBitmap _
  · cases h
    exact hs₂

theorem Inv.tbInvalidatePhysPageFast (hs : Inv s) {currentTb : Option ℕ} {start len : ℕ}
    (h : s.tbInvalidatePhysPageFast currentTb start len = some s') : Inv s' := by
  obtain ⟨r, -, h⟩ := bind_eq_some_iff.mp h
  cases r with
  | false =>
    cases h
    exact hs
  | true => exact hs.tbInvalidatePhysPageRange h

/-- An operation on the table that leaves the blocks alone. -/
theorem Inv.tbStep (hs : Inv s) {op : TbOp} (h : (tbStep z s.table op).map (⟨·, s.pages⟩) = some s')
    (hsame : ∀ table, Exec.tbStep z s.table op = some table →
      table.tbs = s.table.tbs ∧ table.live = s.table.live) : Inv s' := by
  obtain ⟨table, hstep, rfl⟩ := map_eq_some_iff.mp h
  exact hs.withTable (hs.indexed.step hstep) (hsame table hstep).1 (hsame table hstep).2

/-- **Every operation leaves the bitmaps exact.** -/
theorem Inv.step (hs : Inv s) {op : CodeOp} (h : codeStep z s op = some s') : Inv s' := by
  obtain ⟨hashLists, pageLists, hindexed⟩ := hs.indexed
  cases op with
  | tbGenCode map pc csBase flags tr =>
    obtain ⟨⟨s', r⟩, hrun, rfl⟩ := map_eq_some_iff.mp h
    exact (hs.tbGenCode hrun).1
  | tbFindSlow map cpu pc csBase flags tr =>
    obtain ⟨⟨s', r⟩, hrun, rfl⟩ := map_eq_some_iff.mp h
    exact hs.tbFindSlow hrun
  | tbFindFast map cpu pc csBase flags tr =>
    obtain ⟨⟨s', r⟩, hrun, rfl⟩ := map_eq_some_iff.mp h
    exact hs.tbFindFast hrun
  | tbPhysInvalidate tb => exact hs.tbPhysInvalidate h
  | tbInvalidatePhysPageRange currentTb start stop isCpuWriteAccess =>
    exact hs.tbInvalidatePhysPageRange h
  | tbInvalidatePhysPageFast currentTb start len => exact hs.tbInvalidatePhysPageFast h
  | tbFlush =>
    obtain ⟨table, hflush, rfl⟩ := map_eq_some_iff.mp h
    exact inv_noBitmap ⟨_, _, indexed_of_tbFlush hflush⟩
  | tbFree tb =>
    refine hs.tbStep h fun table hstep => ?_
    rw [Exec.tbStep] at hstep
    split at hstep
    · cases hstep
    cases hstep
    rw [TbTable.tbFree]
    split <;> exact ⟨rfl, rfl⟩
  | tlbFlush cpu | tlbFlushJmpCache cpu addr =>
    rw [codeStep] at h
    refine hs.tbStep h fun table hstep => ?_
    cases hstep
    exact ⟨rfl, rfl⟩
  | tbAddJump tb n tbNext =>
    refine hs.tbStep h fun table hstep => ?_
    obtain ⟨jumps, hjumps, rfl⟩ := map_eq_some_iff.mp hstep
    exact ⟨rfl, live_of_tbAddJump hjumps⟩
  | tbResetJumpRecursive tb =>
    refine hs.tbStep h fun table hstep => ?_
    obtain ⟨jumps, hjumps, rfl⟩ := map_eq_some_iff.mp hstep
    exact ⟨rfl, hindexed.jumps.live_of_tbResetJumpRecursive hjumps⟩

end CodePages

section Reachable

open CodePages TbTable

variable {z : CacheSize} {tbs : ℕ → TbFields} {hashNext : ℕ → Option ℕ}
variable {pageNext : PageNode → Option PageNode} {jumps : JmpState} {ops : List CodeOp}
variable {s : CodePages}

theorem inv_of_run
    (h : Runs.run (codeStep z) (initCodePages tbs hashNext pageNext jumps) ops = some s) :
    s.Inv := by
  refine Runs.run_invariant (fun s op s' hs hstep => hs.step hstep) ?_ h
  exact inv_noBitmap ⟨_, _, indexed_of_live_eq_empty rfl (fun _ => rfl) (fun _ => rfl)
    fun _ _ => rfl⟩

/-- The writes of the memory functions. -/
def AlignedWrite (start len : ℕ) : Prop := (len = 1 ∨ len = 2 ∨ len = 4 ∨ len = 8) ∧ len ∣ start

theorem AlignedWrite.fits {start len : ℕ} (h : AlignedWrite start len) :
    start % targetPageSize % 8 + len ≤ 8 ∧ start % targetPageSize + len ≤ targetPageSize := by
  obtain ⟨hlen, hdvd⟩ := h
  unfold targetPageSize
  rcases hlen with rfl | rfl | rfl | rfl <;> omega

/-- **The bitmap tells what is code.** In every state that can be reached, let a page have a bitmap.
Then it is the one that `build_page_bitmap` makes of the current list of the page, it has the bits
of all blocks on the list, and for every aligned write to the page `tb_invalidate_phys_page_fast`
calls `tb_invalidate_phys_page_range` if and only if code of one of them is written to. -/
theorem code_bitmap_fast_path
    (h : Runs.run (codeStep z) (initCodePages tbs hashNext pageNext jumps) ops = some s)
    {page : ℕ} {b : List UInt8} (hb : (s.pages page).codeBitmap = some b) :
    s.table.buildPageBitmap page = some b ∧
      (∀ x, s.table.InPage page x → ∀ i < (s.table.tbs x.1).size, ∀ a,
        (s.table.tbs x.1).byteAddr i = some a → a / targetPageSize = page →
          bit b (a % targetPageSize) = true) ∧
      ∀ start len, start / targetPageSize = page → AlignedWrite start len →
        ∃ r, s.callsRange start len = some r ∧
          (r = true ↔ ∃ x, s.table.InPage page x ∧
            (s.table.tbs x.1).Intersects start (start + len)) := by
  have hs := inv_of_run h
  have hexact := hs.exact page b hb
  obtain ⟨hashLists, pageLists, hindexed⟩ := hs.indexed
  -- a block that has code in a range of the page is on its list
  have hbits : ∀ start len, start / targetPageSize = page →
      start % targetPageSize + len ≤ targetPageSize →
      ((∃ j, start % targetPageSize ≤ j ∧ j < start % targetPageSize + len ∧ bit b j = true) ↔
        ∃ x, s.table.InPage page x ∧ (s.table.tbs x.1).Intersects start (start + len)) := by
    intro start len hpage hfit
    subst hpage
    constructor
    · rintro ⟨j, hj, hj', hset⟩
      obtain ⟨_, ⟨t, ht, rfl, -⟩, n, hn, hmark⟩ := (hexact.2 j).mp hset
      refine ⟨(t, n), (hindexed.inPage_iff _ _).mpr ⟨ht, hn⟩, ?_⟩
      exact ((hindexed.sound t ht).marks_iff_intersects hfit).mp ⟨j, hj, hj', n, hn, hmark⟩
    · rintro ⟨x, hx, hint⟩
      obtain ⟨ht, hn⟩ := (hindexed.inPage_iff _ _).mp hx
      obtain ⟨j, hj, hj', hmark⟩ := ((hindexed.sound x.1 ht).marks_iff_intersects hfit).mpr hint
      exact ⟨j, hj, hj', (hexact.2 j).mpr ⟨_, ⟨x.1, ht, rfl, x.2, hn⟩, hmark⟩⟩
  refine ⟨?_, fun x hx i hi a ha hpage => ?_, fun start len hpage hwrite => ?_⟩
  · obtain ⟨b', hbuild, hexact'⟩ := hindexed.exists_buildPageBitmap page
    rw [hbuild, hexact'.unique hexact]
  · have hlt : a % targetPageSize + 1 ≤ targetPageSize := Nat.mod_lt a (by decide)
    obtain ⟨j, hj, hj', hset⟩ := (hbits a 1 hpage hlt).mpr ⟨x, hx, i, hi, a, ha, by omega⟩
    obtain rfl : j = a % targetPageSize := by omega
    exact hset
  · obtain ⟨hbyte, hfit⟩ := hwrite.fits
    have hlt : start % targetPageSize / 8 < b.length := by
      rw [hexact.1]
      unfold targetPageSize
      omega
    obtain ⟨r, hhit, hr⟩ := exists_codeHit hlt hbyte
    refine ⟨r, ?_, hr.trans (hbits start len hpage hfit)⟩
    rw [callsRange, hpage, hb]
    exact hhit

/-- A run from memory without contents, with room for a block. -/
def runPages (ops : List CodeOp) : Option CodePages :=
  Runs.run (codeStep ⟨1, 64, 128⟩) (initCodePages (fun _ => ⟨0, 0, 0, 0, fun _ => none, 0⟩)
    (fun _ => none) (fun _ => none) ⟨fun _ => none, fun _ _ => .absent, ∅⟩) ops

/-- A block on two pages. The tenth write to the first of them makes a bitmap, and a write to its
last word finds the block. -/
theorem code_bitmap_of_tenth_write :
    ∃ s b, runPages (.tbGenCode some 1022 0 0
        (some ⟨4, 16, fun _ => false, by decide, by decide⟩) ::
          replicate 10 (.tbInvalidatePhysPageFast none 0 4)) = some s ∧
      (s.pages 0).codeBitmap = some b ∧ s.table.buildPageBitmap 0 = some b ∧
      s.callsRange 1016 4 = some false ∧ s.callsRange 1020 4 = some true ∧
      ∃ x, s.table.InPage 0 x ∧ (s.table.tbs x.1).Intersects 1020 1024 := by
  simp only [exists_and_left]
  refine Runs.exists_of_map
    (fun s => ((s.pages 0).codeBitmap.isSome, s.callsRange 1016 4, s.callsRange 1020 4))
    (true, some false, some true) (by decide +kernel) fun s hs heq => ?_
  simp only [Prod.mk.injEq] at heq
  obtain ⟨hsome, hmiss, hhit⟩ := heq
  obtain ⟨b, hb⟩ := isSome_iff_exists.mp hsome
  obtain ⟨hbuild, -, hfast⟩ := code_bitmap_fast_path hs hb
  obtain ⟨r, hr, hiff⟩ := hfast 1020 4 rfl ⟨by decide, by decide⟩
  obtain rfl : true = r := some.inj (hhit.symm.trans hr)
  exact ⟨b, hb, hbuild, hmiss, hhit, hiff.mp rfl⟩

end Reachable

end VariabilityTestbed.Exec

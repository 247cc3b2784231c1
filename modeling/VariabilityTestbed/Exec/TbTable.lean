import VariabilityTestbed.Exec.Chaining
import VariabilityTestbed.Lib.Chains
import VariabilityTestbed.Memory.PhysPages
import VariabilityTestbed.Translate.CodeCache

/-!
# The table of translated blocks

A block is found in three ways. `tb_phys_hash` is a table of lists that leads from a physical
address to the blocks which start there. Each physical page has a list of the blocks with code on
it; a block with code on two pages is on both lists, and each pointer of such a list says in its low
bits which of the two fields `page_next` the list continues in. `tb_jmp_cache` leads from a virtual
address to a block, for each CPU, and may be forgotten at any time.

The lists of jumps between blocks are part of the table as well; they are those of `JmpState`.

## Pointers into the table

`tb_find_slow` keeps a pointer `ptb1` to the cell where its search ended, generates a block if there
was none, and then uses the pointer again. `HashCell` is what it can point to: an entry of
`tb_phys_hash` or the field of a block.

## Memory

The array of blocks is never cleared, and a list that is dropped leaves its fields as they are. The
descriptors of pages are allocated when they are first needed, with an empty list; a page without
descriptor is a page with an empty list here.
-/

namespace VariabilityTestbed.Exec

open Chains Function Memory Translate

local instance neZero_two : NeZero 2 := inferInstance

/-! ### Addresses -/

/-- `tb_phys_hash_func`. -/
def tbPhysHashFunc (physPc : ℕ) : ℕ := (physPc >>> 2) &&& (2 ^ 15 - 1)

/-- `TB_JMP_PAGE_BITS`. -/
def tbJmpPageBits : UInt32 := 6

/-- The value `tmp` of both hash functions for the jump cache. -/
def tbJmpCacheMix (pc : UInt32) : UInt32 := pc ^^^ (pc >>> (10 - tbJmpPageBits))

/-- `tb_jmp_cache_hash_page`. -/
def tbJmpCacheHashPage (pc : UInt32) : UInt32 :=
  (tbJmpCacheMix pc >>> (10 - tbJmpPageBits)) &&& 4032

/-- `tb_jmp_cache_hash_func`. -/
def tbJmpCacheHashFunc (pc : UInt32) : UInt32 := tbJmpCacheHashPage pc ||| (tbJmpCacheMix pc &&& 63)

/-- `get_page_addr_code`: the physical page of a virtual page, or an exception. -/
abbrev CodeMap := ℕ → Option ℕ

/-- The virtual page of an address. -/
def virtPage (addr : UInt32) : ℕ := addr.toNat / targetPageSize

/-- `addr & ~TARGET_PAGE_MASK`. -/
def pageOffset (addr : UInt32) : ℕ := addr.toNat % targetPageSize

/-- `(pc & TARGET_PAGE_MASK) + TARGET_PAGE_SIZE`, as a page. -/
def virtPageAfter (pc : UInt32) : ℕ := (virtPage pc + 1) % (2 ^ 32 / targetPageSize)

/-! ### Blocks and lists -/

/-- The fields of a `TranslationBlock` that lookup and invalidation read. -/
structure TbFields where
  pc : UInt32
  csBase : UInt32
  flags : UInt64
  size : ℕ
  /-- `page_addr[n] >> TARGET_PAGE_BITS`, and `none` for `-1`. -/
  pageAddr : Fin 2 → Option ℕ
  /-- `tc_ptr - code_gen_buffer`. -/
  tcPtr : ℕ

/-- A cell on the lists of `tb_phys_hash`. -/
inductive HashCell where
  /-- `tb_phys_hash[h]`. -/
  | head (h : ℕ)
  /-- The field `phys_hash_next`. -/
  | next (tb : ℕ)
  deriving DecidableEq, Repr

/-- A tagged pointer on the list of a page: a block, and which of its pages this is. -/
abbrev PageNode := ℕ × Fin 2

/-- A cell on the lists of pages. -/
inductive PageCell where
  /-- The field `first_tb` of a page. -/
  | first (page : ℕ)
  /-- The field `page_next[n]`. -/
  | next (x : PageNode)
  deriving DecidableEq, Repr

/-- The blocks and all their lists. -/
structure TbTable where
  tbs : ℕ → TbFields
  nbTbs : ℕ
  /-- `code_gen_ptr - code_gen_buffer`. -/
  codeGenPtr : ℕ
  hashCell : HashCell → Option ℕ
  pageCell : PageCell → Option PageNode
  /-- `tb_jmp_cache`, for each CPU. -/
  jmpCache : ℕ → UInt32 → Option ℕ
  jumps : JmpState

/-- What translation from `pc` gives: the number of bytes that were translated, the size of the host
code, and the jumps in it. The loop goes on while the next instruction is on the first page, so only
the last instruction, of at most 4 bytes, can reach over its end. Nothing at all is translated at
the addresses of exception returns, which are not the first on their page. -/
structure Translation (pc : UInt32) where
  size : ℕ
  codeGenSize : ℕ
  hasJump : Fin 2 → Bool
  size_le : pageOffset pc + size ≤ targetPageSize + 3
  size_pos : pageOffset pc = 0 → 0 < size

namespace TbTable

/-- The blocks that have been linked and not been invalidated or flushed. -/
def live (s : TbTable) : Finset ℕ := s.jumps.live

/-- How long a loop over the lists can be. -/
def bound (s : TbTable) : ℕ := s.jumps.bound

/-- `tb->page_addr[0] + (tb->pc & ~TARGET_PAGE_MASK)`, from the page. -/
def physPc (page : ℕ) (pc : UInt32) : ℕ := page * targetPageSize + pageOffset pc

/-! ### The code -/

/-- Write fields of a block. -/
def setTb (s : TbTable) (tb : ℕ) (t : TbFields) : TbTable :=
  { s with tbs := update s.tbs tb t }

/-- `tb_alloc`. -/
def tbAlloc (z : CacheSize) (s : TbTable) (pc : UInt32) : Option (TbTable × ℕ) :=
  if s.nbTbs ≥ z.maxBlocks ∨ s.codeGenPtr ≥ z.bufferMaxSize then none
  else some ({ s.setTb s.nbTbs { s.tbs s.nbTbs with pc := pc } with nbTbs := s.nbTbs + 1 }, s.nbTbs)

/-- `tb_flush`, with its check for an overrun buffer. -/
def tbFlush (z : CacheSize) (s : TbTable) : Option TbTable :=
  if s.codeGenPtr > z.bufferSize then none
  else some { s with
    nbTbs := 0
    codeGenPtr := 0
    hashCell := fun
      | .head _ => none
      | .next tb => s.hashCell (.next tb)
    pageCell := fun
      | .first _ => none
      | .next x => s.pageCell (.next x)
    jmpCache := fun _ _ => none
    jumps := { s.jumps with live := ∅ } }

/-- `tb_free`. -/
def tbFree (s : TbTable) (tb : ℕ) : TbTable :=
  if 0 < s.nbTbs ∧ tb = s.nbTbs - 1 then
    { s with codeGenPtr := (s.tbs tb).tcPtr, nbTbs := s.nbTbs - 1 }
  else s

/-- `tb_alloc_page`. -/
def tbAllocPage (s : TbTable) (tb : ℕ) (n : Fin 2) (page : ℕ) : TbTable :=
  { s.setTb tb { s.tbs tb with
      pageAddr := update (s.tbs tb).pageAddr n (some page) } with
    pageCell := update (update s.pageCell (.next (tb, n))
      (s.pageCell (.first page))) (.first page) (some (tb, n)) }

/-- `tb_link_page`. -/
def tbLinkPage (s : TbTable) (tb physPc : ℕ) (physPage2 : Option ℕ) (hasJump : Fin 2 → Bool) :
    TbTable :=
  let h := tbPhysHashFunc physPc
  let s := { s with
    hashCell := update (update s.hashCell (.next tb) (s.hashCell (.head h)))
      (.head h) (some tb) }
  let s := s.tbAllocPage tb 0 (physPc / targetPageSize)
  let s :=
    match physPage2 with
    | some page => s.tbAllocPage tb 1 page
    | none =>
      s.setTb tb { s.tbs tb with pageAddr := update (s.tbs tb).pageAddr 1 none }
  { s with jumps := Exec.tbLinkPage s.jumps tb hasJump }

/-- The allocation in `tb_gen_code`: flush when there is no room. -/
def allocTb (z : CacheSize) (s : TbTable) (pc : UInt32) : Option (TbTable × ℕ) :=
  match s.tbAlloc z pc with
  | some r => some r
  | none => (s.tbFlush z).bind fun s => s.tbAlloc z pc

/-- `tb_gen_code`. Besides the new table it gives the block, or `none` when there was an exception:
in the lookup of the first page, in the translation or in the lookup of the second page. -/
def tbGenCode (z : CacheSize) (map : CodeMap) (s : TbTable) (pc csBase : UInt32) (flags : UInt64)
    (translation : Option (Translation pc)) : Option (TbTable × Option ℕ) :=
  match map (virtPage pc) with
  | none => some (s, none)
  | some page => do
    let (s, tb) ← s.allocTb z pc
    let s := s.setTb tb { s.tbs tb with tcPtr := s.codeGenPtr, csBase := csBase, flags := flags }
    match translation with
    | none => some (s, none)
    | some tr =>
      let s := { s.setTb tb { s.tbs tb with size := tr.size } with
        codeGenPtr := codeGenAlign (s.codeGenPtr + tr.codeGenSize) }
      let virtPage2 := virtPage (pc + UInt32.ofNat tr.size - 1)
      if virtPage pc = virtPage2 then
        some (s.tbLinkPage tb (physPc page pc) none tr.hasJump, some tb)
      else
        match map virtPage2 with
        | none => some (s, none)
        | some page2 => some (s.tbLinkPage tb (physPc page pc) (some page2) tr.hasJump, some tb)

/-- The test in the loop of `tb_find_slow`: whether the block is the one looked for, or `none` when
the lookup of the second page raises an exception. -/
def isWanted (map : CodeMap) (s : TbTable) (pc csBase : UInt32) (flags : UInt64) (physPage1 : ℕ)
    (tb : ℕ) : Option Bool :=
  let t := s.tbs tb
  if t.pc = pc ∧ t.pageAddr 0 = some physPage1 ∧ t.csBase = csBase ∧ t.flags = flags then
    match t.pageAddr 1 with
    | none => some true
    | some page2 => (map (virtPageAfter pc)).map fun physPage2 => page2 == physPage2
  else some false

/-- The assignments behind the label `found` that move a block to the head of its list. -/
def moveToFront (s : TbTable) (ptb1 : HashCell) (h tb : ℕ) : TbTable :=
  if s.hashCell ptb1 = none then s
  else
    let cell := update s.hashCell ptb1 (s.hashCell (.next tb))
    let cell := update cell (.next tb) (cell (.head h))
    { s with hashCell := update cell (.head h) (some tb) }

/-- `env->tb_jmp_cache[tb_jmp_cache_hash_func(pc)] = tb`. -/
def setJmpCache (s : TbTable) (cpu : ℕ) (pc : UInt32) (tb : ℕ) : TbTable :=
  { s with
    jmpCache := update s.jmpCache cpu
      (update (s.jmpCache cpu) (tbJmpCacheHashFunc pc) (some tb)) }

/-- `tb_find_slow`, with the table and the block, or `none` when there was an exception. -/
def tbFindSlow (z : CacheSize) (map : CodeMap) (s : TbTable) (cpu : ℕ) (pc csBase : UInt32)
    (flags : UInt64) (translation : Option (Translation pc)) : Option (TbTable × Option ℕ) :=
  match map (virtPage pc) with
  | none => some (s, none)
  | some physPage1 => do
    let h := tbPhysHashFunc (physPc physPage1 pc)
    let ptb1 ← seek s.hashCell .next
      (fun tb => s.isWanted map pc csBase flags physPage1 tb != some false) s.bound (.head h)
    match s.hashCell ptb1 with
    | some tb =>
      if s.isWanted map pc csBase flags physPage1 tb = none then some (s, none)
      else some ((s.moveToFront ptb1 h tb).setJmpCache cpu pc tb, some tb)
    | none =>
      let (s, r) ← s.tbGenCode z map pc csBase flags translation
      match r with
      | none => some (s, none)
      | some tb => some ((s.moveToFront ptb1 h tb).setJmpCache cpu pc tb, some tb)

/-- `tb_find_fast`, from the state of the CPU. -/
def tbFindFast (z : CacheSize) (map : CodeMap) (s : TbTable) (cpu : ℕ) (pc csBase : UInt32)
    (flags : UInt64) (translation : Option (Translation pc)) : Option (TbTable × Option ℕ) :=
  match s.jmpCache cpu (tbJmpCacheHashFunc pc) with
  | none => s.tbFindSlow z map cpu pc csBase flags translation
  | some tb =>
    let t := s.tbs tb
    if t.pc ≠ pc ∨ t.csBase ≠ csBase ∨ t.flags ≠ flags then
      s.tbFindSlow z map cpu pc csBase flags translation
    else some (s, some tb)

/-- `tb_remove` on a list of `tb_phys_hash`. It does not expect the end of the list. -/
def tbRemove (s : TbTable) (h tb : ℕ) : Option TbTable := do
  let ptb ← seek s.hashCell .next (· == tb) s.bound (.head h)
  let tb1 ← s.hashCell ptb
  return { s with hashCell := update s.hashCell ptb (s.hashCell (.next tb1)) }

/-- `tb_page_remove`. It does not expect the end of the list, either. -/
def tbPageRemove (s : TbTable) (page tb : ℕ) : Option TbTable := do
  let ptb ← seek s.pageCell .next (fun x => x.1 == tb) s.bound (.first page)
  let x ← s.pageCell ptb
  return { s with pageCell := update s.pageCell ptb (s.pageCell (.next x)) }

/-- The removal from the list of one of the pages in `tb_phys_invalidate`. -/
def tbPageRemoveAt (s : TbTable) (tb : ℕ) (n : Fin 2) : Option TbTable :=
  match (s.tbs tb).pageAddr n with
  | none => some s
  | some page => s.tbPageRemove page tb

/-- The loop of `tb_phys_invalidate` over the CPUs. -/
def clearJmpCache (s : TbTable) (tb : ℕ) : TbTable :=
  { s with
    jmpCache := fun cpu h =>
      if h = tbJmpCacheHashFunc (s.tbs tb).pc ∧ s.jmpCache cpu h = some tb then none
      else s.jmpCache cpu h }

/-- `tb_phys_invalidate(tb, -1)`. -/
def tbPhysInvalidate (s : TbTable) (tb : ℕ) : Option TbTable := do
  let page ← (s.tbs tb).pageAddr 0
  let s ← s.tbRemove (tbPhysHashFunc (physPc page (s.tbs tb).pc)) tb
  let s ← s.tbPageRemoveAt tb 0
  let s ← s.tbPageRemoveAt tb 1
  let s := s.clearJmpCache tb
  let jumps ← Exec.tbPhysInvalidate s.jumps tb
  return { s with jumps := jumps }

/-- `cpu_interrupt` for a CPU whose `current_tb` is the block, or `NULL`. -/
def cpuInterrupt (s : TbTable) (currentTb : Option ℕ) : Option TbTable :=
  match currentTb with
  | none => some s
  | some tb =>
    (jmpStep s.jumps (.tbResetJumpRecursive tb)).map fun jumps => { s with jumps := jumps }

/-- `tb_start`, the address of the code of a block on the page that a list is for. -/
def tbStart (s : TbTable) (x : PageNode) (page : ℕ) : ℕ :=
  if x.2 = 0 then physPc page (s.tbs x.1).pc else page * targetPageSize

/-- `tb_end`. -/
def tbEnd (s : TbTable) (x : PageNode) (page : ℕ) : ℕ :=
  if x.2 = 0 then s.tbStart x page + (s.tbs x.1).size
  else s.tbStart x page + (pageOffset (s.tbs x.1).pc + (s.tbs x.1).size) % targetPageSize

/-- The test of `tb_invalidate_phys_page_range` for a pointer of a list. -/
def overlaps (s : TbTable) (start stop : ℕ) (x : PageNode) : Bool :=
  match (s.tbs x.1).pageAddr x.2 with
  | none => false
  | some page => !(s.tbEnd x page ≤ start || s.tbStart x page ≥ stop)

/-- The loop of `tb_invalidate_phys_page_range`. The first block that is invalidated lets a pending
interrupt unchain `currentTb`, and `current_tb` is `NULL` afterwards. -/
def invalidateLoop (start stop : ℕ) : ℕ → TbTable → Option ℕ → Option PageNode → Option TbTable
  | 0, _, _, _ => none
  | _ + 1, s, _, none => some s
  | fuel + 1, s, currentTb, some x =>
    let tbNext := s.pageCell (.next x)
    if s.overlaps start stop x then do
      let s ← s.tbPhysInvalidate x.1
      let s ← s.cpuInterrupt currentTb
      invalidateLoop start stop fuel s none tbNext
    else invalidateLoop start stop fuel s currentTb tbNext

/-- `tb_invalidate_phys_page_range(start, stop, 0)`. `currentTb` is `current_tb` of the CPU when
it has a pending interrupt. -/
def tbInvalidatePhysPageRange (s : TbTable) (currentTb : Option ℕ) (start stop : ℕ) :
    Option TbTable :=
  invalidateLoop start stop s.bound s currentTb (s.pageCell (.first (start / targetPageSize)))

/-- `tlb_flush`, as far as it concerns blocks. -/
def tlbFlush (s : TbTable) (cpu : ℕ) : TbTable :=
  { s with jmpCache := update s.jmpCache cpu fun _ => none }

/-- `tlb_flush_jmp_cache`. -/
def tlbFlushJmpCache (s : TbTable) (cpu : ℕ) (addr : UInt32) : TbTable :=
  let cleared (i h : UInt32) : Bool := i ≤ h && h < i + 64
  { s with
    jmpCache := update s.jmpCache cpu fun h =>
      if cleared (tbJmpCacheHashPage (addr - 1024)) h || cleared (tbJmpCacheHashPage addr) h then
        none
      else s.jmpCache cpu h }

end TbTable

/-! ### Operations -/

/-- What happens to the table. -/
inductive TbOp where
  | tbGenCode (map : CodeMap) (pc csBase : UInt32) (flags : UInt64)
    (translation : Option (Translation pc))
  | tbFindSlow (map : CodeMap) (cpu : ℕ) (pc csBase : UInt32) (flags : UInt64)
    (translation : Option (Translation pc))
  | tbFindFast (map : CodeMap) (cpu : ℕ) (pc csBase : UInt32) (flags : UInt64)
    (translation : Option (Translation pc))
  | tbPhysInvalidate (tb : ℕ)
  | tbInvalidatePhysPageRange (currentTb : Option ℕ) (start stop : ℕ)
  | tbFree (tb : ℕ)
  | tbFlush
  | tlbFlush (cpu : ℕ)
  | tlbFlushJmpCache (cpu : ℕ) (addr : UInt32)
  | tbAddJump (tb : ℕ) (n : Fin 2) (tbNext : ℕ)
  | tbResetJumpRecursive (tb : ℕ)

/-- One operation. `tb_free` comes after `tb_phys_invalidate`; it is not called for a block that is
still in use. -/
def tbStep (z : CacheSize) (s : TbTable) : TbOp → Option TbTable
  | .tbGenCode map pc csBase flags tr => (s.tbGenCode z map pc csBase flags tr).map (·.1)
  | .tbFindSlow map cpu pc csBase flags tr => (s.tbFindSlow z map cpu pc csBase flags tr).map (·.1)
  | .tbFindFast map cpu pc csBase flags tr => (s.tbFindFast z map cpu pc csBase flags tr).map (·.1)
  | .tbPhysInvalidate tb => s.tbPhysInvalidate tb
  | .tbInvalidatePhysPageRange currentTb start stop =>
    s.tbInvalidatePhysPageRange currentTb start stop
  | .tbFree tb => if tb ∈ s.live then none else some (s.tbFree tb)
  | .tbFlush => s.tbFlush z
  | .tlbFlush cpu => some (s.tlbFlush cpu)
  | .tlbFlushJmpCache cpu addr => some (s.tlbFlushJmpCache cpu addr)
  | .tbAddJump tb n tbNext =>
    (jmpStep s.jumps (.tbAddJump tb n tbNext)).map fun jumps => { s with jumps := jumps }
  | .tbResetJumpRecursive tb =>
    (jmpStep s.jumps (.tbResetJumpRecursive tb)).map fun jumps => { s with jumps := jumps }

/-- Program start: the tables are zero, and the array of blocks has any contents. -/
def initTbTable (tbs : ℕ → TbFields) (hashNext : ℕ → Option ℕ)
    (pageNext : PageNode → Option PageNode) (jumps : JmpState) : TbTable where
  tbs := tbs
  nbTbs := 0
  codeGenPtr := 0
  hashCell := fun
    | .head _ => none
    | .next tb => hashNext tb
  pageCell := fun
    | .first _ => none
    | .next x => pageNext x
  jmpCache := fun _ _ => none
  jumps := initJmpState jumps.cell jumps.target

/-! ### The cache of translations -/

/-- The table and a `CodeCache` are two views of one array of blocks. -/
structure SameArray (c : CodeCache) (s : TbTable) : Prop where
  nbTbs : s.nbTbs = c.nbTbs
  codeGenPtr : s.codeGenPtr = c.codeGenPtr
  pc : ∀ i, (s.tbs i).pc = (c.tbs i).header.pc
  tcPtr : ∀ i, (s.tbs i).tcPtr = (c.tbs i).tcPtr

namespace SameArray

variable {z : CacheSize} {c c' : CodeCache} {s : TbTable}

/-- Linking a block writes nothing that the cache has. -/
theorem tbLinkPage (h : SameArray c s) (i physPc : ℕ) (physPage2 : Option ℕ)
    (hasJump : Fin 2 → Bool) :
    SameArray c (s.tbLinkPage i physPc physPage2 hasJump) := by
  refine ⟨?_, ?_, fun j => ?_, fun j => ?_⟩ <;> cases physPage2
  case refine_1.none | refine_1.some => exact h.nbTbs
  case refine_2.none | refine_2.some => exact h.codeGenPtr
  all_goals
    by_cases hj : j = i <;>
      simp [TbTable.tbLinkPage, TbTable.tbAllocPage, TbTable.setTb, hj, h.pc, h.tcPtr]

theorem tbAlloc (h : SameArray c s) (pc : UInt32) :
    Option.Rel (fun r q => SameArray r.1 q.1 ∧ q.2 = r.2 ∧ (q.1.tbs q.2).pc = pc)
      (Translate.tbAlloc z c pc) (s.tbAlloc z pc) := by
  simp only [Translate.tbAlloc, TbTable.tbAlloc, CodeCache.full, h.nbTbs, h.codeGenPtr,
    Bool.or_eq_true, decide_eq_true_eq]
  split_ifs
  · exact .none
  · refine .some ⟨⟨rfl, h.codeGenPtr, fun i => ?_, fun i => ?_⟩, rfl, by simp [TbTable.setTb]⟩ <;>
      by_cases hi : i = c.nbTbs <;> simp [TbTable.setTb, hi, h.pc, h.tcPtr]

theorem tbFlush (h : SameArray c s) :
    Option.Rel SameArray (Translate.tbFlush z c) (s.tbFlush z) := by
  rw [Translate.tbFlush, TbTable.tbFlush, h.codeGenPtr]
  split_ifs
  · exact .none
  · exact .some ⟨rfl, rfl, h.pc, h.tcPtr⟩

theorem tbFree (h : SameArray c s) (i : ℕ) : SameArray (Translate.tbFree c i) (s.tbFree i) := by
  rw [Translate.tbFree, TbTable.tbFree, h.nbTbs]
  split_ifs
  · exact ⟨rfl, h.tcPtr i, h.pc, h.tcPtr⟩
  · exact h

theorem allocTb (h : SameArray c s) (pc : UInt32) :
    Option.Rel (fun r q => SameArray r.1 q.1 ∧ q.2 = r.2 ∧ (q.1.tbs q.2).pc = pc)
      (Translate.allocTb z c pc) (s.allocTb z pc) := by
  rw [Translate.allocTb, TbTable.allocTb]
  have halloc := h.tbAlloc (z := z) pc
  have hflush := h.tbFlush (z := z)
  generalize Translate.tbAlloc z c pc = x, s.tbAlloc z pc = y, Translate.tbFlush z c = u,
    s.tbFlush z = v
    at halloc hflush ⊢
  cases halloc with
  | some hr => exact .some hr
  | none =>
    cases hflush with
    | none => exact .none
    | some h => exact h.tbAlloc pc

/-- **`tb_gen_code` does the same to both**, when the table is told what the translation of the
cache gives. -/
theorem tbGenCode (h : SameArray c s) (hc : LiveAllocated c) {insnMap : Option Variability.InsnMap}
    {e : TransEnv} {tb : TbHeader} {codeGenSize : ℕ} {page2Fault : Bool}
    (hgen : Translate.tbGenCode z insnMap c e tb codeGenSize page2Fault = some c')
    {map : CodeMap} {page : ℕ}
    (hmap : map (virtPage tb.pc) = some page) (csBase : UInt32) (flags : UInt64)
    (translation : Option (Translation tb.pc)) (hsize : translation.map Translation.codeGenSize =
      if (translateNew c e tb).completed then some codeGenSize else none) :
    ∃ s' r, s.tbGenCode z map tb.pc csBase flags translation = some (s', r) ∧ SameArray c' s' := by
  simp only [Translate.tbGenCode, bind, Option.bind_eq_some_iff] at hgen
  obtain ⟨⟨c₁, i⟩, hc₁, cc, -, hgen⟩ := hgen
  obtain ⟨-, hall⟩ := allocated_of_allocTb hc hc₁
  have hp : genIntermediateCodeInternal e tb false c₁.flags c₁.opcMap = translateNew c e tb := by
    rw [hall.flags, hall.opcMap]
    rfl
  have halloc := h.allocTb (z := z) tb.pc
  rw [hc₁] at halloc
  generalize hs₁ : s.allocTb z tb.pc = y at halloc
  obtain @⟨_, ⟨s₁, j⟩, h₁, hj, hpc⟩ := halloc
  obtain rfl : j = i := hj
  dsimp only at hgen h₁ hpc
  rw [hp] at hgen
  simp only [TbTable.tbGenCode, hmap, hs₁, bind, Option.bind_some]
  cases hcompleted : (translateNew c e tb).completed with
  | false =>
    simp only [hcompleted, Bool.false_eq_true, if_false, Option.map_eq_none_iff] at hsize
    subst hsize
    simp only [hcompleted, Bool.not_false, if_true] at hgen
    split_ifs at hgen
    obtain rfl := Option.some.inj hgen
    refine ⟨_, _, rfl, h₁.nbTbs, h₁.codeGenPtr, fun k => ?_, fun k => ?_⟩ <;>
      by_cases hk : k = j <;> simp [TbTable.setTb, hk, hpc, h₁.pc, h₁.tcPtr, h₁.codeGenPtr]
  | true =>
    simp only [hcompleted, if_true, Option.map_eq_some_iff] at hsize
    obtain ⟨tr, rfl, rfl⟩ := hsize
    simp only [hcompleted, Bool.not_true, Bool.false_eq_true, if_false] at hgen
    split at hgen
    · cases hgen
    have hlinked : ∀ s₂, SameArray c' s₂ → ∃ s' r, (
        if virtPage tb.pc = virtPage (tb.pc + UInt32.ofNat tr.size - 1) then
          some (s₂.tbLinkPage j (TbTable.physPc page tb.pc) none tr.hasJump, some j)
        else
          match map (virtPage (tb.pc + UInt32.ofNat tr.size - 1)) with
          | none => some (s₂, none)
          | some page2 =>
            some (s₂.tbLinkPage j (TbTable.physPc page tb.pc) (some page2) tr.hasJump, some j)) =
        some (s', r) ∧ SameArray c' s' := by
      intro s₂ h₂
      split_ifs
      · exact ⟨_, _, rfl, h₂.tbLinkPage ..⟩
      · cases map (virtPage (tb.pc + UInt32.ofNat tr.size - 1)) with
        | none => exact ⟨_, _, rfl, h₂⟩
        | some page2 => exact ⟨_, _, rfl, h₂.tbLinkPage ..⟩
    obtain rfl := Option.some.inj hgen
    refine hlinked _ ⟨h₁.nbTbs, congrArg (fun p => codeGenAlign (p + tr.codeGenSize)) h₁.codeGenPtr,
      fun k => ?_, fun k => ?_⟩ <;>
      by_cases hk : k = j <;> simp [TbTable.setTb, hk, hpc, h₁.pc, h₁.tcPtr, h₁.codeGenPtr]

end SameArray

end VariabilityTestbed.Exec
